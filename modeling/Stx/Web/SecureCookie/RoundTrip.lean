import Stx.Web.SecureCookie

/-! A cookie that is written is read back, as long as its text is not too long. -/
namespace Stx.Web.SecureCookieCoder

/-- The characters of a cookie's text: the payload in groups of four, the time, the separators with
the name of the algorithm, and the signature. -/
def textSize (cookie : SecureCookie) : Nat :=
  4*((cookie.data_.data.length+2)/3)+(StringUtil.toString cookie.created_at_.toNat).length+49

/-- What is signed of it. -/
def signedText (cookie : SecureCookie) : Bytes :=
  Base64.digits cookie.data_.data ++ Base64.padding cookie.data_.data.length ++
    124 :: (StringUtil.toString cookie.created_at_.toNat ++ lit "|PLAIN||")

theorem separator_not_mem_base64 (s : Bytes) (size : Nat) :
    124 ∉ Base64.digits s ++ Base64.padding size := by
  intro h
  rcases List.mem_append.1 h with h | h
  · exact absurd (Base64.value_le_of_mem_digits h) (by decide)
  · exact absurd (List.eq_of_mem_replicate h) (by decide)

theorem separator_not_mem_toString (n : Nat) : 124 ∉ StringUtil.toString n := fun h =>
  absurd (Libc.isdigit_of_mem_toString h) (by decide)

theorem separator_not_mem_hash (hash : SHA1Hash) : 124 ∉ hash.toString := fun h =>
  absurd (SHA1Hash.digit_of_mem_toString h).1 (by decide)

theorem separator_not_mem_plain : 124 ∉ lit "PLAIN" := by decide

/-- The fields that are written. -/
def written (cookie : SecureCookie) (hash : SHA1Hash) : Fields where
  ciphertext := Base64.digits cookie.data_.data ++ Base64.padding cookie.data_.data.length
  created_at := StringUtil.toString cookie.created_at_.toNat
  algo := lit "PLAIN"
  iv := []
  hmac := hash.toString
  whole := whole_fields (separator_not_mem_base64 _ _) (separator_not_mem_toString _)
    separator_not_mem_plain List.not_mem_nil (separator_not_mem_hash hash)

theorem signed_written (cookie : SecureCookie) (hash : SHA1Hash) :
    (written cookie hash).signed = signedText cookie := by
  have hplain : lit "|PLAIN||" = 124 :: (lit "PLAIN" ++ [124, 124]) := by decide
  rw [Fields.signed, signedText, hplain]
  rfl

theorem length_signedText (cookie : SecureCookie) :
    (signedText cookie).length+40 = textSize cookie := by
  have hpad := Base64.length_padding cookie.data_.data.length
  have hplain : (lit "|PLAIN||").length = 8 := by decide
  simp only [signedText, textSize, List.length_append, List.length_cons, Base64.length_digits,
    hplain]
  omega

theorem length_written (cookie : SecureCookie) (hash : SHA1Hash) :
    (written cookie hash).text.length = textSize cookie := by
  rw [Fields.text, List.length_append, signed_written, ← length_signedText]
  exact congrArg _ (SHA1Hash.length_toString hash)

section
variable (hmac_sha1 : Bytes → Bytes → SHA1Hash) (coder : SecureCookieCoder)

/-- Encoding writes the cookie and decoding the text returns it. -/
def RoundTrips (cookie : SecureCookie) : Prop :=
  ∃ text, coder.encodeWithoutEncryption hmac_sha1 cookie = some text ∧
    coder.decodeAndVerifyWithoutExpiration hmac_sha1 text = .ok (some cookie)

theorem encode_written {cookie : SecureCookie} (h2 : 2 ≤ cookie.data_.data.length) :
    coder.encodeWithoutEncryption hmac_sha1 cookie =
      some (written cookie (hmac_sha1 coder.secret_key_ (signedText cookie))).text := by
  have hlt : cookie.data_.data.length < 2^64 := cookie.data_.size_lt.trans (by decide)
  have hout : ∀ text : Bytes, text ++ [124] ++ StringUtil.toString cookie.created_at_.toNat ++
      lit "|PLAIN||" = text ++ 124 :: (StringUtil.toString cookie.created_at_.toNat ++
        lit "|PLAIN||") := fun text => by simp
  rw [encodeWithoutEncryption, Base64.encode_eq h2 hlt]
  simp only [Option.bind_eq_bind, Option.bind_some, Option.pure_def, hout]
  rw [← signedText, Fields.text, signed_written]
  rfl

theorem stoull_toString (n : UInt64) : Libc.stoull (StringUtil.toString n.toNat) = .ok n := by
  have hstoul := Libc.stoul_toString n.toNat_lt
  rcases Libc.stoull_cases (StringUtil.toString n.toNat) with ⟨m, hm, hok⟩ | ⟨hnone, -⟩
  · rw [hstoul, Option.some.injEq] at hm
    rw [hok, ← hm, UInt64.ofNat_toNat]
  · rw [hstoul] at hnone
    cases hnone

theorem decode_written (cookie : SecureCookie) (hash : SHA1Hash) :
    coder.decodeAndVerifyWithoutExpiration hmac_sha1 (written cookie hash).text =
      if hmac_sha1 coder.secret_key_ (padded (written cookie hash).text) ≠ hash then .ok none
      else .ok (some (.ofText (written cookie hash).ciphertext cookie.created_at_)) := by
  have hhash : SHA1Hash.fromHexString (written cookie hash).hmac = .ok hash := by
    have hread := SHA1Hash.fromHexString_toString hash []
    rwa [List.append_nil] at hread
  have htime : Libc.stoull (written cookie hash).created_at = .ok cookie.created_at_ :=
    stoull_toString cookie.created_at_
  rw [decode_text, htime, hhash, Result.ok_bind, Result.ok_bind]
  have halgo : (written cookie hash).algo = lit "PLAIN" := rfl
  simp only [halgo, if_true]
  rfl

theorem ofText_written_iff (cookie : SecureCookie) (hash : SHA1Hash) :
    SecureCookie.ofText (written cookie hash).ciphertext cookie.created_at_ = cookie ↔
      cookie.data_.data.length < 3*2^29 := by
  rw [← Base64.decode_digits_iff cookie.data_.data cookie.data_.data.length]
  rcases cookie with ⟨⟨data, hlt⟩, created_at⟩
  simp only [SecureCookie.ofText, SecureCookie.mk.injEq, Buffer.mk.injEq, and_true]
  rfl

theorem roundTrips_iff_padded {cookie : SecureCookie} (h2 : 2 ≤ cookie.data_.data.length) :
    RoundTrips hmac_sha1 coder cookie ↔
      hmac_sha1 coder.secret_key_ (padded (written cookie
          (hmac_sha1 coder.secret_key_ (signedText cookie))).text) =
        hmac_sha1 coder.secret_key_ (signedText cookie) ∧
      cookie.data_.data.length < 3*2^29 := by
  simp only [RoundTrips, encode_written hmac_sha1 coder h2, Option.some.injEq, exists_eq_left',
    decode_written]
  rw [← ofText_written_iff cookie (hmac_sha1 coder.secret_key_ (signedText cookie))]
  split
  · next hne => simp [hne]
  · next heq =>
    rw [not_not] at heq
    simp [heq]

/-- A cookie comes back if its text has no more than 2^31 characters. Behind that the signature is
compared with that of the empty text, and from 3·2^29 bytes on the payload is cut off. -/
theorem cookie_reads_back_iff {cookie : SecureCookie} (h2 : 2 ≤ cookie.data_.data.length) :
    RoundTrips hmac_sha1 coder cookie ↔
      textSize cookie ≤ 2^31 ∨ (cookie.data_.data.length < 3*2^29 ∧
        hmac_sha1 coder.secret_key_ [] = hmac_sha1 coder.secret_key_ (signedText cookie)) := by
  have hdigits : (StringUtil.toString cookie.created_at_.toNat).length ≤ 20 :=
    StringUtil.length_toString_le (cookie.created_at_.toNat_lt.trans (by decide))
  rw [roundTrips_iff_padded hmac_sha1 coder h2]
  by_cases hsize : textSize cookie ≤ 2^31
  · have hlt : cookie.data_.data.length < 3*2^29 := by
      unfold textSize at hsize
      omega
    rw [padded_text (by rwa [length_written]), signed_written]
    exact ⟨fun _ => .inl hsize, fun _ => ⟨rfl, hlt⟩⟩
  · have hpadded : cookie.data_.data.length < 3*2^29 → padded (written cookie
        (hmac_sha1 coder.secret_key_ (signedText cookie))).text = [] := by
      intro hlt
      have hle : textSize cookie ≤ 2^32 := by
        unfold textSize
        omega
      exact padded_of_lt (by rw [length_written]; omega) (by rwa [length_written])
    constructor
    · rintro ⟨hmac, hlt⟩
      rw [hpadded hlt] at hmac
      exact .inr ⟨hlt, hmac⟩
    · rintro (hle | ⟨hlt, hmac⟩)
      · exact absurd hle hsize
      · rw [hpadded hlt]
        exact ⟨hmac, hlt⟩

end

theorem cookie_reads_back_secret :
    2 ≤ (lit "geheim").length ∧ RoundTrips constantHmac ⟨lit "key", 0⟩
      ⟨⟨lit "geheim", by decide⟩, 1420070400000000⟩ :=
  ⟨by decide, (cookie_reads_back_iff _ _ (by decide)).2 (.inl (by decide +kernel))⟩

/-- At 3·2^29 bytes the number of the digits becomes negative. -/
theorem cookie_cut_off : ¬∀ (hmac_sha1 : Bytes → Bytes → SHA1Hash) (coder : SecureCookieCoder)
    (cookie : SecureCookie), 2 ≤ cookie.data_.data.length → RoundTrips hmac_sha1 coder cookie := by
  intro h
  have hlt : (List.replicate (3*2^29) (0 : UInt8)).length < 2^63 := by
    rw [List.length_replicate]
    decide
  have h2 : 2 ≤ (List.replicate (3*2^29) (0 : UInt8)).length := by
    rw [List.length_replicate]
    decide
  have hcut := ((roundTrips_iff_padded constantHmac ⟨[], 0⟩ h2).1
    (h constantHmac ⟨[], 0⟩ ⟨⟨List.replicate (3*2^29) 0, hlt⟩, 0⟩ h2)).2
  rw [List.length_replicate] at hcut
  exact absurd hcut (lt_irrefl _)

end Stx.Web.SecureCookieCoder
