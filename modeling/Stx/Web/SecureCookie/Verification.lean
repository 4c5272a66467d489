import Stx.Web.SecureCookie
import Mathlib.Data.List.DropRight

/-! What becomes of the texts that a client may send: which of them are refused with an exception,
and which are accepted. -/
namespace Stx.Web.SecureCookieCoder
variable (hmac_sha1 : Bytes → Bytes → SHA1Hash) (coder : SecureCookieCoder)

/-- The signature starts with the digits of the hash of `message`, in either case. -/
def SignatureOf (message : Bytes) (f : Fields) : Prop :=
  (f.hmac.take 40).map Libc.tolower = (hmac_sha1 coder.secret_key_ message).toString

def expired (now created_at : UInt64) : Prop :=
  created_at < now ∧ now-created_at > coder.expire_after_

/-- Both fields that are read before the signature is compared can be read. -/
def Readable (f : Fields) : Prop :=
  (Libc.stoul f.created_at).isSome = true ∧ SHA1Hash.Digits 20 f.hmac

/-- A text is a cookie if it is signed, its payload is not encrypted and it has not expired. -/
def Valid (now : UInt64) (data : Bytes) : Prop :=
  ∃ f : Fields, data = f.text ∧ Readable f ∧ SignatureOf hmac_sha1 coder f.signed f ∧
    f.algo = lit "PLAIN" ∧ ∀ n, Libc.stoul f.created_at = some n →
      ¬coder.expired now (UInt64.ofNat n)

theorem fromHexString_signature {f : Fields} {hash : SHA1Hash} (message : Bytes)
    (h : SHA1Hash.fromHexString f.hmac = .ok hash) :
    hmac_sha1 coder.secret_key_ message = hash ↔ SignatureOf hmac_sha1 coder message f := by
  rw [SignatureOf, ← SHA1Hash.toString_of_fromHexString h, SHA1Hash.toString_injective.eq_iff]
  exact eq_comm

/-- A text of five fields is refused with an exception exactly where it cannot be read. -/
theorem decode_text_cases (f : Fields) :
    (¬Readable f ∧ ∃ e, coder.decodeAndVerifyWithoutExpiration hmac_sha1 f.text = .raise e) ∨
    (Readable f ∧ ¬(SignatureOf hmac_sha1 coder (padded f.text) f ∧ f.algo = lit "PLAIN") ∧
      coder.decodeAndVerifyWithoutExpiration hmac_sha1 f.text = .ok none) ∨
    ∃ n, Libc.stoul f.created_at = some n ∧ SHA1Hash.Digits 20 f.hmac ∧
      SignatureOf hmac_sha1 coder (padded f.text) f ∧ f.algo = lit "PLAIN" ∧
      coder.decodeAndVerifyWithoutExpiration hmac_sha1 f.text =
        .ok (some (.ofText f.ciphertext (UInt64.ofNat n))) := by
  rw [decode_text]
  rcases Libc.stoull_cases f.created_at with ⟨n, hstoul, hn⟩ | ⟨hnone, e, hraise⟩
  · rw [hn, Result.ok_bind]
    rcases SHA1Hash.fromHexString_cases f.hmac with ⟨hdigits, hash, hhash, -⟩ | ⟨hnot, hraise⟩
    · have hread : Readable f := ⟨by rw [hstoul]; rfl, hdigits⟩
      rw [hhash, Result.ok_bind]
      by_cases hsig : SignatureOf hmac_sha1 coder (padded f.text) f
      · rw [if_neg (not_not.2 ((fromHexString_signature hmac_sha1 coder _ hhash).2 hsig))]
        by_cases halgo : f.algo = lit "PLAIN"
        · exact .inr (.inr ⟨n, hstoul, hdigits, hsig, halgo, if_pos halgo⟩)
        · exact .inr (.inl ⟨hread, fun h => halgo h.2, if_neg halgo⟩)
      · rw [if_pos (mt (fromHexString_signature hmac_sha1 coder _ hhash).1 hsig)]
        exact .inr (.inl ⟨hread, fun h => hsig h.1, rfl⟩)
    · rw [hraise]
      exact .inl ⟨fun h => hnot h.2, _, rfl⟩
  · rw [hraise]
    refine .inl ⟨fun h => ?_, e, rfl⟩
    rw [Readable, hnone] at h
    exact absurd h.1 (by simp)

/-- Verification returns, and what is not a cookie is refused. -/
def Verifies (now : UInt64) (data : Bytes) : Prop :=
  ∃ cookie, coder.decodeAndVerify hmac_sha1 now data = .ok cookie ∧
    (¬Valid hmac_sha1 coder now data → cookie = none)

/-- The signature fits what the code takes for the signed text, but not the signed text. -/
def Misplaced (now : UInt64) (f : Fields) : Prop :=
  2^31 < f.text.length ∧ SignatureOf hmac_sha1 coder (padded f.text) f ∧
    ¬SignatureOf hmac_sha1 coder f.signed f ∧ f.algo = lit "PLAIN" ∧
    ∀ n, Libc.stoul f.created_at = some n → ¬coder.expired now (UInt64.ofNat n)

theorem decodeAndVerify_some {now : UInt64} {data ciphertext : Bytes} {created_at : UInt64}
    (h : coder.decodeAndVerifyWithoutExpiration hmac_sha1 data =
      .ok (some (.ofText ciphertext created_at))) :
    (coder.expired now created_at ∧ coder.decodeAndVerify hmac_sha1 now data = .ok none) ∨
    (¬coder.expired now created_at ∧ coder.decodeAndVerify hmac_sha1 now data =
      .ok (some (.ofText ciphertext created_at))) := by
  rw [decodeAndVerify, h, Result.ok_bind]
  by_cases hexp : coder.expired now created_at
  · exact .inl ⟨hexp, if_pos hexp⟩
  · exact .inr ⟨hexp, if_neg hexp⟩

theorem valid_text_iff {now : UInt64} {f : Fields} {n : Nat}
    (hstoul : Libc.stoul f.created_at = some n) (hread : Readable f) (halgo : f.algo = lit "PLAIN")
    (hfresh : ¬coder.expired now (UInt64.ofNat n)) :
    Valid hmac_sha1 coder now f.text ↔ SignatureOf hmac_sha1 coder f.signed f := by
  constructor
  · rintro ⟨g, hg, -, hsig, -⟩
    rwa [Fields.text_injective hg]
  · intro hsig
    refine ⟨f, rfl, hread, hsig, halgo, fun m hm => ?_⟩
    rw [hstoul, Option.some.injEq] at hm
    rwa [← hm]

theorem verifies_text_iff (now : UInt64) (f : Fields) :
    Verifies hmac_sha1 coder now f.text ↔
      Readable f ∧ ¬Misplaced hmac_sha1 coder now f := by
  rcases decode_text_cases hmac_sha1 coder f with
    ⟨hnot, e, hraise⟩ | ⟨hread, hnot, hnone⟩ | ⟨n, hstoul, hdigits, hsig, halgo, hsome⟩
  · refine iff_of_false ?_ fun h => hnot h.1
    rintro ⟨cookie, hok, -⟩
    rw [decodeAndVerify, hraise] at hok
    cases hok
  · refine iff_of_true ⟨none, ?_, fun _ => rfl⟩ ⟨hread, ?_⟩
    · rw [decodeAndVerify, hnone]
      rfl
    · rintro ⟨-, hsig, -, halgo, -⟩
      exact hnot ⟨hsig, halgo⟩
  · have hread : Readable f := ⟨by rw [hstoul]; rfl, hdigits⟩
    rcases decodeAndVerify_some hmac_sha1 coder hsome with ⟨hexp, hnone⟩ | ⟨hfresh, hcookie⟩
    · refine iff_of_true ⟨none, hnone, fun _ => rfl⟩ ⟨hread, ?_⟩
      rintro ⟨-, -, -, -, hall⟩
      exact hall n hstoul hexp
    · have hvalid := valid_text_iff hmac_sha1 coder hstoul hread halgo hfresh
      have hfresh' : ∀ m, Libc.stoul f.created_at = some m →
          ¬coder.expired now (UInt64.ofNat m) := by
        intro m hm
        rw [hstoul, Option.some.injEq] at hm
        rwa [← hm]
      constructor
      · rintro ⟨cookie, hok, hnone⟩
        rw [hcookie] at hok
        cases hok
        refine ⟨hread, fun hmis => ?_⟩
        cases hnone fun h => hmis.2.2.1 (hvalid.1 h)
      · rintro ⟨-, hmis⟩
        refine ⟨_, hcookie, fun hinvalid => absurd (hvalid.2 ?_) hinvalid⟩
        by_contra hsigned
        by_cases hlen : f.text.length ≤ 2^31
        · rw [padded_text hlen] at hsig
          exact hsigned hsig
        · exact hmis ⟨not_le.1 hlen, hsig, hsigned, halgo, hfresh'⟩

/-- Verification of a text goes well exactly where its number and its signature can be read and the
signature is not found to fit in the wrong place. -/
theorem verification_total_iff (now : UInt64) (data : Bytes) :
    Verifies hmac_sha1 coder now data ↔
      ∀ f : Fields, data = f.text → Readable f ∧ ¬Misplaced hmac_sha1 coder now f := by
  by_cases h : ∃ f : Fields, data = f.text
  · obtain ⟨f, rfl⟩ := h
    rw [verifies_text_iff]
    constructor
    · intro hf g hg
      rwa [← Fields.text_injective hg]
    · exact fun hall => hall f rfl
  · constructor
    · exact fun _ f hf => absurd ⟨f, hf⟩ h
    · intro _
      refine ⟨none, ?_, fun _ => rfl⟩
      rw [decodeAndVerify, decode_of_not_text _ _ fun f hf => h ⟨f, hf⟩]
      rfl

/-- Where the second of five fields is no number, `std::stoull` throws. -/
theorem verification_throws :
    ¬Verifies constantHmac ⟨lit "key", 0⟩ 0 (lit "a|b|PLAIN||x") := by
  intro h
  have hread := ((verifies_text_iff constantHmac ⟨lit "key", 0⟩ 0
    ⟨lit "a", lit "b", lit "PLAIN", [], lit "x", by decide⟩).1 h).1
  exact absurd hread.1 (by decide)

end Stx.Web.SecureCookieCoder

/- Which texts of a signature are accepted. -/
namespace Stx.Web.SecureCookieCoder
variable (hmac_sha1 : Bytes → Bytes → SHA1Hash) (coder : SecureCookieCoder)

def Accepted (data : Bytes) : Prop :=
  ∃ cookie, coder.decodeAndVerifyWithoutExpiration hmac_sha1 data = .ok (some cookie)

/-- The text up to its last separator. -/
def signedPart (data : Bytes) : Bytes := data.rdropWhile (· != 124)

/-- What stands behind the last separator. -/
def signature (data : Bytes) : Bytes := data.rtakeWhile (· != 124)

theorem signedPart_append_signature (data : Bytes) : signedPart data ++ signature data = data :=
  List.rdropWhile_append_rtakeWhile

theorem signature_text (f : Fields) : signature f.text = f.hmac := by
  have hsplit : f.text.reverse = f.hmac.reverse ++
      124 :: (f.ciphertext ++ 124 :: (f.created_at ++ 124 :: (f.algo ++ 124 :: f.iv))).reverse := by
    simp [Fields.text, Fields.signed]
  have hall : ∀ c ∈ f.hmac.reverse, (c != 124) = true := by
    intro c hc
    have hne : c ≠ 124 := fun h => f.not_mem_hmac (h ▸ List.mem_reverse.1 hc)
    simpa using hne
  rw [signature, List.rtakeWhile, hsplit, List.takeWhile_append_of_pos hall,
    List.takeWhile_cons_of_neg (by simp), List.append_nil, List.reverse_reverse]

theorem signedPart_text (f : Fields) : signedPart f.text = f.signed := by
  have hparts := signedPart_append_signature f.text
  rw [signature_text] at hparts
  exact List.append_cancel_right hparts

theorem accepted_text_iff {f : Fields} : Accepted hmac_sha1 coder f.text ↔
    Readable f ∧ SignatureOf hmac_sha1 coder (padded f.text) f ∧ f.algo = lit "PLAIN" := by
  rcases decode_text_cases hmac_sha1 coder f with
    ⟨hnot, e, hraise⟩ | ⟨hread, hnot, hnone⟩ | ⟨n, hstoul, hdigits, hsig, halgo, hsome⟩
  · refine iff_of_false ?_ fun h => hnot h.1
    rintro ⟨cookie, hok⟩
    rw [hraise] at hok
    cases hok
  · refine iff_of_false ?_ fun h => hnot h.2
    rintro ⟨cookie, hok⟩
    rw [hnone] at hok
    cases hok
  · exact iff_of_true ⟨_, hsome⟩ ⟨⟨by rw [hstoul]; rfl, hdigits⟩, hsig, halgo⟩

/-- The signature is what `encodeWithoutEncryption` writes. -/
def Canonical (data : Bytes) : Prop :=
  signature data = (hmac_sha1 coder.secret_key_ (signedPart data)).toString

/-- Forty characters, none of them an upper-case letter. -/
def Plain (data : Bytes) : Prop :=
  (signature data).length = 40 ∧ ∀ c ∈ signature data, Libc.tolower c = c

theorem exists_text_of_accepted {data : Bytes} (h : Accepted hmac_sha1 coder data) :
    ∃ f : Fields, data = f.text := by
  by_contra hnone
  obtain ⟨cookie, hok⟩ := h
  rw [decode_of_not_text _ _ fun f hf => hnone ⟨f, hf⟩] at hok
  cases hok

/-- The hash that an accepted signature is read to is the one of the signed part. -/
theorem fromHexString_accepted {data : Bytes} (h : Accepted hmac_sha1 coder data)
    (hlen : data.length ≤ 2^31) : SHA1Hash.fromHexString (signature data) =
      .ok (hmac_sha1 coder.secret_key_ (signedPart data)) := by
  obtain ⟨f, rfl⟩ := exists_text_of_accepted hmac_sha1 coder h
  obtain ⟨⟨-, hdigits⟩, hsig, -⟩ := (accepted_text_iff hmac_sha1 coder).1 h
  rw [padded_text hlen] at hsig
  rw [signature_text, signedPart_text]
  rcases SHA1Hash.fromHexString_cases f.hmac with ⟨-, hash, hhash, -⟩ | ⟨hnot, -⟩
  · rw [hhash, (fromHexString_signature hmac_sha1 coder f.signed hhash).2 hsig]
  · exact absurd hdigits hnot

/-- Of two accepted texts that agree up to their last separator, the signatures start with the
digits of the one hash, in either case; and they are the signature that is written, so that the
texts are the same, exactly if they have forty characters in lower case. -/
theorem signature_unique_up_to_spelling {d₁ d₂ : Bytes} (h₁ : Accepted hmac_sha1 coder d₁)
    (h₂ : Accepted hmac_sha1 coder d₂) (hsame : signedPart d₁ = signedPart d₂)
    (hlen₁ : d₁.length ≤ 2^31) (hlen₂ : d₂.length ≤ 2^31) :
    (∀ d ∈ [d₁, d₂], ((signature d).take 40).map Libc.tolower =
      (hmac_sha1 coder.secret_key_ (signedPart d₁)).toString) ∧
    ((d₁ = d₂ ∧ Canonical hmac_sha1 coder d₁) ↔ Plain d₁ ∧ Plain d₂) := by
  have hread₁ := fromHexString_accepted hmac_sha1 coder h₁ hlen₁
  have hread₂ := fromHexString_accepted hmac_sha1 coder h₂ hlen₂
  have hcanon₁ : Canonical hmac_sha1 coder d₁ ↔ Plain d₁ := SHA1Hash.eq_toString_iff hread₁
  have hcanon₂ : Canonical hmac_sha1 coder d₂ ↔ Plain d₂ := SHA1Hash.eq_toString_iff hread₂
  refine ⟨?_, ?_⟩
  · simp only [List.forall_mem_cons, List.not_mem_nil, false_implies, implies_true, and_true]
    rw [← hsame] at hread₂
    exact ⟨(SHA1Hash.toString_of_fromHexString hread₁).symm,
      (SHA1Hash.toString_of_fromHexString hread₂).symm⟩
  · constructor
    · rintro ⟨rfl, hcanon⟩
      exact ⟨hcanon₁.1 hcanon, hcanon₁.1 hcanon⟩
    · rintro ⟨hplain₁, hplain₂⟩
      have hsig₁ := hcanon₁.2 hplain₁
      have hsig₂ := hcanon₂.2 hplain₂
      refine ⟨?_, hsig₁⟩
      calc d₁ = signedPart d₁ ++ signature d₁ := (signedPart_append_signature d₁).symm
        _ = signedPart d₂ ++ signature d₂ := by rw [hsig₁, hsig₂, hsame]
        _ = d₂ := signedPart_append_signature d₂

/-- A function of no use but to be evaluated, and with letters in the text of its value. -/
def letterHmac : Bytes → Bytes → SHA1Hash := fun _ _ => ⟨List.replicate 20 0xaa, rfl⟩

/-- The fields of a cookie with some signature. -/
def withSignature (hmac : Bytes) (h : 124 ∉ hmac) : Fields where
  ciphertext := lit "QUJD"
  created_at := lit "7"
  algo := lit "PLAIN"
  iv := []
  hmac := hmac
  whole := whole_fields (by decide) (by decide) (by decide) List.not_mem_nil h

theorem accepted_withSignature (hmac : Bytes) (h : 124 ∉ hmac) (hlen : 40 ≤ hmac.length)
    (hletters : (hmac.take 40).map Libc.tolower = List.replicate 40 97)
    (hdigits : (hmac.take 40).all SHA1Hash.isHexDigit = true) :
    Accepted letterHmac ⟨lit "key", 0⟩ (withSignature hmac h).text := by
  have hnumber : (Libc.stoul (lit "7")).isSome = true := by decide
  refine (accepted_text_iff _ _).2 ⟨⟨hnumber, hlen, hdigits⟩, ?_, rfl⟩
  change (hmac.take 40).map _ = SHA1Hash.toString ⟨List.replicate 20 0xaa, _⟩
  rw [hletters]
  decide +kernel

def smallLetters : Bytes := (withSignature (List.replicate 40 97) (by decide)).text

def capitalLetters : Bytes := (withSignature (List.replicate 40 65) (by decide)).text

theorem signature_unique_letters :
    Canonical letterHmac ⟨lit "key", 0⟩ smallLetters ∧
    (∀ d ∈ [smallLetters, capitalLetters], ((signature d).take 40).map Libc.tolower =
      (letterHmac (lit "key") (signedPart smallLetters)).toString) ∧
    ¬(smallLetters = capitalLetters ∧ Canonical letterHmac ⟨lit "key", 0⟩ smallLetters) := by
  have hsmall : Accepted letterHmac ⟨lit "key", 0⟩ smallLetters :=
    accepted_withSignature (List.replicate 40 97) (by decide) (by decide) (by decide) (by decide)
  have hcapital : Accepted letterHmac ⟨lit "key", 0⟩ capitalLetters :=
    accepted_withSignature (List.replicate 40 65) (by decide) (by decide) (by decide) (by decide)
  have hsame : signedPart smallLetters = signedPart capitalLetters := by
    rw [smallLetters, capitalLetters, signedPart_text, signedPart_text]
    rfl
  have hlen : smallLetters.length ≤ 2^31 := by decide +kernel
  have hlen' : capitalLetters.length ≤ 2^31 := by decide +kernel
  have hplain : Plain smallLetters := by
    rw [Plain, smallLetters, signature_text]
    exact ⟨by decide, by decide +kernel⟩
  have hcapitals : ¬Plain capitalLetters := by
    rw [Plain, capitalLetters, signature_text]
    exact fun h => absurd h.2 (by decide +kernel)
  obtain ⟨-, hequal⟩ := signature_unique_up_to_spelling _ _ hsmall hsmall rfl hlen hlen
  obtain ⟨hread, hdiffer⟩ :=
    signature_unique_up_to_spelling _ _ hsmall hcapital hsame hlen hlen'
  exact ⟨(hequal.2 ⟨hplain, hplain⟩).2, hread, fun h => hcapitals (hdiffer.1 h).2⟩

/-- A signature in capital letters is accepted too. -/
theorem signature_in_capitals : ¬∀ (hmac_sha1 : Bytes → Bytes → SHA1Hash)
    (coder : SecureCookieCoder) (d₁ d₂ : Bytes), Accepted hmac_sha1 coder d₁ →
      Accepted hmac_sha1 coder d₂ → signedPart d₁ = signedPart d₂ → d₁ = d₂ := by
  intro h
  have hsmall := accepted_withSignature (List.replicate 40 97) (by decide) (by decide)
    (by decide) (by decide)
  have hcapital := accepted_withSignature (List.replicate 40 65) (by decide) (by decide)
    (by decide) (by decide)
  have heq := h letterHmac ⟨lit "key", 0⟩ _ _ hsmall hcapital (by
    rw [signedPart_text, signedPart_text]
    rfl)
  have hfields := Fields.text_injective heq
  exact absurd (congrArg Fields.hmac hfields) (by decide)

end Stx.Web.SecureCookieCoder
