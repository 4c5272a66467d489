import Stx.Digest.Hex
import Stx.StringUtil.Split
import Stx.Util.Base64

/-! `web/SecureCookie.{h,cc}`. HMAC-SHA1 may be any function of the key and the message. -/
namespace Stx
namespace Web

structure SecureCookie where
  data_ : Buffer
  created_at_ : UInt64

/-- Of the text that `Base64::decode` makes of `ciphertext`. -/
def SecureCookie.ofText (ciphertext : Bytes) (created_at : UInt64) : SecureCookie where
  data_ := ⟨Base64.decode ciphertext, (Base64.length_decode_lt ciphertext).trans (by decide)⟩
  created_at_ := created_at

structure SecureCookieCoder where
  secret_key_ : Bytes
  expire_after_ : UInt64

namespace SecureCookieCoder
variable (hmac_sha1 : Bytes → Bytes → SHA1Hash) (coder : SecureCookieCoder)

/-- `Buffer(data.data(), pad_end + 1)`. -/
def padded (data : Bytes) : Bytes := data.take ((StringUtil.findLast data 124+1) % 2^64)

def decodeAndVerifyWithoutExpiration (data : Bytes) : Result (Option SecureCookie) := do
  match ← StringUtil.split data (lit "|") with
  | [ciphertext, created_at, algo, _, hmac] =>
    let pad_hmac := hmac_sha1 coder.secret_key_ (padded data)
    let created_at ← Libc.stoull created_at
    let hmac ← SHA1Hash.fromHexString hmac
    if pad_hmac ≠ hmac then return none
    else if algo = lit "PLAIN" then return some (.ofText ciphertext created_at)
    else return none
  | _ => return none

/-- `now` is the reading of the wall clock. -/
def decodeAndVerify (now : UInt64) (data : Bytes) : Result (Option SecureCookie) := do
  match ← coder.decodeAndVerifyWithoutExpiration hmac_sha1 data with
  | none => return none
  | some cookie =>
    let created_at := cookie.created_at_
    if created_at < now ∧ now-created_at > coder.expire_after_ then return none
    else return some cookie

/-- Nothing is written where `Base64::encode` would read behind the payload. -/
def encodeWithoutEncryption (cookie : SecureCookie) : Option Bytes := do
  let ciphertext ← Base64.encode cookie.data_.data
  let out := ciphertext ++ [124] ++ StringUtil.toString cookie.created_at_.toNat ++ lit "|PLAIN||"
  return out ++ (hmac_sha1 coder.secret_key_ out).toString

end SecureCookieCoder

/-- Five fields, with nothing in them that would split them further. -/
structure Fields where
  ciphertext : Bytes
  created_at : Bytes
  algo : Bytes
  iv : Bytes
  hmac : Bytes
  whole : ∀ field ∈ [ciphertext, created_at, algo, iv, hmac], 124 ∉ field

theorem whole_fields {a b c d e : Bytes} (ha : 124 ∉ a) (hb : 124 ∉ b) (hc : 124 ∉ c)
    (hd : 124 ∉ d) (he : 124 ∉ e) : ∀ field ∈ [a, b, c, d, e], 124 ∉ field := by
  simp only [List.forall_mem_cons, List.not_mem_nil, false_implies, implies_true, and_true]
  exact ⟨ha, hb, hc, hd, he⟩

namespace Fields
variable (f : Fields)

/-- What the signature is about. -/
def signed : Bytes :=
  f.ciphertext ++ 124 :: (f.created_at ++ 124 :: (f.algo ++ 124 :: (f.iv ++ [124])))

def text : Bytes := f.signed ++ f.hmac

theorem text_eq : f.text =
    [124].intercalate [f.ciphertext, f.created_at, f.algo, f.iv, f.hmac] := by
  simp [text, signed, List.intercalate]

theorem splitOn_text : f.text.splitOn 124 = [f.ciphertext, f.created_at, f.algo, f.iv, f.hmac] := by
  rw [text_eq]
  exact List.splitOn_intercalate 124 f.whole (List.cons_ne_nil _ _)

theorem exists_of_splitOn {data a b c d e : Bytes} (h : data.splitOn 124 = [a, b, c, d, e]) :
    ∃ f : Fields, data = f.text ∧ f.ciphertext = a ∧ f.created_at = b ∧ f.algo = c ∧ f.iv = d ∧
      f.hmac = e := by
  have hwhole : ∀ field ∈ [a, b, c, d, e], 124 ∉ field := fun field hfield =>
    StringUtil.not_mem_of_mem_splitOn (h ▸ hfield)
  refine ⟨⟨a, b, c, d, e, hwhole⟩, ?_, rfl, rfl, rfl, rfl, rfl⟩
  rw [text_eq, ← h, List.intercalate_splitOn]

theorem not_mem_hmac : 124 ∉ f.hmac := f.whole f.hmac (by simp)

theorem text_injective : Function.Injective text := by
  intro f g h
  have hparts := congrArg (List.splitOn 124) h
  rw [splitOn_text, splitOn_text] at hparts
  cases f
  cases g
  simpa using hparts

end Fields

namespace SecureCookieCoder
variable (hmac_sha1 : Bytes → Bytes → SHA1Hash) (coder : SecureCookieCoder)

theorem padded_text {f : Fields} (h : f.text.length ≤ 2^31) : padded f.text = f.signed := by
  have hsplit : f.text = (f.ciphertext ++ 124 :: (f.created_at ++ 124 :: (f.algo ++ 124 :: f.iv))) ++
      124 :: f.hmac := by
    simp [Fields.text, Fields.signed]
  have hsigned : f.signed.length =
      (f.ciphertext ++ 124 :: (f.created_at ++ 124 :: (f.algo ++ 124 :: f.iv))).length+1 := by
    simp [Fields.signed]
    omega
  have hle : f.signed.length ≤ f.text.length := by simp [Fields.text]
  have hlast : StringUtil.findLast f.text 124+1 = f.signed.length := by
    rw [hsigned, hsplit, StringUtil.findLast_of_le f.not_mem_hmac (by rw [← hsplit]; exact h)]
  rw [padded, hlast, Nat.mod_eq_of_lt (by omega), Fields.text, List.take_left]

/-- Behind 2^31 characters it is the empty text that is signed, up to the next power. -/
theorem padded_of_lt {data : Bytes} (hlo : 2^31 < data.length) (hhi : data.length ≤ 2^32) :
    padded data = [] := by
  rw [padded, StringUtil.findLast_of_lt 124 hlo hhi]
  exact List.take_zero

theorem decode_text (f : Fields) :
    coder.decodeAndVerifyWithoutExpiration hmac_sha1 f.text = (do
      let created_at ← Libc.stoull f.created_at
      let hmac ← SHA1Hash.fromHexString f.hmac
      if hmac_sha1 coder.secret_key_ (padded f.text) ≠ hmac then return none
      else if f.algo = lit "PLAIN" then return some (.ofText f.ciphertext created_at)
      else return none) := by
  rw [decodeAndVerifyWithoutExpiration]
  change (StringUtil.split f.text [124] >>= _) = _
  rw [StringUtil.split_singleton, Fields.splitOn_text]
  rfl

theorem decode_of_not_text {data : Bytes} (h : ∀ f : Fields, data ≠ f.text) :
    coder.decodeAndVerifyWithoutExpiration hmac_sha1 data = .ok none := by
  rw [decodeAndVerifyWithoutExpiration]
  change (StringUtil.split data [124] >>= _) = _
  rw [StringUtil.split_singleton, Result.ok_bind]
  split
  · next hparts =>
    obtain ⟨f, hf, -⟩ := Fields.exists_of_splitOn hparts
    exact absurd hf (h f)
  · rfl

/-- A function of no use but to be evaluated. -/
def constantHmac : Bytes → Bytes → SHA1Hash := fun _ _ => .zero

end SecureCookieCoder
end Web
end Stx
