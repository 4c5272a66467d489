import Stx.Uri.PercentCoding

/-! `http/cookies.{h,cc}`, and the cookies that are written and read back. -/
namespace Stx.Http.Cookies
open StringUtil URI

abbrev CookieList := List (Bytes × Bytes)

/- The key goes from behind the blanks to the `=`, which the cursor looks for from the same place on.
   Where there is none, both cursors run behind the end and the value is empty. -/
def parseCookieLoop : Nat → Bytes → Result CookieList
  | 0, _ => .diverge
  | fuel+1, rest =>
    if rest = [] then .ok []
    else do
      let key_str := rest.takeWhile fun c => c ≠ 61
      let behind := (rest.drop key_str.length).tail
      let val_str := behind.takeWhile fun c => c ≠ 59
      let key ← urlDecode (key_str.dropWhile fun c => c = 32)
      let value ← urlDecode val_str
      let cookies ← parseCookieLoop fuel (behind.drop val_str.length).tail
      return (key, value) :: cookies

def parseCookieHeader (header_str : Bytes) : Result CookieList :=
  parseCookieLoop (header_str.length+1) header_str

/-- The attributes of a cookie; `toString` is the text of `UnixTime::toString` with the format of the
header. -/
structure Attributes where
  expire : UInt64 := 0
  toString : UInt64 → Bytes := fun _ => []
  path : Bytes := []
  domain : Bytes := []
  secure : Bool := false
  httponly : Bool := false

def mkCookie (key value : Bytes) (attributes : Attributes := {}) : Result Bytes := do
  let cookie_str ← formatInt "$0=$1" [urlEncode key, urlEncode value]
  let path ← if attributes.path ≠ [] then formatInt "; Path=$0" [attributes.path] else pure []
  let domain ←
    if attributes.domain ≠ [] then formatInt "; Domain=$0" [attributes.domain] else pure []
  let expires ←
    if 0 < attributes.expire then
      formatInt "; Expires=$0" [attributes.toString attributes.expire]
    else pure []
  return cookie_str ++ path ++ domain ++ expires ++
    (if attributes.httponly then lit "; HttpOnly" else []) ++
    if attributes.secure then lit "; Secure" else []

example : (mkCookie (lit "fnord") (lit "b r") { path := lit "/p", secure := true } : Result Bytes) =
    .ok (lit "fnord=b%20r; Path=/p; Secure") := by decide +kernel

/-- Cookies without attributes. -/
def mkCookies : CookieList → Result (List Bytes)
  | [] => .ok []
  | (key, value) :: cookies => do
    let cookie ← mkCookie key value
    let cookies ← mkCookies cookies
    return cookie :: cookies

/-- The header of cookies without attributes. -/
def cookieHeader (cookies : CookieList) : Result Bytes := do
  let cookies ← mkCookies cookies
  return List.intercalate (lit "; ") cookies

/-- The cookies are written, and they are read from what was written. -/
def RoundTrips (cookies : CookieList) : Prop :=
  ∃ text, cookieHeader cookies = .ok text ∧ parseCookieHeader text = .ok cookies

section writing

theorem mkCookie_eq {p : Bytes × Bytes} (h : ShortKey p.1) :
    mkCookie p.1 p.2 = .ok (pairText p) := by
  rw [mkCookie, formatInt_pair_eq h]
  simp

theorem shortKey_of_mkCookie {p : Bytes × Bytes} {text : Bytes}
    (hmoderate : (urlEncode p.1).length+1 < 2^32-1) (h : mkCookie p.1 p.2 = .ok text) :
    ShortKey p.1 := by
  obtain ⟨cookie_str, hpair, -⟩ := Result.bind_eq_ok h
  exact shortKey_of_formatInt hmoderate hpair

theorem cookieHeader_eq {cookies : CookieList} (h : ∀ p ∈ cookies, ShortKey p.1) :
    cookieHeader cookies = .ok (List.intercalate [59, 32] (cookies.map pairText)) := by
  have hsep : lit "; " = [59, 32] := by decide
  have htexts : mkCookies cookies = .ok (cookies.map pairText) := by
    induction cookies with
    | nil => rfl
    | cons p cookies ih =>
      obtain ⟨hp, hps⟩ := List.forall_mem_cons.1 h
      rw [mkCookies, mkCookie_eq hp, Result.ok_bind, ih hps]
      rfl
  rw [cookieHeader, htexts, Result.ok_bind, hsep]
  rfl

theorem shortKeys_of_header {cookies : CookieList} {text : Bytes}
    (hmoderate : ∀ p ∈ cookies, (urlEncode p.1).length+1 < 2^32-1)
    (h : cookieHeader cookies = .ok text) : ∀ p ∈ cookies, ShortKey p.1 := by
  obtain ⟨texts, htexts, -⟩ := Result.bind_eq_ok h
  clear h
  induction cookies generalizing texts with
  | nil => exact List.forall_mem_nil _
  | cons p cookies ih =>
    obtain ⟨hp, hps⟩ := List.forall_mem_cons.1 hmoderate
    rw [mkCookies] at htexts
    obtain ⟨first, hfirst, hrest⟩ := Result.bind_eq_ok htexts
    obtain ⟨others, hothers, -⟩ := Result.bind_eq_ok hrest
    exact List.forall_mem_cons.2 ⟨shortKey_of_mkCookie hp hfirst, ih hps others hothers⟩

end writing

section reading

/-- What ends a cookie in the header. -/
def Ends (rest : Bytes) : Prop := rest = [] ∨ ∃ next, rest = [59, 32] ++ next

/-- One turn reads one cookie, behind a blank or not. -/
theorem parseCookieLoop_turn (fuel : Nat) (p : Bytes × Bytes) {blanks rest : Bytes}
    (hblanks : ∀ c ∈ blanks, c = 32) (hrest : Ends rest) :
    parseCookieLoop (fuel+1) (blanks ++ (pairText p ++ rest)) = (do
      let cookies ← parseCookieLoop fuel rest.tail
      return p :: cookies) := by
  have htext : blanks ++ (pairText p ++ rest) =
      (blanks ++ urlEncode p.1) ++ 61 :: (urlEncode p.2 ++ rest) := by
    simp [pairText]
  have hne : ∀ (str : Bytes) (c d : UInt8), isKept d = false → d ≠ 37 → c ∈ urlEncode str → c ≠ d := by
    rintro str c d hkept hd hc rfl
    exact not_mem_urlEncode str hkept hd hc
  have hkey : ((blanks ++ urlEncode p.1) ++ 61 :: (urlEncode p.2 ++ rest)).takeWhile
      (fun c => decide (c ≠ 61)) = blanks ++ urlEncode p.1 := by
    rw [List.takeWhile_append_of_pos]
    · simp
    · intro c hc
      rw [decide_eq_true_eq]
      rcases List.mem_append.1 hc with hc | hc
      · rw [hblanks c hc]
        decide
      · exact hne _ _ _ (by decide) (by decide) hc
  have hvalue : (urlEncode p.2 ++ rest).takeWhile (fun c => decide (c ≠ 59)) = urlEncode p.2 := by
    rw [List.takeWhile_append_of_pos]
    · rcases hrest with rfl | ⟨next, rfl⟩ <;> simp
    · intro c hc
      rw [decide_eq_true_eq]
      exact hne _ _ _ (by decide) (by decide) hc
  have hdrop : (blanks ++ urlEncode p.1).dropWhile (fun c => decide (c = 32)) = urlEncode p.1 := by
    rw [List.dropWhile_append_of_pos (by simpa using hblanks)]
    cases hcase : urlEncode p.1 with
    | nil => rfl
    | cons c str =>
      have hc : c ≠ 32 := hne p.1 c 32 (by decide) (by decide) (hcase ▸ List.mem_cons_self)
      rw [List.dropWhile_cons_of_neg (by simpa using hc)]
  rw [htext, parseCookieLoop, if_neg (by simp)]
  simp only [hkey, List.drop_left, List.tail_cons, hvalue, hdrop, urlDecode_urlEncode,
    Result.ok_bind]

theorem parseCookieLoop_eq {cookies : CookieList} {fuel : Nat} {blanks : Bytes}
    (hblanks : ∀ c ∈ blanks, c = 32) (hne : cookies ≠ []) (hfuel : cookies.length < fuel) :
    parseCookieLoop fuel (blanks ++ List.intercalate [59, 32] (cookies.map pairText)) =
      .ok cookies := by
  induction cookies generalizing fuel blanks with
  | nil => exact absurd rfl hne
  | cons p cookies ih =>
    rw [List.length_cons] at hfuel
    obtain ⟨fuel, rfl⟩ : ∃ k, fuel = k+1 := Nat.exists_eq_add_one.2 (by omega)
    cases cookies with
    | nil =>
      obtain ⟨fuel, rfl⟩ : ∃ k, fuel = k+1 := Nat.exists_eq_add_one.2 (by simpa using hfuel)
      have hturn := parseCookieLoop_turn (fuel+1) p hblanks (.inl rfl)
      rw [List.append_nil] at hturn
      rw [List.map_singleton, List.intercalate_singleton, hturn, List.tail_nil, parseCookieLoop,
        if_pos rfl]
      rfl
    | cons q cookies =>
      have hblank : ∀ c ∈ [32], c = (32 : UInt8) := fun c hc => List.mem_singleton.1 hc
      have hnext := ih hblank (List.cons_ne_nil q cookies) (Nat.lt_of_succ_lt_succ hfuel)
      rw [List.map_cons, List.map_cons, List.intercalate_cons_cons, List.append_assoc,
        parseCookieLoop_turn fuel p hblanks (.inr ⟨_, rfl⟩), ← List.map_cons, List.cons_append,
        List.tail_cons, hnext]
      rfl

theorem length_le_intercalate (cookies : CookieList) :
    cookies.length ≤ (List.intercalate [59, 32] (cookies.map pairText)).length := by
  have hpos : ∀ p : Bytes × Bytes, 1 ≤ (pairText p).length := fun p => by
    simp [pairText]
    omega
  induction cookies with
  | nil => exact Nat.zero_le _
  | cons p cookies ih =>
    have hp := hpos p
    cases cookies with
    | nil =>
      rw [List.map_singleton, List.intercalate_singleton]
      exact hp
    | cons q cookies =>
      rw [List.map_cons, List.map_cons, List.intercalate_cons_cons, ← List.map_cons, List.length_cons,
        List.length_append, List.length_append]
      omega

end reading

/-- Cookies are read back as long as the ends of their keys are `int`s, and, as far as the positions of
keys are below 2^32, only then. -/
theorem cookies_read_back_iff {cookies : CookieList} (hne : cookies ≠ []) :
    ((∀ p ∈ cookies, ShortKey p.1) → RoundTrips cookies) ∧
      ((∀ p ∈ cookies, (urlEncode p.1).length+1 < 2^32-1) → RoundTrips cookies →
        ∀ p ∈ cookies, ShortKey p.1) := by
  constructor
  · intro hshort
    have hfuel := Nat.lt_succ_of_le (length_le_intercalate cookies)
    exact ⟨_, cookieHeader_eq hshort, parseCookieLoop_eq (List.forall_mem_nil _) hne hfuel⟩
  · rintro hmoderate ⟨text, htext, -⟩
    exact shortKeys_of_header hmoderate htext

theorem cookies_read_back_two : RoundTrips [([], lit "a;"), (lit "_u", [])] :=
  (cookies_read_back_iff (by decide)).1 (by unfold ShortKey; decide)

/-- A cookie with a key of 2^31-1 letters cannot be written. -/
theorem long_cookie_raises : ¬∀ cookies : CookieList, cookies ≠ [] → RoundTrips cookies := by
  intro hall
  have hlong : ∀ n, 2^31 ≤ n+1 → n+1 < 2^32-1 → False := by
    intro n hlo hhi
    have hmoderate : ∀ p ∈ [(List.replicate n (97 : UInt8), ([] : Bytes))],
        (urlEncode p.1).length+1 < 2^32-1 := by
      intro p hp
      rw [List.mem_singleton.1 hp, length_urlEncode_replicate]
      exact hhi
    have hshort := (cookies_read_back_iff (List.cons_ne_nil _ _)).2 hmoderate
      (hall _ (List.cons_ne_nil _ _)) _ (List.mem_singleton_self _)
    rw [ShortKey, length_urlEncode_replicate] at hshort
    omega
  exact hlong (2^31-1) (by decide) (by decide)

end Stx.Http.Cookies
