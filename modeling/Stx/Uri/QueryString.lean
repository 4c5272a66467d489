import Stx.Uri.PercentCoding
import Stx.Uri.Components

/-! Parameters that are written as a query string, and read from it. -/
namespace Stx.URI
open StringUtil

/-- Parameters behind another one. -/
def tailText (params : ParamList) : Bytes := params.flatMap fun p => 38 :: pairText p

def queryText : ParamList → Bytes
  | [] => []
  | p :: params => pairText p ++ tailText params

/-- What was written of the parameters is read as the parameters. -/
def RoundTrips (params : ParamList) : Prop :=
  ∃ text, buildQueryString params = .ok text ∧ parseQueryString text [] = (.ok (), params)

/-- The index of the parameters and the positions in their texts are of type `int`. -/
def Fits (params : ParamList) : Prop := params.length ≤ 2^31 ∧ ∀ p ∈ params, ShortKey p.1

/-- A vector in memory, of keys whose positions are below 2^32. -/
def Moderate (params : ParamList) : Prop :=
  params.length < 2^63 ∧ ∀ p ∈ params, (urlEncode p.1).length+1 < 2^32-1

section building

/-- The text of the parameters from the index `i` on. -/
def textFrom (i : Nat) (params : ParamList) : Bytes :=
  if i = 0 then queryText params else tailText params

theorem textFrom_cons (i : Nat) (p : Bytes × Bytes) (params : ParamList) (out : Bytes) :
    (if 0 < (i : Int) then out ++ [38] else out) ++ pairText p ++ textFrom (i+1) params =
      out ++ textFrom i (p :: params) := by
  cases i with
  | zero => simp [textFrom, queryText]
  | succ i =>
    have hpos : (0 : Int) < ((i+1 : Nat) : Int) := by omega
    rw [if_pos hpos]
    simp [textFrom, tailText]

section loop
variable {size i : Nat} {params : ParamList} (out : Bytes) (hsize : i+params.length = size)
  (hlt : size < 2^63) (hi : i ≤ 2^31)

include hsize hlt hi

/-- The loop goes on up to the 2^31st parameter. -/
theorem buildQueryLoop_eq (hshort : ∀ p ∈ params.take (2^31-i), ShortKey p.1) :
    buildQueryLoop size (toInt i) params out =
      .ok (out ++ textFrom i (params.take (2^31-i))) := by
  induction params generalizing i out with
  | nil => simp [buildQueryLoop, textFrom, queryText, tailText]
  | cons p params ih =>
    rw [List.length_cons] at hsize
    rw [buildQueryLoop]
    by_cases hend : i = 2^31
    · have hneg : ¬(toInt i % 2^64).toNat < size := by
        rw [hend, toInt]
        omega
      rw [if_neg hneg, hend, Nat.sub_self, List.take_zero]
      simp [textFrom, tailText]
    · have hint : toInt i = i := toInt_of_lt (by omega)
      have htake : 2^31-i = 2^31-(i+1)+1 := by omega
      have hnext : toInt ((i : Int)+1) = toInt ((i+1 : Nat) : Int) := by push_cast; rfl
      rw [htake, List.take_succ_cons] at hshort
      obtain ⟨hp, hps⟩ := List.forall_mem_cons.1 hshort
      rw [hint, if_pos (by omega), formatInt_pair_eq hp, Result.ok_bind, hnext,
        ih _ (by omega) (by omega) hps, htake, List.take_succ_cons, textFrom_cons]

theorem shortKeys_of_build {text : Bytes}
    (hmoderate : ∀ p ∈ params, (urlEncode p.1).length+1 < 2^32-1)
    (h : buildQueryLoop size (toInt i) params out = .ok text) :
    ∀ p ∈ params.take (2^31-i), ShortKey p.1 := by
  induction params generalizing i out with
  | nil => simp
  | cons p params ih =>
    obtain ⟨hp, hps⟩ := List.forall_mem_cons.1 hmoderate
    rw [List.length_cons] at hsize
    rw [buildQueryLoop] at h
    by_cases hend : i = 2^31
    · rw [hend, Nat.sub_self, List.take_zero]
      exact List.forall_mem_nil _
    · have hint : toInt i = i := toInt_of_lt (by omega)
      have htake : 2^31-i = 2^31-(i+1)+1 := by omega
      have hnext : toInt ((i : Int)+1) = toInt ((i+1 : Nat) : Int) := by push_cast; rfl
      rw [hint, if_pos (by omega), hnext] at h
      obtain ⟨param, hparam, hrest⟩ := Result.bind_eq_ok h
      rw [htake, List.take_succ_cons]
      exact List.forall_mem_cons.2 ⟨shortKey_of_formatInt hp hparam,
        ih _ (by omega) (by omega) hps hrest⟩

end loop
end building

section reading

theorem isPart_of_mem {str : Bytes} {c : UInt8} (h : c ∈ urlEncode str) : isPart c = true := by
  have hne : ∀ d : UInt8, isKept d = false → d ≠ 37 → c ≠ d := by
    rintro d hkept hd rfl
    exact not_mem_urlEncode str hkept hd h
  simp [isPart, hne 61 (by decide) (by decide), hne 38 (by decide) (by decide)]

theorem decodeValue_urlEncode (value : Bytes) : decodeValue (urlEncode value) = .ok value := by
  rw [decodeValue]
  split
  · next hnil =>
    have hempty : value = [] := by
      by_contra hne
      exact urlEncode_ne_nil hne hnil
    rw [hempty]
  · exact urlDecode_urlEncode value

/-- One turn reads one parameter, with an empty value or not. -/
theorem parseQueryLoop_param {fuel : Nat} {key value rest : Bytes} {p : Bytes × Bytes}
    (hne : key ≠ []) (hkey : ∀ c ∈ key, isPart c = true) (hvalue : ∀ c ∈ value, isPart c = true)
    (hrest : ∀ c ∈ rest.head?, isPart c = false) (hdecode : urlDecode key = .ok p.1)
    (hdecode' : decodeValue value = .ok p.2) (read : ParamList) :
    parseQueryLoop (fuel+1) (key ++ 61 :: (value ++ rest)) read =
      (match rest with
        | _ :: next => parseQueryLoop fuel next
        | [] => pure ()) (read ++ [p]) := by
  have hfirst : (key ++ 61 :: (value ++ rest)).takeWhile isPart = key :=
    takeWhile_append_eq hkey fun c hc => by
      cases hc
      rfl
  rw [parseQueryLoop]
  simp only [hfirst, List.drop_left, if_neg hne, takeWhile_append_eq hvalue hrest, hdecode,
    hdecode']
  cases rest <;> rfl

theorem parseQueryLoop_turn {fuel : Nat} {p : Bytes × Bytes} (hkey : p.1 ≠ []) {rest : Bytes}
    (hrest : ∀ c ∈ rest.head?, isPart c = false) (read : ParamList) :
    parseQueryLoop (fuel+1) (pairText p ++ rest) read =
      (match rest with
        | _ :: next => parseQueryLoop fuel next
        | [] => pure ()) (read ++ [p]) := by
  have htext : pairText p ++ rest = urlEncode p.1 ++ 61 :: (urlEncode p.2 ++ rest) := by
    simp [pairText]
  rw [htext]
  exact parseQueryLoop_param (urlEncode_ne_nil hkey) (fun c => isPart_of_mem)
    (fun c => isPart_of_mem) hrest (urlDecode_urlEncode p.1) (decodeValue_urlEncode p.2) read

/-- Parameters with keys are read in order, behind those that were read before. -/
theorem parseQueryLoop_eq {params : ParamList} (hkeys : ∀ p ∈ params, p.1 ≠ []) {fuel : Nat}
    (hfuel : params.length < fuel) (read : ParamList) :
    parseQueryLoop fuel (queryText params) read = (.ok (), read ++ params) := by
  induction params generalizing fuel read with
  | nil =>
    obtain ⟨fuel, rfl⟩ := Nat.exists_eq_add_one.2 hfuel
    simp [queryText, parseQueryLoop]
  | cons p params ih =>
    rw [List.length_cons] at hfuel
    obtain ⟨fuel, rfl⟩ : ∃ k, fuel = k+1 := Nat.exists_eq_add_one.2 (by omega)
    obtain ⟨hp, hps⟩ := List.forall_mem_cons.1 hkeys
    cases params with
    | nil =>
      rw [queryText, tailText, List.flatMap_nil, parseQueryLoop_turn hp (by simp)]
      rfl
    | cons q params =>
      have hnext : tailText (q :: params) = 38 :: queryText (q :: params) := by
        simp [tailText, queryText]
      rw [queryText, hnext, parseQueryLoop_turn hp (by simp; decide)]
      simp only
      rw [ih hps (by omega)]
      simp

theorem length_le_queryText (params : ParamList) : params.length ≤ (queryText params).length := by
  have htail : ∀ params : ParamList, params.length ≤ (tailText params).length := by
    intro params
    induction params with
    | nil => exact Nat.zero_le _
    | cons p params ih =>
      have hcons : tailText (p :: params) = 38 :: pairText p ++ tailText params := by
        simp [tailText]
      rw [hcons, List.length_append, List.length_cons, List.length_cons]
      omega
  cases params with
  | nil => exact Nat.zero_le _
  | cons p params =>
    have hpair : 1 ≤ (pairText p).length := by simp [pairText]; omega
    rw [queryText, List.length_append, List.length_cons]
    have hrest := htail params
    omega

theorem parseQueryString_eq {params : ParamList} (hkeys : ∀ p ∈ params, p.1 ≠ []) :
    parseQueryString (queryText params) [] = (.ok (), params) :=
  parseQueryLoop_eq hkeys (Nat.lt_succ_of_le (length_le_queryText params)) []

end reading

/-- Parameters with keys are read back as long as their index and the ends of their keys are `int`s,
and, as far as the positions of keys are below 2^32, only then. -/
theorem params_read_back_iff {params : ParamList} (hkeys : ∀ p ∈ params, p.1 ≠ []) :
    (∀ str, urlDecode (urlEncode str) = .ok str) ∧ (Fits params → RoundTrips params) ∧
      (Moderate params → RoundTrips params → Fits params) := by
  have hbuild : ∀ {text}, buildQueryString params = .ok text →
      buildQueryLoop params.length (toInt (0 : Nat)) params [] = .ok text := fun h => h
  refine ⟨urlDecode_urlEncode, fun hfits => ?_, fun hmoderate htrip => ?_⟩
  · have htake : params.take (2^31-0) = params := List.take_of_length_le hfits.1
    have htext : buildQueryString params = .ok (queryText params) := by
      have hloop := buildQueryLoop_eq (i := 0) [] (Nat.zero_add params.length)
        (Nat.lt_of_le_of_lt hfits.1 (by decide)) (Nat.zero_le _) (by rw [htake]; exact hfits.2)
      rw [htake] at hloop
      exact hloop
    exact ⟨_, htext, parseQueryString_eq hkeys⟩
  · obtain ⟨text, htext, hparse⟩ := htrip
    have hshort := shortKeys_of_build (i := 0) [] (Nat.zero_add params.length) hmoderate.1
      (Nat.zero_le _) hmoderate.2 (hbuild htext)
    have hloop := buildQueryLoop_eq (i := 0) [] (Nat.zero_add params.length) hmoderate.1
      (Nat.zero_le _) hshort
    rw [hbuild htext] at hloop
    cases hloop
    -- only the first 2^31 parameters were written, and they are what is read
    have htaken : parseQueryString (queryText (params.take (2^31-0))) [] =
        (.ok (), params.take (2^31-0)) :=
      parseQueryString_eq fun p hp => hkeys p (List.mem_of_mem_take hp)
    have hall : params.take (2^31-0) = params := (Prod.mk.inj (htaken.symm.trans hparse)).2
    have hlen := congrArg List.length hall
    rw [List.length_take] at hlen
    rw [hall] at hshort
    exact ⟨by omega, hshort⟩

theorem params_read_back_two : RoundTrips [(lit "a b", []), (lit "a b", lit "&=")] :=
  (params_read_back_iff (by decide)).2.1 (by unfold Fits ShortKey; decide)

/-- A key of 2^31-1 letters cannot be written. -/
theorem long_key_raises : ¬∀ params : ParamList, (∀ p ∈ params, p.1 ≠ []) → RoundTrips params := by
  intro hall
  have hlong : ∀ n, 2^31 ≤ n+1 → n+1 < 2^32-1 → False := by
    intro n hlo hhi
    have hkeys : ∀ p ∈ [(List.replicate n (97 : UInt8), ([] : Bytes))], p.1 ≠ [] := by
      intro p hp hnil
      rw [List.mem_singleton.1 hp, List.replicate_eq_nil_iff] at hnil
      omega
    have hmoderate : Moderate [(List.replicate n 97, [])] := by
      refine ⟨Nat.one_lt_two_pow (by decide), fun p hp => ?_⟩
      rw [List.mem_singleton.1 hp, length_urlEncode_replicate]
      exact hhi
    have hfits := (params_read_back_iff hkeys).2.2 hmoderate (hall _ hkeys)
    have hshort := hfits.2 _ (List.mem_singleton_self _)
    rw [ShortKey, length_urlEncode_replicate] at hshort
    omega
  exact hlong (2^31-1) (by decide) (by decide)

end Stx.URI
