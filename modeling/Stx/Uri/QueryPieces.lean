import Stx.Uri.QueryString

/-! What is read of a query string that is put together of two. The reader stops at the first piece
that is not a key with an equals sign behind it. -/
namespace Stx.URI

/-- What stands between the separators is decoded without an error. -/
def Accepted (query : Bytes) : Prop :=
  ∀ piece ∈ query.splitOnP fun c => !isPart c, ∃ text, urlDecode piece = .ok text

def IsPiece (text : Bytes) : Prop := ∀ c ∈ text, isPart c = true

/-- The text begins with a key and an equals sign. -/
def LeadsWithKey (query : Bytes) : Prop :=
  ∃ key behind, query = key ++ 61 :: behind ∧ key ≠ [] ∧ IsPiece key

/-- The text is one parameter behind the other, and the value of the last one goes up to its end. An
equals sign behind a value separates as `&` does. -/
inductive EndsInValue : Bytes → Prop
  | last {key value : Bytes} (hne : key ≠ []) (hkey : IsPiece key) (hvalue : IsPiece value) :
      EndsInValue (key ++ 61 :: value)
  | more {key value rest : Bytes} {c : UInt8} (hne : key ≠ []) (hkey : IsPiece key)
      (hvalue : IsPiece value) (hc : isPart c = false) (hrest : EndsInValue rest) :
      EndsInValue (key ++ 61 :: (value ++ c :: rest))

/-- The parameters that are read of a text. -/
inductive Reads : Bytes → ParamList → Prop
  | stop {query : Bytes} (h : ¬LeadsWithKey query) : Reads query []
  | last {key value : Bytes} {p : Bytes × Bytes} (hne : key ≠ []) (hkey : IsPiece key)
      (hvalue : IsPiece value) (hdecode : urlDecode key = .ok p.1)
      (hdecode' : decodeValue value = .ok p.2) : Reads (key ++ 61 :: value) [p]
  | more {key value rest : Bytes} {c : UInt8} {p : Bytes × Bytes} {params : ParamList}
      (hne : key ≠ []) (hkey : IsPiece key) (hvalue : IsPiece value) (hc : isPart c = false)
      (hdecode : urlDecode key = .ok p.1) (hdecode' : decodeValue value = .ok p.2)
      (hrest : Reads rest params) : Reads (key ++ 61 :: (value ++ c :: rest)) (p :: params)

theorem parseQueryLoop_stop {query : Bytes} (h : ¬LeadsWithKey query) (fuel : Nat)
    (read : ParamList) : parseQueryLoop (fuel+1) query read = (.ok (), read) := by
  have hpure : parseQueryLoop (fuel+1) query = pure () := by
    rw [parseQueryLoop]
    split
    · next behind hdrop =>
      refine if_pos (by_contra fun hnil => h ⟨query.takeWhile isPart, behind, ?_, hnil, ?_⟩)
      · rw [← hdrop, drop_length_takeWhile, List.takeWhile_append_dropWhile]
      · exact fun c => of_mem_takeWhile
    · rfl
  rw [hpure]
  rfl

/-- The loop reads them, whatever it has read before. -/
theorem Reads.run {query : Bytes} {params : ParamList} (h : Reads query params) :
    ∀ {fuel : Nat}, query.length < fuel → ∀ read,
      parseQueryLoop fuel query read = (.ok (), read ++ params) := by
  induction h with
  | stop h =>
    intro fuel hfuel read
    obtain ⟨fuel, rfl⟩ := Nat.exists_eq_add_one.2 (Nat.zero_lt_of_lt hfuel)
    rw [parseQueryLoop_stop h, List.append_nil]
  | @last key value p hne hkey hvalue hdecode hdecode' =>
    intro fuel hfuel read
    obtain ⟨fuel, rfl⟩ := Nat.exists_eq_add_one.2 (Nat.zero_lt_of_lt hfuel)
    have hturn := @parseQueryLoop_param fuel key value [] p hne hkey hvalue
      (fun c hc => by cases hc) hdecode hdecode' read
    rw [List.append_nil] at hturn
    exact hturn
  | @more key value rest c p params hne hkey hvalue hc hdecode hdecode' hrest ih =>
    intro fuel hfuel read
    obtain ⟨fuel, rfl⟩ := Nat.exists_eq_add_one.2 (Nat.zero_lt_of_lt hfuel)
    have hturn := @parseQueryLoop_param fuel key value (c :: rest) p hne hkey hvalue
      (fun d hd => by cases hd; exact hc) hdecode hdecode' read
    have hlen : rest.length < fuel := by
      simp only [List.length_append, List.length_cons] at hfuel
      omega
    rw [hturn]
    simp only
    rw [ih hlen, List.append_assoc]
    rfl

theorem Reads.eq_of_run {query : Bytes} {params params' : ParamList} (h : Reads query params)
    (hrun : parseQueryString query [] = (.ok (), params')) : params' = params := by
  rw [parseQueryString, h.run (Nat.lt_succ_self _)] at hrun
  exact (congrArg Prod.snd hrun).symm

/-- A text with a key and an equals sign in front of it has a value up to a separator or to its end. -/
theorem LeadsWithKey.value {query : Bytes} (h : LeadsWithKey query) :
    ∃ key value, key ≠ [] ∧ IsPiece key ∧ IsPiece value ∧
      (query = key ++ 61 :: value ∨
        ∃ c rest, isPart c = false ∧ query = key ++ 61 :: (value ++ c :: rest)) := by
  obtain ⟨key, behind, rfl, hne, hkey⟩ := h
  refine ⟨key, behind.takeWhile isPart, hne, hkey, fun c => of_mem_takeWhile, ?_⟩
  have hsplit := (List.takeWhile_append_dropWhile (p := isPart) (l := behind)).symm
  cases hdrop : behind.dropWhile isPart with
  | nil =>
    rw [hdrop, List.append_nil] at hsplit
    exact .inl (by rw [← hsplit])
  | cons c rest =>
    rw [hdrop] at hsplit
    have hhead := head?_dropWhile (p := isPart) (l := behind) c (by rw [hdrop]; rfl)
    exact .inr ⟨c, rest, hhead, by rw [← hsplit]⟩

theorem exists_decodeValue {value : Bytes} (h : ∃ text, urlDecode value = .ok text) :
    ∃ text, decodeValue value = .ok text := by
  rw [decodeValue]
  split
  · exact ⟨[], rfl⟩
  · exact h

/-- An accepted text is cut at every separator into accepted ones. -/
theorem Accepted.cut {a b : Bytes} {c : UInt8} (hc : isPart c = false)
    (h : Accepted (a ++ c :: b)) : Accepted a ∧ Accepted b := by
  have hsplit : (a ++ c :: b).splitOnP (fun c => !isPart c) =
      a.splitOnP (fun c => !isPart c) ++ b.splitOnP (fun c => !isPart c) :=
    List.splitOnP_append_cons _ _ (by rw [hc]; rfl)
  rw [Accepted, hsplit] at h
  exact List.forall_mem_append.1 h

theorem Accepted.piece {text : Bytes} (htext : IsPiece text) (h : Accepted text) :
    ∃ decoded, urlDecode text = .ok decoded := by
  refine h text ?_
  rw [List.splitOnP_eq_singleton fun c hc => by rw [htext c hc]; rfl]
  exact List.mem_singleton_self text

theorem Accepted.exists_reads {query : Bytes} (h : Accepted query) : ∃ params, Reads query params := by
  by_cases hleads : LeadsWithKey query
  swap
  · exact ⟨[], .stop hleads⟩
  obtain ⟨key, value, hne, hkey, hvalue, hquery | ⟨c, rest, hc, hquery⟩⟩ := hleads.value
  · obtain ⟨haccepted, haccepted'⟩ := Accepted.cut (c := 61) rfl (hquery ▸ h)
    obtain ⟨k, hdecode⟩ := haccepted.piece hkey
    obtain ⟨v, hdecode'⟩ := exists_decodeValue (haccepted'.piece hvalue)
    rw [hquery]
    exact ⟨[(k, v)], .last hne hkey hvalue hdecode hdecode'⟩
  · obtain ⟨haccepted, hbehind⟩ := Accepted.cut (c := 61) rfl (hquery ▸ h)
    obtain ⟨haccepted', hrest⟩ := hbehind.cut hc
    obtain ⟨k, hdecode⟩ := haccepted.piece hkey
    obtain ⟨v, hdecode'⟩ := exists_decodeValue (haccepted'.piece hvalue)
    have hlen : rest.length < query.length := by
      rw [hquery]
      simp only [List.length_append, List.length_cons]
      omega
    obtain ⟨params, hreads⟩ := Accepted.exists_reads hrest
    rw [hquery]
    exact ⟨(k, v) :: params, .more hne hkey hvalue hc hdecode hdecode' hreads⟩
termination_by query.length

/- A text behind another one. -/

/-- What is behind an ampersand makes no key of what is in front of it. -/
theorem LeadsWithKey.of_append {a b : Bytes} (h : LeadsWithKey (a ++ 38 :: b)) :
    LeadsWithKey a := by
  obtain ⟨key, behind, heq, hne, hkey⟩ := h
  obtain ⟨t, rfl, ht⟩ | ⟨t, rfl, ht⟩ := List.append_eq_append_iff.1 heq
  · cases t with
    | nil => cases ht
    | cons c t =>
      cases ht
      have hamp := hkey 38 (List.mem_append_right _ List.mem_cons_self)
      cases hamp
  · cases t with
    | nil => cases ht
    | cons c t =>
      cases ht
      exact ⟨key, t, rfl, hne, hkey⟩

/-- Behind a value the reader goes on. -/
theorem EndsInValue.reads_append {a : Bytes} (h : EndsInValue a) (haccepted : Accepted a) :
    ∃ params, Reads a params ∧
      ∀ b params', Reads b params' → Reads (a ++ 38 :: b) (params ++ params') := by
  induction h with
  | @last key value hne hkey hvalue =>
    obtain ⟨haccepted, haccepted'⟩ := Accepted.cut (c := 61) rfl haccepted
    obtain ⟨k, hdecode⟩ := haccepted.piece hkey
    obtain ⟨v, hdecode'⟩ := exists_decodeValue (haccepted'.piece hvalue)
    refine ⟨[(k, v)], .last hne hkey hvalue hdecode hdecode', fun b params' hb => ?_⟩
    have happend : key ++ 61 :: value ++ 38 :: b = key ++ 61 :: (value ++ 38 :: b) := by simp
    rw [happend]
    exact .more hne hkey hvalue rfl hdecode hdecode' hb
  | @more key value rest c hne hkey hvalue hc hrest ih =>
    obtain ⟨haccepted, hbehind⟩ := Accepted.cut (c := 61) rfl haccepted
    obtain ⟨haccepted', hrest⟩ := hbehind.cut hc
    obtain ⟨k, hdecode⟩ := haccepted.piece hkey
    obtain ⟨v, hdecode'⟩ := exists_decodeValue (haccepted'.piece hvalue)
    obtain ⟨params, hreads, happends⟩ := ih hrest
    refine ⟨(k, v) :: params, .more hne hkey hvalue hc hdecode hdecode' hreads,
      fun b params' hb => ?_⟩
    have happend : key ++ 61 :: (value ++ c :: rest) ++ 38 :: b =
        key ++ 61 :: (value ++ c :: (rest ++ 38 :: b)) := by simp
    rw [happend]
    exact .more hne hkey hvalue hc hdecode hdecode' (happends b params' hb)

theorem Reads.append_of_not_ends {a : Bytes} {params : ParamList} (ha : Reads a params)
    (h : ¬EndsInValue a) (b : Bytes) : Reads (a ++ 38 :: b) params := by
  induction ha with
  | stop hleads => exact .stop fun h => hleads h.of_append
  | last hne hkey hvalue _ _ => exact absurd (.last hne hkey hvalue) h
  | @more key value rest c p params hne hkey hvalue hc hdecode hdecode' hrest ih =>
    have happend : key ++ 61 :: (value ++ c :: rest) ++ 38 :: b =
        key ++ 61 :: (value ++ c :: (rest ++ 38 :: b)) := by simp
    rw [happend]
    exact .more hne hkey hvalue hc hdecode hdecode' (ih fun hends => h (.more hne hkey hvalue hc hends))

theorem Accepted.append {a b : Bytes} (ha : Accepted a) (hb : Accepted b) :
    Accepted (a ++ 38 :: b) := by
  have hsplit : (a ++ 38 :: b).splitOnP (fun c => !isPart c) =
      a.splitOnP (fun c => !isPart c) ++ b.splitOnP (fun c => !isPart c) :=
    List.splitOnP_append_cons _ _ rfl
  rw [Accepted, hsplit]
  exact List.forall_mem_append.2 ⟨ha, hb⟩

/-- The parameters of two texts that are joined are those of the one and those of the other. -/
def Composes (a b : Bytes) : Prop :=
  ∃ params params', parseQueryString a [] = (.ok (), params) ∧
    parseQueryString b [] = (.ok (), params') ∧
    parseQueryString (a ++ 38 :: b) [] = (.ok (), params ++ params')

/-- That is so if the first text ends in a value, or the second has no parameter in front. -/
theorem composes_iff (a b : Bytes) (ha : Accepted a) (hb : Accepted b) :
    Composes a b ↔ EndsInValue a ∨ ¬LeadsWithKey b := by
  obtain ⟨params', hreads'⟩ := hb.exists_reads
  have hrun' := hreads'.run (Nat.lt_succ_self _) []
  constructor
  · rintro ⟨p, p', hp, hp', hjoin⟩
    by_contra hnot
    rw [not_or, not_not] at hnot
    obtain ⟨params, hreads⟩ := ha.exists_reads
    -- the parameters of `a` are all that is read of both
    have hall := (hreads.append_of_not_ends hnot.1 b).eq_of_run hjoin
    rw [hreads.eq_of_run hp, hreads'.eq_of_run hp'] at hall
    have hnil : params' = [] := List.append_right_eq_self.1 hall
    rw [hnil] at hreads'
    cases hreads' with
    | stop h => exact h hnot.2
  · intro h
    by_cases hends : EndsInValue a
    · obtain ⟨params, hreads, happends⟩ := hends.reads_append ha
      exact ⟨params, params', hreads.run (Nat.lt_succ_self _) [], hrun',
        (happends b params' hreads').run (Nat.lt_succ_self _) []⟩
    · obtain ⟨params, hreads⟩ := ha.exists_reads
      have hstop := h.resolve_left hends
      refine ⟨params, [], hreads.run (Nat.lt_succ_self _) [],
        (Reads.stop hstop).run (Nat.lt_succ_self _) [], ?_⟩
      rw [List.append_nil]
      exact (hreads.append_of_not_ends hends b).run (Nat.lt_succ_self _) []

theorem urlDecode_plain {text : Bytes} (h : 37 ∉ text) : ∃ decoded, urlDecode text = .ok decoded := by
  induction text with
  | nil => exact ⟨[], rfl⟩
  | cons c text ih =>
    obtain ⟨hc, htext⟩ := List.mem_cons.not.1 h |> not_or.1
    obtain ⟨decoded, hdecode⟩ := ih htext
    rw [urlDecode_cons (Ne.symm hc), hdecode]
    exact ⟨_, rfl⟩

/-- The pieces of a text are made of its characters. -/
theorem mem_of_mem_piece {p : UInt8 → Bool} {text piece : Bytes} {c : UInt8}
    (h : piece ∈ text.splitOnP p) (hc : c ∈ piece) : c ∈ text := by
  induction text generalizing piece with
  | nil =>
    rw [List.splitOnP_nil, List.mem_singleton] at h
    rwa [h] at hc
  | cons d text ih =>
    rw [List.splitOnP_cons_eq_if_modifyHead] at h
    split at h
    · obtain rfl | hmem := List.mem_cons.1 h
      · cases hc
      · exact List.mem_cons_of_mem d (ih hmem hc)
    · cases hpieces : text.splitOnP p with
      | nil => exact absurd hpieces (List.splitOnP_ne_nil p text)
      | cons first rest =>
        rw [hpieces, List.modifyHead_cons] at h
        obtain rfl | hmem := List.mem_cons.1 h
        · obtain rfl | hc := List.mem_cons.1 hc
          · exact List.mem_cons_self
          · exact List.mem_cons_of_mem d (ih (hpieces ▸ List.mem_cons_self) hc)
        · exact List.mem_cons_of_mem d (ih (hpieces ▸ List.mem_cons_of_mem first hmem) hc)

/-- Without percent signs every text is accepted. -/
theorem accepted_of_plain {query : Bytes} (h : 37 ∉ query) : Accepted query :=
  fun _ hpiece => urlDecode_plain fun hmem => h (mem_of_mem_piece hpiece hmem)

/-- A parameter behind another one. -/
theorem composes_iff_two :
    Composes (lit "fuu=bar") (lit "blah=1") ↔
      EndsInValue (lit "fuu=bar") ∨ ¬LeadsWithKey (lit "blah=1") :=
  composes_iff (lit "fuu=bar") (lit "blah=1") (accepted_of_plain (by decide))
    (accepted_of_plain (by decide))

/-- A key without a value hides the parameter behind it. -/
theorem flag_not_composes : ¬∀ a b, Accepted a → Accepted b → Composes a b := by
  intro h
  obtain ⟨p, p', hp, hp', hjoin⟩ := h (lit "flag") (lit "a=1") (accepted_of_plain (by decide))
    (accepted_of_plain (by decide))
  have hnone : parseQueryString (lit "flag" ++ 38 :: lit "a=1") [] = (.ok (), []) := by
    decide +kernel
  have hone : parseQueryString (lit "a=1") [] = (.ok (), [(lit "a", lit "1")]) := by
    decide +kernel
  rw [hnone] at hjoin
  rw [hone] at hp'
  have hnil := (List.append_eq_nil_iff.1 (congrArg Prod.snd hjoin).symm).2
  exact absurd ((congrArg Prod.snd hp').trans hnil) (by decide)

end Stx.URI
