import Stx.Uri
import Mathlib.Data.List.TakeWhile

/-! The components of a text, and that `parseURI` finds them. -/
namespace Stx.URI

section cutting
variable {α : Type} {p : α → Bool}

theorem takeWhile_append_eq {l r : List α} (hl : ∀ a ∈ l, p a = true)
    (hr : ∀ a ∈ r.head?, p a = false) : (l ++ r).takeWhile p = l := by
  rw [List.takeWhile_append_of_pos hl]
  cases r with
  | nil => simp
  | cons a r => simp [hr a rfl]

theorem dropWhile_append_eq {l r : List α} (hl : ∀ a ∈ l, p a = true)
    (hr : ∀ a ∈ r.head?, p a = false) : (l ++ r).dropWhile p = r := by
  rw [List.dropWhile_append_of_pos hl]
  cases r with
  | nil => simp
  | cons a r => simp [hr a rfl]

theorem drop_length_takeWhile (p : α → Bool) (l : List α) :
    l.drop (l.takeWhile p).length = l.dropWhile p := by
  have happ := List.takeWhile_append_dropWhile (p := p) (l := l)
  calc
    l.drop (l.takeWhile p).length =
        (l.takeWhile p ++ l.dropWhile p).drop (l.takeWhile p).length := by rw [happ]
    _ = l.dropWhile p := List.drop_left

theorem head?_dropWhile {l : List α} : ∀ a ∈ (l.dropWhile p).head?, p a = false := by
  induction l with
  | nil => simp
  | cons b l ih =>
    cases hb : p b with
    | true => rwa [List.dropWhile_cons_of_pos hb]
    | false =>
      rw [List.dropWhile_cons_of_neg (by simp [hb])]
      intro a ha
      cases ha
      exact hb

theorem takeWhile_congr {q : α → Bool} {l : List α} (h : ∀ a ∈ l, p a = q a) :
    l.takeWhile p = l.takeWhile q := by
  induction l with
  | nil => rfl
  | cons a l ih =>
    obtain ⟨ha, hl⟩ := List.forall_mem_cons.1 h
    rw [List.takeWhile_cons, List.takeWhile_cons, ha, ih hl]

/-- The list goes on behind the passed elements with one that stops. -/
theorem exists_dropWhile {l : List α} (h : ∃ a ∈ l, p a = false) :
    ∃ a r, l.dropWhile p = a :: r ∧ p a = false := by
  cases hdrop : l.dropWhile p with
  | nil =>
    obtain ⟨a, ha, hp⟩ := h
    rw [List.dropWhile_eq_nil_iff] at hdrop
    exact absurd ((hdrop a ha).symm.trans hp) (by simp)
  | cons a r =>
    have hhead := head?_dropWhile (p := p) (l := l) a (by rw [hdrop]; rfl)
    exact ⟨a, r, rfl, hhead⟩

theorem of_mem_takeWhile {l : List α} {a : α} (h : a ∈ l.takeWhile p) : p a = true :=
  List.mem_takeWhile_imp h

end cutting

/- The scheme goes up to a colon in front of every slash. -/

def schemeOf (s : Bytes) : Bytes :=
  match s.dropWhile inScheme with
  | 58 :: _ => s.takeWhile inScheme
  | _ => []

def hierPart (s : Bytes) : Bytes :=
  match s.dropWhile inScheme with
  | 58 :: behind => behind
  | _ => s

/- The authority goes from two slashes up to the next character that ends it. -/

/-- The authority and what follows it. -/
def cutAuthority : Bytes → Bytes × Bytes
  | 47 :: 47 :: c :: rest => ((c :: rest).takeWhile inAuthority, (c :: rest).dropWhile inAuthority)
  | rest => ([], rest)

def userinfoOf (authority : Bytes) : Bytes :=
  if 64 ∈ authority then authority.takeWhile fun c => c != 64 else []

def hostAndPortOf (authority : Bytes) : Bytes :=
  if 64 ∈ authority then (authority.dropWhile fun c => c != 64).tail else authority

def hostOf (authority : Bytes) : Bytes := (hostAndPortOf authority).takeWhile fun c => c != 58

/-- The number behind the host, which is zero where there are no digits. -/
def portOf (authority : Bytes) : Nat :=
  Libc.digitsVal (((hostAndPortOf authority).dropWhile fun c => c != 58).tail.takeWhile Libc.isdigit)

def portDigits (authority : Bytes) : Bytes :=
  ((hostAndPortOf authority).dropWhile fun c => c != 58).tail.takeWhile Libc.isdigit

/- What follows the authority. -/

def pathOf (rest : Bytes) : Bytes := rest.takeWhile inPath

def queryOf (rest : Bytes) : Bytes :=
  match rest.dropWhile inPath with
  | 63 :: behind => behind.takeWhile inQuery
  | _ => []

def fragmentOf (rest : Bytes) : Bytes := (rest.dropWhile inQuery).tail

def authorityOf (s : Bytes) : Bytes := (cutAuthority (hierPart s)).1

def restOf (s : Bytes) : Bytes := (cutAuthority (hierPart s)).2

/-- The components of the text. -/
def components (s : Bytes) : URI where
  scheme_ := schemeOf s
  userinfo_ := userinfoOf (authorityOf s)
  host_ := hostOf (authorityOf s)
  port_ := portOf (authorityOf s)
  path_ := pathOf (restOf s)
  query_ := queryOf (restOf s)
  fragment_ := fragmentOf (restOf s)

/- A component that the text does not have is left as it is. -/

def hasScheme (s : Bytes) : Bool := (s.dropWhile inScheme).head? == some 58

/-- The object, with the components of the text put into it. -/
def assign (s : Bytes) (u : URI) : URI where
  scheme_ := if hasScheme s then schemeOf s else u.scheme_
  userinfo_ := if 64 ∈ authorityOf s then userinfoOf (authorityOf s) else u.userinfo_
  host_ := if authorityOf s ≠ [] then hostOf (authorityOf s) else u.host_
  port_ := if portDigits (authorityOf s) ≠ [] then portOf (authorityOf s) else u.port_
  path_ := if pathOf (restOf s) ≠ [] then pathOf (restOf s) else u.path_
  query_ := if queryOf (restOf s) ≠ [] then queryOf (restOf s) else u.query_
  fragment_ := if fragmentOf (restOf s) ≠ [] then fragmentOf (restOf s) else u.fragment_

/- The stages. -/

section
variable (u : URI)

theorem parseScheme_eq (s : Bytes) : parseScheme s u =
    (.ok (hierPart s), { u with scheme_ := if hasScheme s then schemeOf s else u.scheme_ }) := by
  have hdrop : s.drop (s.takeWhile inScheme).length = s.dropWhile inScheme :=
    drop_length_takeWhile inScheme s
  rw [hierPart, schemeOf, hasScheme]
  split
  next behind hbehind =>
    rw [hbehind] at hdrop
    simp only [parseScheme, hdrop, hbehind]
    rfl
  next hnone =>
    have hpure : parseScheme s = pure s := by
      rw [parseScheme]
      split
      next behind hbehind => exact absurd (hdrop.symm.trans hbehind) (hnone behind)
      next => rfl
    have hhead : ((s.dropWhile inScheme).head? == some 58) = false := by
      cases hw : s.dropWhile inScheme with
      | nil => rfl
      | cons c behind =>
        refine beq_false_of_ne fun h => ?_
        obtain rfl := Option.some.inj h
        exact hnone behind hw
    rw [hpure, hhead]
    rfl

section authority
variable {authority : Bytes}

theorem dropWhile_at_cons (h : 64 ∈ authority) :
    ∃ r, authority.dropWhile (fun c => c != 64) = 64 :: r := by
  obtain ⟨a, r, hdrop, ha⟩ := exists_dropWhile (p := fun c : UInt8 => c != 64) ⟨64, h, rfl⟩
  have ha64 : a = 64 := by simpa using ha
  exact ⟨r, by rw [hdrop, ha64]⟩

theorem dropWhile_at_nil (h : 64 ∉ authority) : authority.dropWhile (fun c => c != 64) = [] := by
  rw [List.dropWhile_eq_nil_iff]
  intro c hc
  rw [bne_iff_ne]
  rintro rfl
  exact h hc

theorem parseUserinfo_eq (h : ∀ c ∈ authority, inAuthority c = true) :
    parseUserinfo authority u =
      (.ok (hostAndPortOf authority),
        { u with userinfo_ := if 64 ∈ authority then userinfoOf authority else u.userinfo_ }) := by
  have hsame : authority.takeWhile (fun c => inAuthority c && c != 64) =
      authority.takeWhile fun c => c != 64 :=
    takeWhile_congr fun c hc => by simp [h c hc]
  rw [parseUserinfo, hostAndPortOf, userinfoOf]
  simp only [hsame, drop_length_takeWhile]
  by_cases hmem : 64 ∈ authority
  · obtain ⟨r, hdrop⟩ := dropWhile_at_cons hmem
    simp only [hdrop, if_pos hmem]
    rfl
  · simp only [dropWhile_at_nil hmem, if_neg hmem]
    rfl

theorem mem_hostAndPortOf {c : UInt8} (h : c ∈ hostAndPortOf authority) : c ∈ authority := by
  rw [hostAndPortOf] at h
  split at h
  · exact List.dropWhile_suffix _ |>.subset (List.mem_of_mem_tail h)
  · exact h

/-- The digits of a port are its number, if that is an `int`. -/
theorem stoi_digits {digits : Bytes} (hne : digits ≠ []) (h : ∀ d ∈ digits, Libc.isdigit d = true) :
    Libc.stoi digits =
      if Libc.digitsVal digits < 2^31 then some (Libc.digitsVal digits : Int) else none := by
  rw [Libc.stoi, Libc.ofText_digits h]
  simp only [hne, false_or, Bool.false_eq_true, if_false]
  by_cases hlt : Libc.digitsVal digits < 2^31
  · rw [if_pos hlt, if_neg (by omega)]
  · rw [if_neg hlt, if_pos (by omega)]

/-- What is behind the host is a port, digits or not. -/
theorem parsePort_eq {rest : Bytes} (h : ∀ c ∈ rest.head?, c = 58) :
    let digits := rest.tail.takeWhile Libc.isdigit
    (Libc.digitsVal digits < 2^31 → parsePort rest u =
        (.ok (), { u with port_ := if digits ≠ [] then Libc.digitsVal digits else u.port_ })) ∧
      ((parsePort rest u).1 = .ok () → Libc.digitsVal digits < 2^31) := by
  rcases rest with _ | ⟨c, _ | ⟨d, rest⟩⟩
  · exact ⟨fun _ => rfl, fun _ => by decide⟩
  · obtain rfl := h c rfl
    exact ⟨fun _ => rfl, fun _ => by decide⟩
  · obtain rfl := h c rfl
    intro digits
    by_cases hnil : digits = []
    · have hpure : parsePort (58 :: d :: rest) = pure () := by
        rw [parsePort]
        exact if_pos hnil
      rw [hpure, if_neg (not_not.2 hnil), hnil]
      exact ⟨fun _ => rfl, fun _ => by decide⟩
    · have hstoi : Libc.stoi ((d :: rest).takeWhile Libc.isdigit) =
          if Libc.digitsVal digits < 2^31 then some (Libc.digitsVal digits : Int) else none :=
        stoi_digits hnil fun d hd => of_mem_takeWhile hd
      constructor
      · intro hlt
        rw [if_pos hlt] at hstoi
        rw [parsePort, if_pos hnil]
        change (ite (digits = []) _ _ : Sys URI Unit) u = _
        rw [if_neg hnil, hstoi]
        rfl
      · intro hok
        by_contra hlt
        rw [if_neg hlt] at hstoi
        rw [parsePort] at hok
        change ((ite (digits = []) _ _ : Sys URI Unit) u).1 = _ at hok
        rw [if_neg hnil, hstoi] at hok
        cases hok

theorem parseHostAndPort_eq (h : ∀ c ∈ authority, inAuthority c = true) :
    (portOf authority < 2^31 → parseHostAndPort (hostAndPortOf authority) u =
      (.ok (), { u with
        host_ := hostOf authority
        port_ := if portDigits authority ≠ [] then portOf authority else u.port_ })) ∧
    ((parseHostAndPort (hostAndPortOf authority) u).1 = .ok () → portOf authority < 2^31) := by
  have hsame : (hostAndPortOf authority).takeWhile (fun c => inAuthority c && c != 58) =
      hostOf authority :=
    takeWhile_congr fun c hc => by simp [h c (mem_hostAndPortOf hc)]
  have hcolon : ∀ c ∈ ((hostAndPortOf authority).drop (hostOf authority).length).head?, c = 58 := by
    intro c hc
    rw [hostOf, drop_length_takeWhile] at hc
    simpa using head?_dropWhile c hc
  have hport := parsePort_eq { u with host_ := hostOf authority } hcolon
  rw [hostOf, drop_length_takeWhile, ← hostOf] at hport
  rw [parseHostAndPort]
  simp only [hsame, Sys.modify_bind]
  rw [hostOf, drop_length_takeWhile, ← hostOf]
  exact hport

end authority

/-- Two slashes and more behind them, or no authority at all. -/
theorem authority_cases (rest : Bytes) :
    (∃ c r, rest = 47 :: 47 :: c :: r) ∨
      cutAuthority rest = ([], rest) ∧ parseAuthority rest = pure rest := by
  by_cases h : ∃ c r, rest = 47 :: 47 :: c :: r
  · exact .inl h
  · have hno : ∀ c r, rest = 47 :: 47 :: c :: r → False := fun c r hr => h ⟨c, r, hr⟩
    right
    constructor
    · rw [cutAuthority]
      exact hno
    · rw [parseAuthority]
      exact hno

theorem inAuthority_of_mem_cut {rest : Bytes} :
    ∀ c ∈ (cutAuthority rest).1, inAuthority c = true := by
  intro c hc
  obtain ⟨d, r, rfl⟩ | ⟨hcut, -⟩ := authority_cases rest
  · exact of_mem_takeWhile hc
  · rw [hcut] at hc
    cases hc

theorem parseAuthority_eq (rest : Bytes) :
    let authority := (cutAuthority rest).1
    (portOf authority < 2^31 → parseAuthority rest u =
      (.ok (cutAuthority rest).2, { u with
        userinfo_ := if 64 ∈ authority then userinfoOf authority else u.userinfo_
        host_ := if authority ≠ [] then hostOf authority else u.host_
        port_ := if portDigits authority ≠ [] then portOf authority else u.port_ })) ∧
    (∀ r, (parseAuthority rest u).1 = .ok r → portOf authority < 2^31) := by
  intro authority
  obtain ⟨c, r, rfl⟩ | ⟨hcut, hparse⟩ := authority_cases rest
  · have hin : ∀ c ∈ authority, inAuthority c = true := inAuthority_of_mem_cut
    have hdrop : (c :: r).drop authority.length = (c :: r).dropWhile inAuthority :=
      drop_length_takeWhile inAuthority (c :: r)
    have hui := parseUserinfo_eq u hin
    have hhost := parseHostAndPort_eq
      { u with userinfo_ := if 64 ∈ authority then userinfoOf authority else u.userinfo_ } hin
    by_cases hnil : authority = []
    · have hpure : parseAuthority (47 :: 47 :: c :: r) = pure ((c :: r).dropWhile inAuthority) := by
        rw [parseAuthority, ← hdrop]
        exact if_neg (not_not.2 hnil)
      rw [hpure]
      constructor
      · intro _
        rw [hnil]
        rfl
      · intro _ _
        rw [hnil]
        decide
    · have hparse : parseAuthority (47 :: 47 :: c :: r) = (do
          let rest ← parseUserinfo authority
          parseHostAndPort rest
          return (c :: r).dropWhile inAuthority) := by
        rw [parseAuthority, ← hdrop]
        exact if_pos hnil
      rw [hparse, Sys.bind_of_ok hui, if_pos hnil]
      constructor
      · intro hlt
        rw [Sys.bind_of_ok (hhost.1 hlt)]
        rfl
      · intro w hok
        obtain ⟨_, u, hrun, -⟩ := Sys.bind_eq_ok (Prod.ext hok rfl)
        exact hhost.2 (congrArg Prod.fst hrun)
  · rw [hparse]
    have hauth : authority = [] := congrArg Prod.fst hcut
    rw [hauth]
    constructor
    · intro _
      rw [hcut]
      rfl
    · intro _ _
      decide

section tail
variable {rest : Bytes}

theorem dropWhile_inQuery (rest : Bytes) :
    (rest.dropWhile inPath).dropWhile inQuery = rest.dropWhile inQuery := by
  induction rest with
  | nil => rfl
  | cons c rest ih =>
    by_cases hc : inPath c = true
    · have hq : inQuery c = true := by
        rw [inPath, Bool.and_eq_true] at hc
        exact hc.2
      rw [List.dropWhile_cons_of_pos hc, List.dropWhile_cons_of_pos hq, ih]
    · rw [List.dropWhile_cons_of_neg hc]

theorem parsePath_eq : parsePath rest u =
    (.ok (rest.dropWhile inPath),
      { u with path_ := if pathOf rest ≠ [] then pathOf rest else u.path_ }) := by
  have hdrop := drop_length_takeWhile inPath rest
  rw [← hdrop, pathOf]
  by_cases hnil : rest.takeWhile inPath = []
  · simp only [parsePath, hnil]
    rfl
  · simp only [parsePath]
    rw [if_pos hnil, if_pos hnil]
    rfl

theorem parseQuery_eq : parseQuery (rest.dropWhile inPath) u =
    (.ok (rest.dropWhile inQuery),
      { u with query_ := if queryOf rest ≠ [] then queryOf rest else u.query_ }) := by
  rw [← dropWhile_inQuery]
  have hhead := head?_dropWhile (p := inPath) (l := rest)
  rw [queryOf]
  generalize rest.dropWhile inPath = w at *
  match w with
  | [] => rfl
  | c :: w =>
    have hc := hhead c rfl
    rw [inPath, Bool.and_eq_false_iff, bne_eq_false_iff_eq, bne_eq_false_iff_eq] at hc
    obtain rfl | rfl := hc
    · have hdrop := drop_length_takeWhile inQuery w
      rw [List.dropWhile_cons_of_pos (by decide)]
      by_cases hnil : w.takeWhile inQuery = []
      · simp only [parseQuery, hnil]
        rw [← hdrop, hnil]
        rfl
      · rw [← hdrop]
        simp only [parseQuery]
        rw [if_pos hnil, if_pos hnil]
        rfl
    · rw [List.dropWhile_cons_of_neg (by decide)]
      rfl

theorem parseFragment_eq : parseFragment (rest.dropWhile inQuery) u =
    (.ok (),
      { u with fragment_ := if fragmentOf rest ≠ [] then fragmentOf rest else u.fragment_ }) := by
  have hhead := head?_dropWhile (p := inQuery) (l := rest)
  rw [fragmentOf]
  generalize rest.dropWhile inQuery = w at *
  match w with
  | [] => rfl
  | [c] =>
    have hc := hhead c rfl
    rw [inQuery, bne_eq_false_iff_eq] at hc
    subst hc
    rfl
  | c :: d :: w =>
    have hc := hhead c rfl
    rw [inQuery, bne_eq_false_iff_eq] at hc
    subst hc
    rfl

end tail

/-- A text is accepted if its port is an `int`, and then its components are put into the object. -/
theorem parse_eq_assign (s : Bytes) :
    (portOf (authorityOf s) < 2^31 → parse s u = (.ok (), assign s u)) ∧
      ((parse s u).1 = .ok () → portOf (authorityOf s) < 2^31) := by
  have hauth := parseAuthority_eq
    { u with scheme_ := if hasScheme s then schemeOf s else u.scheme_ } (hierPart s)
  rw [parse, Sys.bind_of_ok (parseScheme_eq u s)]
  constructor
  · intro hlt
    rw [Sys.bind_of_ok (hauth.1 hlt), Sys.bind_of_ok (parsePath_eq _),
      Sys.bind_of_ok (parseQuery_eq _), parseFragment_eq]
    rfl
  · intro hok
    obtain ⟨r, v, hrun, -⟩ := Sys.bind_eq_ok (Prod.ext hok rfl)
    exact hauth.2 r (congrArg Prod.fst hrun)

end

theorem schemeOf_eq_nil {s : Bytes} (h : hasScheme s = false) : schemeOf s = [] := by
  rw [schemeOf]
  split
  next behind hbehind => simp [hasScheme, hbehind] at h
  next => rfl

/-- In an object without components nothing is kept. -/
theorem assign_empty (s : Bytes) : assign s {} = components s := by
  have hscheme : (if hasScheme s then schemeOf s else []) = schemeOf s := by
    split
    · rfl
    · next h => exact (schemeOf_eq_nil (Bool.eq_false_iff.2 h)).symm
  have huserinfo : (if 64 ∈ authorityOf s then userinfoOf (authorityOf s) else []) =
      userinfoOf (authorityOf s) := by
    split
    · rfl
    · next h => rw [userinfoOf, if_neg h]
  have hhost : (if authorityOf s ≠ [] then hostOf (authorityOf s) else []) =
      hostOf (authorityOf s) := by
    split
    · rfl
    · next h => rw [not_not.1 h]; rfl
  have hport : (if portDigits (authorityOf s) ≠ [] then portOf (authorityOf s) else 0) =
      portOf (authorityOf s) := by
    split
    · rfl
    · next h => rw [portOf, ← portDigits, not_not.1 h]; rfl
  have hkept : ∀ text : Bytes, (if text ≠ [] then text else []) = text := by
    intro text
    split
    · rfl
    · next h => exact (not_not.1 h).symm
  rw [assign, components, hscheme, huserinfo, hhost, hport, hkept, hkept, hkept]

/-- A text is accepted if its port is an `int`, and its components are found. -/
theorem parse_eq (s : Bytes) :
    (portOf (authorityOf s) < 2^31 → parse s {} = (.ok (), components s)) ∧
      ((parse s {}).1 = .ok () → portOf (authorityOf s) < 2^31) := by
  rw [← assign_empty]
  exact parse_eq_assign {} s

end Stx.URI

/- What an object still shows of its past when a text has been parsed into it. -/
namespace Stx.URI
variable {s : Bytes} {u v : URI}

/-- The objects have the components in common that the text does not have. -/
structure AgreeOnMissing (s : Bytes) (u v : URI) : Prop where
  scheme : hasScheme s = false → u.scheme_ = v.scheme_
  userinfo : 64 ∉ authorityOf s → u.userinfo_ = v.userinfo_
  host : authorityOf s = [] → u.host_ = v.host_
  port : portDigits (authorityOf s) = [] → u.port_ = v.port_
  path : pathOf (restOf s) = [] → u.path_ = v.path_
  query : queryOf (restOf s) = [] → u.query_ = v.query_
  fragment : fragmentOf (restOf s) = [] → u.fragment_ = v.fragment_

/-- A component that is assigned is the same in both, another is as it was. -/
theorem assigned_eq_iff {α : Type} {p : Prop} [Decidable p] {new a b : α} :
    (if p then new else a) = (if p then new else b) ↔ (¬p → a = b) := by
  split
  · next h => simp [h]
  · next h => simp [h]

theorem assign_eq_iff : assign s u = assign s v ↔ AgreeOnMissing s u v := by
  simp only [assign, URI.mk.injEq, assigned_eq_iff, not_not, Bool.not_eq_true]
  constructor
  · rintro ⟨hscheme, huserinfo, hhost, hport, hpath, hquery, hfragment⟩
    exact ⟨hscheme, huserinfo, hhost, hport, hpath, hquery, hfragment⟩
  · rintro ⟨hscheme, huserinfo, hhost, hport, hpath, hquery, hfragment⟩
    exact ⟨hscheme, huserinfo, hhost, hport, hpath, hquery, hfragment⟩

/-- Two objects are the same behind a text if they agreed on what the text leaves alone. -/
theorem reparse_iff (s : Bytes) (u v : URI) (hu : (parse s u).1 = .ok ())
    (hv : (parse s v).1 = .ok ()) :
    (parse s u).2 = (parse s v).2 ↔ AgreeOnMissing s u v := by
  rw [(parse_eq_assign u s).1 ((parse_eq_assign u s).2 hu),
    (parse_eq_assign v s).1 ((parse_eq_assign v s).2 hv)]
  exact assign_eq_iff

/-- A text with all components. -/
theorem reparse_iff_full :
    (parse (lit "fnord://blah@myhost:2345/p?q#f") { scheme_ := lit "old", port_ := 1 }).2 =
        (parse (lit "fnord://blah@myhost:2345/p?q#f") {}).2 ↔
      AgreeOnMissing (lit "fnord://blah@myhost:2345/p?q#f") { scheme_ := lit "old", port_ := 1 } {} :=
  reparse_iff (lit "fnord://blah@myhost:2345/p?q#f") { scheme_ := lit "old", port_ := 1 } {}
    (by decide +kernel) (by decide +kernel)

/-- The host of the text before stays when a path follows. -/
theorem host_survives : ¬∀ (s : Bytes) (u v : URI), (parse s u).1 = .ok () →
    (parse s v).1 = .ok () → (parse s u).2 = (parse s v).2 := by
  intro h
  have hsame := h (lit "/p") { host_ := lit "old" } {} (by decide +kernel) (by decide +kernel)
  exact absurd (congrArg URI.host_ hsame) (by decide +kernel)

end Stx.URI
