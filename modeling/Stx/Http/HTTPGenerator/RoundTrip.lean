import Stx.Http.HTTPGenerator
import Stx.Http.HTTPRequest

/-! What `HTTPRequest::parse` makes of the text that `HTTPGenerator::generate` wrote. `format`
searches the values that it has put in for the placeholders that are left. -/
namespace Stx.Http.HTTPGenerator
open StringUtil HTTPParser

/-- The request with the header that the generator adds. -/
def withLength (req : HTTPRequest) : HTTPRequest :=
  if addsLength req then
    { req with
      toHTTPMessage := req.addHeader (lit "Content-Length") (StringUtil.toString req.body_.length) }
  else req

/-- The request is parsed back. -/
def RoundTrips (req : HTTPRequest) : Prop :=
  (generate req >>= HTTPRequest.parse) = .ok (withLength req)

/-- A request whose parts can be told apart in its text, with the length of its body in the
headers that announce one. The body is in memory. -/
structure WellFormed (req : HTTPRequest) : Prop where
  uri : ∀ b ∈ req.url_, b ≠ 32 ∧ b ≠ 13 ∧ b ≠ 10
  version : ∀ b ∈ req.version_, b ≠ 32 ∧ b ≠ 13 ∧ b ≠ 10
  name : ∀ field ∈ req.headers_.list, ∀ b ∈ field.1, b ≠ 58 ∧ b ≠ 13 ∧ b ≠ 10
  value : ∀ field ∈ req.headers_.list, ∀ b ∈ field.2, b ≠ 13 ∧ b ≠ 10
  leading : ∀ field ∈ req.headers_.list, field.2.head? ≠ some 32
  length : ∀ field ∈ req.headers_.list, field.1 = lit "content-length" →
    Libc.stoul field.2 = some req.body_.length
  memory : req.body_.length < 2^63

/-- The texts that `format` goes through for a line are shorter than 2^31 bytes, so that its
position does not overflow. -/
def LinesFit (req : HTTPRequest) : Prop :=
  FormatFits (lit "$0 $1 $2\r\n") 0 [req.method_.toString, req.url_, req.version_] ∧
  ∀ field ∈ req.headers_.list, FormatFits (lit "$0: $1\r\n") 0 [field.1, field.2]

/-- No placeholder stands where a later value is put in, unless that value is the placeholder. -/
def NoPlaceholders (req : HTTPRequest) : Prop :=
  (¬lit "$2" <:+: req.url_ ∨ req.version_ = lit "$2") ∧
  ∀ field ∈ req.headers_.list, ¬lit "$1" <:+: field.1 ∨ field.2 = lit "$1"

/- The lines that are written. -/

theorem dollar_not_mem_method (m : HTTPMethod) : (36 : UInt8) ∉ m.toString := by
  cases m <;> decide

theorem not_infix_of_dollar {d : UInt8} {s : Bytes} (h : 36 ∉ s) : ¬[36, d] <:+: s := by
  intro hin
  exact h (hin.subset List.mem_cons_self)

theorem placeholders : lit "$" ++ StringUtil.toString 0 = [36, 48] ∧
    lit "$" ++ StringUtil.toString 1 = [36, 49] ∧ lit "$" ++ StringUtil.toString 2 = [36, 50] := by
  decide

theorem format_line {first : Bytes} (hfirst : 36 ∉ first) (second third : Bytes) :
    formatImpl (lit "$0 $1 $2\r\n") 0 [first, second, third] =
      first ++ 32 :: (replaceAll second (lit "$2") third ++ 32 :: (third ++ [13, 10])) := by
  have hsame : ∀ (d : UInt8) (r : Bytes), replaceAll first [36, d] r = first := fun d r =>
    replaceAll_of_not_infix (by simp) (not_infix_of_dollar hfirst)
  have hzero : ∀ r, replaceAll (lit "$0 $1 $2\r\n") [36, 48] r = r ++ lit " $1 $2\r\n" :=
    fun _ => rfl
  have hone : ∀ r, replaceAll (lit " $1 $2\r\n") [36, 49] r = 32 :: r ++ lit " $2\r\n" :=
    fun _ => rfl
  have htwo : ∀ r, replaceAll (lit " $2\r\n") [36, 50] r = 32 :: (r ++ [13, 10]) :=
    fun _ => rfl
  have hspace : [36, 50].isPrefixOf (32 :: second) = false := by simp [List.isPrefixOf]
  have hpattern : lit "$2" = [36, 50] := by decide
  simp only [formatImpl, placeholders.1, placeholders.2.1, placeholders.2.2, hzero]
  rw [replaceAll_append (by decide), hsame, hone, replaceAll_append (by simp), hsame,
    replaceAll_append (by decide), replaceAll_cons_of_not hspace, htwo, hpattern]
  rfl

theorem format_start (m : HTTPMethod) (uri version : Bytes) :
    formatImpl (lit "$0 $1 $2\r\n") 0 [m.toString, uri, version] =
      m.toString ++ 32 :: (replaceAll uri (lit "$2") version ++ 32 :: (version ++ [13, 10])) :=
  format_line (dollar_not_mem_method m) uri version

/-- A header line without its newline. -/
def lineOf (field : Bytes × Bytes) : Bytes :=
  replaceAll field.1 (lit "$1") field.2 ++ 58 :: 32 :: (field.2 ++ [13])

theorem format_header (field : Bytes × Bytes) :
    formatImpl (lit "$0: $1\r\n") 0 [field.1, field.2] = lineOf field ++ [10] := by
  have hfirst : ∀ r, replaceAll (lit "$0: $1\r\n") [36, 48] r = r ++ lit ": $1\r\n" :=
    fun _ => rfl
  have hsecond : ∀ r, replaceAll (lit ": $1\r\n") [36, 49] r = 58 :: 32 :: (r ++ [13, 10]) :=
    fun _ => rfl
  have hpattern : lit "$1" = [36, 49] := by decide
  simp only [formatImpl, placeholders.1, placeholders.2.1, hfirst]
  rw [replaceAll_append (by decide), hsecond, lineOf, hpattern]
  simp

/-- The header that the generator adds. -/
def lengthField (req : HTTPRequest) : Bytes × Bytes :=
  (lit "Content-Length", StringUtil.toString req.body_.length)

theorem format_length (req : HTTPRequest) :
    formatImpl (lit "Content-Length: $0\r\n") 0 [StringUtil.toString req.body_.length] =
      lineOf (lengthField req) ++ [10] := by
  have hfirst : ∀ r, replaceAll (lit "Content-Length: $0\r\n") [36, 48] r =
      lit "Content-Length: " ++ (r ++ [13, 10]) := fun _ => rfl
  have hname : ∀ r, replaceAll (lit "Content-Length") (lit "$1") r = lit "Content-Length" :=
    fun _ => rfl
  have hcolon : lit "Content-Length: " = lit "Content-Length" ++ [58, 32] := by decide
  simp only [formatImpl, placeholders.1, hfirst, lineOf, lengthField, hname, hcolon]
  simp

/-- All the headers that are written. -/
def fieldsOf (req : HTTPRequest) : List (Bytes × Bytes) :=
  req.headers_.list ++ if addsLength req then [lengthField req] else []

/-- What is known of a header that is written. -/
structure FieldFormed (size : Nat) (field : Bytes × Bytes) : Prop where
  name : ∀ b ∈ field.1, b ≠ 58 ∧ b ≠ 13 ∧ b ≠ 10
  value : ∀ b ∈ field.2, b ≠ 13 ∧ b ≠ 10
  leading : field.2.head? ≠ some 32
  length : isContentLength field.1 = true → Libc.stoul field.2 = some size

theorem isContentLength_iff {key : Bytes} :
    isContentLength key = true ↔ lowercase key = lit "content-length" := by
  have hlower : lowercase kContentLengthHeader = lit "content-length" := by decide
  constructor
  · intro h
    simp only [isContentLength, decide_eq_true_eq] at h
    rw [← hlower]
    exact Libc.strncasecmp_eq_zero h.1 (by decide) h.2
  · intro h
    rw [← hlower] at h
    have hlen : key.length = kContentLengthHeader.length := by
      simpa only [lowercase, List.length_map] using congrArg List.length h
    simp only [isContentLength, decide_eq_true_eq]
    exact ⟨hlen, Libc.strncasecmp_of_map_eq hlen h⟩

theorem digit_ne {n : Nat} {b : UInt8} (h : b ∈ StringUtil.toString n) :
    b ≠ 13 ∧ b ≠ 10 ∧ b ≠ 32 := by
  have hdigit := Libc.isdigit_of_mem_toString h
  refine ⟨?_, ?_, ?_⟩ <;> (rintro rfl; exact absurd hdigit (by decide))

theorem WellFormed.field {req : HTTPRequest} (h : WellFormed req) :
    ∀ field ∈ fieldsOf req, FieldFormed req.body_.length field := by
  intro field hfield
  rcases List.mem_append.1 hfield with hfield | hfield
  · refine ⟨h.name field hfield, h.value field hfield, h.leading field hfield, ?_⟩
    intro hlen
    have hlower : lowercase field.1 = field.1 := req.headers_.lower field hfield
    rw [isContentLength_iff, hlower] at hlen
    exact h.length field hfield hlen
  · split at hfield
    · rw [List.mem_singleton.1 hfield]
      have hname : ∀ b ∈ lit "Content-Length", b ≠ 58 ∧ b ≠ 13 ∧ b ≠ 10 := by decide +kernel
      refine ⟨hname, fun b hb => ⟨(digit_ne hb).1, (digit_ne hb).2.1⟩, ?_, fun _ => ?_⟩
      · intro hhead
        exact (digit_ne (List.mem_of_mem_head? hhead)).2.2 rfl
      · apply Libc.stoul_toString
        have := h.memory
        omega
    · cases hfield

theorem newline_not_mem_lineOf {size : Nat} {field : Bytes × Bytes} (h : FieldFormed size field) :
    10 ∉ lineOf field := by
  intro hmem
  rw [lineOf, List.mem_append] at hmem
  rcases hmem with hmem | hmem
  · rcases mem_replaceAll (by decide) hmem with hmem | hmem
    · exact (h.name 10 hmem).2.2 rfl
    · exact (h.value 10 hmem).2 rfl
  · simp only [List.mem_cons, List.mem_append] at hmem
    rcases hmem with hmem | hmem | hmem | hmem
    · exact absurd hmem (by decide)
    · exact absurd hmem (by decide)
    · exact (h.value 10 hmem).2 rfl
    · exact absurd hmem (by decide)

/-- The carriage return at the end of a line is dropped, and no other byte. -/
theorem strip_return {s : Bytes} (h : ∀ b ∈ s, b ≠ 13) : stripTrailingBytes (s ++ [13]) 13 = s := by
  rw [stripTrailingBytes, List.rdropWhile_concat_pos _ _ _ (by decide),
    List.rdropWhile_eq_self_iff]
  intro hne
  simpa using h _ (List.getLast_mem hne)

theorem strip_lineOf {size : Nat} {field : Bytes × Bytes} (h : FieldFormed size field) :
    stripTrailingBytes (lineOf field) 13 =
      replaceAll field.1 (lit "$1") field.2 ++ 58 :: 32 :: field.2 := by
  have hline : lineOf field =
      (replaceAll field.1 (lit "$1") field.2 ++ 58 :: 32 :: field.2) ++ [13] := by
    simp [lineOf]
  rw [hline]
  apply strip_return
  intro b hb
  rw [List.mem_append] at hb
  rcases hb with hb | hb
  · rcases mem_replaceAll (by decide) hb with hb | hb
    · exact (h.name b hb).2.1
    · exact (h.value b hb).1
  · simp only [List.mem_cons] at hb
    rcases hb with rfl | rfl | hb
    · decide
    · decide
    · exact (h.value b hb).1

/-- The header section that is written. -/
def sectionOf (req : HTTPRequest) (h : WellFormed req) : HeaderSection where
  first := req.method_.toString
  second := replaceAll req.url_ (lit "$2") req.version_
  third := req.version_ ++ [13]
  lines := (fieldsOf req).map lineOf
  blank := [13]
  first_free := by cases req.method_ <;> decide
  second_free hmem := by
    rcases mem_replaceAll (by decide) hmem with hmem | hmem
    · exact (h.uri 32 hmem).1 rfl
    · exact (h.version 32 hmem).1 rfl
  third_free hmem := by
    rcases List.mem_append.1 hmem with hmem | hmem
    · exact (h.version 10 hmem).2.2 rfl
    · exact absurd hmem (by decide)
  lines_free line hline := by
    obtain ⟨field, hfield, rfl⟩ := List.mem_map.1 hline
    refine ⟨newline_not_mem_lineOf (h.field field hfield), ?_⟩
    rw [strip_lineOf (h.field field hfield)]
    simp
  blank_free := by decide

theorem generateHeaders_eq {fields : List (Bytes × Bytes)}
    (hfit : ∀ field ∈ fields, FormatFits (lit "$0: $1\r\n") 0 [field.1, field.2]) :
    generateHeaders fields = .ok (fields.flatMap (lineOf · ++ [10])) := by
  induction fields with
  | nil => rfl
  | cons field fields ih =>
    obtain ⟨hfield, hrest⟩ := List.forall_mem_cons.1 hfit
    rw [generateHeaders, formatInt, formatImplInt_eq hfield, format_header, ih hrest]
    rfl

theorem generateLength_eq {req : HTTPRequest} (h : WellFormed req) :
    generateLength req =
      .ok ((if addsLength req then [lengthField req] else []).flatMap (lineOf · ++ [10])) := by
  unfold generateLength
  by_cases hadds : addsLength req = true
  · have hsize : (StringUtil.toString req.body_.length).length ≤ 20 := by
      apply StringUtil.length_toString_le
      have := h.memory
      omega
    have hfirst : ∀ r, replaceAll (lit "Content-Length: $0\r\n") [36, 48] r =
        lit "Content-Length: " ++ (r ++ [13, 10]) := fun _ => rfl
    have hfits : FormatFits (lit "Content-Length: $0\r\n") 0
        [StringUtil.toString req.body_.length] := by
      refine ⟨by decide, ?_⟩
      have hcolon : (lit "Content-Length: ").length = 16 := by decide
      rw [FormatFits, placeholders.1, hfirst, List.length_append, List.length_append, hcolon]
      simp only [List.length_cons, List.length_nil]
      omega
    rw [if_pos hadds, if_pos hadds, formatInt, formatImplInt_eq hfits, format_length]
    simp
  · rw [if_neg hadds, if_neg hadds]
    rfl

/-- The text is that of the section, and the body. -/
theorem generate_eq {req : HTTPRequest} (h : WellFormed req) (hfit : LinesFit req) :
    generate req = .ok ((sectionOf req h).bytes ++ req.body_) := by
  have hstart := formatImplInt_eq hfit.1
  rw [format_start] at hstart
  have hend : lit "\r\n" = [13, 10] := by decide
  rw [generate, formatInt, hstart, generateHeaders_eq hfit.2, generateLength_eq h, Result.ok_bind,
    Result.ok_bind, Result.ok_bind, Result.pure_eq, hend]
  have hbytes : (sectionOf req h).bytes = req.method_.toString ++ 32 ::
      (replaceAll req.url_ (lit "$2") req.version_ ++ 32 :: ((req.version_ ++ [13]) ++ 10 ::
        (((fieldsOf req).map lineOf).flatMap (· ++ [10]) ++ ([13] ++ [10])))) := rfl
  rw [hbytes, List.flatMap_map, fieldsOf, List.flatMap_append]
  simp only [List.append_assoc, List.cons_append, List.nil_append]

/- What the parser makes of the lines. -/

theorem splitHeader_append {name : Bytes} (h : 58 ∉ name) (rest : Bytes) :
    splitHeader (name ++ 58 :: rest) = some (name, rest.dropWhile (· = 32)) := by
  have hall : ∀ b ∈ name, decide (b ≠ 58) = true := by
    intro b hb
    exact decide_eq_true fun he => h (he ▸ hb)
  rw [splitHeader, List.dropWhile_append_of_pos hall, List.takeWhile_append_of_pos hall]
  simp

theorem lineHeader_lineOf {size : Nat} {field : Bytes × Bytes} (h : FieldFormed size field)
    (hname : 58 ∉ replaceAll field.1 (lit "$1") field.2) :
    lineHeader (lineOf field) = some (replaceAll field.1 (lit "$1") field.2, field.2) := by
  have hvalue : (32 :: field.2).dropWhile (· = 32) = field.2 := by
    rw [List.dropWhile_cons_of_pos (by decide)]
    cases hval : field.2 with
    | nil => rfl
    | cons b rest =>
      have hb : b ≠ 32 := by simpa [hval] using h.leading
      rw [List.dropWhile_cons_of_neg (by simpa using hb)]
  rw [lineHeader, strip_lineOf h, splitHeader_append hname, hvalue]

/-- A value that is cut out behind an earlier colon is too long. -/
theorem length_lt_of_colon {name rest key v : Bytes} (h : 58 ∈ name)
    (hsplit : splitHeader (name ++ 58 :: rest) = some (key, v)) : rest.length < v.length := by
  obtain ⟨a, b, rfl, hfree⟩ := List.eq_append_cons_of_mem h
  rw [List.append_assoc, List.cons_append, splitHeader_append hfree] at hsplit
  cases hsplit
  have hlen : ∀ s : Bytes, (58 :: rest).length ≤ ((s ++ 58 :: rest).dropWhile (· = 32)).length := by
    intro s
    induction s with
    | nil => rw [List.nil_append, List.dropWhile_cons_of_neg (by decide)]
    | cons x s ih =>
      rw [List.cons_append]
      by_cases hx : x = 32
      · rw [List.dropWhile_cons_of_pos (by simpa using hx)]
        exact ih
      · rw [List.dropWhile_cons_of_neg (by simpa using hx)]
        simp only [List.length_cons, List.length_append]
        omega
  exact hlen b

/-- A header comes back only if its name has no placeholder for its value. -/
theorem no_placeholder_of_lineHeader {size : Nat} {field parsed : Bytes × Bytes}
    (h : FieldFormed size field) (hparsed : lineHeader (lineOf field) = some parsed)
    (hkey : lowercase parsed.1 = field.1) (hval : parsed.2 = field.2) :
    ¬lit "$1" <:+: field.1 ∨ field.2 = lit "$1" := by
  by_cases hcolon : 58 ∈ replaceAll field.1 (lit "$1") field.2
  · rw [lineHeader, strip_lineOf h] at hparsed
    have hlen := length_lt_of_colon hcolon hparsed
    rw [hval, List.length_cons] at hlen
    omega
  · rw [lineHeader_lineOf h hcolon] at hparsed
    cases hparsed
    by_cases hin : lit "$1" <:+: field.1
    · right
      have hmap : field.2.map Libc.tolower = lit "$1" :=
        eq_of_map_replaceAll (by decide +kernel) hkey hin
      exact Libc.eq_of_map_tolower hmap (by decide +kernel)
    · exact .inl hin

/-- Headers that are written as they are announce the length of the body. -/
theorem expected_lines {size : Nat} {fields : List (Bytes × Bytes)}
    (hformed : ∀ field ∈ fields, FieldFormed size field)
    (hparsed : ∀ field ∈ fields, lineHeader (lineOf field) = some field) (n : Nat) :
    (fields.map lineOf).foldlM (lineExpected .request) n =
      some (if fields.any fun field => isContentLength field.1 then size else n) := by
  induction fields generalizing n with
  | nil => rfl
  | cons field fields ih =>
    obtain ⟨hfield, hrest⟩ := List.forall_mem_cons.1 hformed
    obtain ⟨hline, hlines⟩ := List.forall_mem_cons.1 hparsed
    have hstep : lineExpected .request n (lineOf field) =
        some (if isContentLength field.1 then size else n) := by
      have hpair : lineHeader (lineOf field) = some (field.1, field.2) := hline
      rw [lineExpected_eq hpair, expectedAfter]
      by_cases hlen : isContentLength field.1 = true
      · simp [hlen, hfield.length hlen]
      · simp [hlen]
    rw [List.map_cons, List.foldlM_cons, hstep, List.any_cons]
    simp only [Option.bind_eq_bind, Option.bind_some, ih hrest hlines]
    by_cases hlen : isContentLength field.1 = true
    · simp [hlen]
    · rw [Bool.not_eq_true] at hlen
      simp only [hlen, Bool.false_eq_true, if_false, Bool.false_or]

theorem any_isContentLength (req : HTTPRequest) (hbody : req.body_ ≠ []) :
    (fieldsOf req).any (fun field => isContentLength field.1) = true := by
  have hpos : 0 < req.body_.length := List.length_pos_of_ne_nil hbody
  rw [fieldsOf, List.any_append, Bool.or_eq_true]
  by_cases hadds : addsLength req = true
  · right
    have hkey : lowercase (lit "Content-Length") = lit "content-length" := by decide
    rw [if_pos hadds, List.any_cons, Bool.or_eq_true]
    exact .inl (isContentLength_iff.2 hkey)
  · left
    have hhas : req.hasHeader (lit "Content-Length") = true := by
      simpa [addsLength, hpos] using hadds
    rw [HTTPMessage.hasHeader, List.any_eq_true] at hhas
    obtain ⟨field, hfield, heq⟩ := hhas
    rw [List.any_eq_true]
    refine ⟨field, hfield, isContentLength_iff.2 ?_⟩
    have hkey : field.1 = lowercase (lit "Content-Length") := by simpa using heq
    rw [hkey, lowercase_lowercase]
    decide

/-- The request that is expected back, from its parts. -/
theorem withLength_eq (req : HTTPRequest) :
    withLength req = HTTPRequest.ofParts req.method_ req.url_ req.version_ (fieldsOf req)
      req.body_ := by
  have hlower : (req.headers_.list.map fun field => (lowercase field.1, field.2)) =
      req.headers_.list := by
    conv_rhs => rw [← List.map_id req.headers_.list]
    apply List.map_congr_left
    intro field hfield
    exact Prod.ext (req.headers_.lower field hfield) rfl
  have hheaders : (withLength req).headers_ = HeaderList.addAll {} (fieldsOf req) := by
    apply HeaderList.ext
    rw [HeaderList.list_addAll, fieldsOf, withLength, List.map_append, hlower]
    by_cases hadds : addsLength req = true
    · rw [if_pos hadds, if_pos hadds]
      rfl
    · rw [if_neg hadds, if_neg hadds]
      simp
  have hrest : withLength req =
      { req with headers_ := (withLength req).headers_ } := by
    unfold withLength
    split <;> rfl
  rw [hrest, hheaders]
  rfl

theorem forall_of_maps {α β γ : Type} {f : α → Option β} {g : β → γ} {g' : α → γ} {xs : List α}
    {ys : List β} (hsome : xs.map f = ys.map some) (hmap : ys.map g = xs.map g') :
    ∀ x ∈ xs, ∃ y, f x = some y ∧ g y = g' x := by
  induction xs generalizing ys with
  | nil => simp
  | cons x xs ih =>
    cases ys with
    | nil => cases hsome
    | cons y ys =>
      simp only [List.map_cons, List.cons.injEq] at hsome hmap
      exact List.forall_mem_cons.2 ⟨⟨y, hsome.1, hmap.1⟩, ih hsome.2 hmap.2⟩

section placeholders
variable {req : HTTPRequest}

theorem NoPlaceholders.uri (h : NoPlaceholders req) :
    replaceAll req.url_ (lit "$2") req.version_ = req.url_ := by
  rcases h.1 with hnot | heq
  · exact replaceAll_of_not_infix (by decide) hnot
  · rw [heq]
    exact replaceAll_self _ (by decide)

theorem NoPlaceholders.name (h : NoPlaceholders req) :
    ∀ field ∈ fieldsOf req, replaceAll field.1 (lit "$1") field.2 = field.1 := by
  intro field hfield
  rcases List.mem_append.1 hfield with hfield | hfield
  · rcases h.2 field hfield with hnot | heq
    · exact replaceAll_of_not_infix (by decide) hnot
    · rw [heq]
      exact replaceAll_self _ (by decide)
  · split at hfield
    · rw [List.mem_singleton.1 hfield]
      rfl
    · cases hfield

theorem NoPlaceholders.lineHeader (h : NoPlaceholders req) (hwf : WellFormed req) :
    ∀ field ∈ fieldsOf req, HTTPParser.lineHeader (lineOf field) = some field := by
  intro field hfield
  have hname := h.name field hfield
  rw [lineHeader_lineOf (hwf.field field hfield), hname]
  rw [hname]
  exact fun hmem => ((hwf.field field hfield).name 58 hmem).1 rfl

/-- The parser expects the body that was written. -/
theorem NoPlaceholders.expected (h : NoPlaceholders req) (hwf : WellFormed req) :
    (sectionOf req hwf).expected .request = some req.body_.length := by
  have hfold := expected_lines hwf.field (h.lineHeader hwf) 0
  by_cases hbody : req.body_ = []
  · have hsize : (if (fieldsOf req).any fun field => isContentLength field.1 then
        req.body_.length else 0) = req.body_.length := by
      simp [hbody]
    rw [hsize] at hfold
    exact hfold
  · rw [any_isContentLength req hbody, if_pos rfl] at hfold
    exact hfold

/-- A URI and names that come back had no placeholder in them. -/
theorem noPlaceholders_of_parts (hwf : WellFormed req)
    (huri : replaceAll req.url_ (lit "$2") req.version_ = req.url_)
    {fields : List (Bytes × Bytes)}
    (hlines : (fieldsOf req).map (fun field => lineHeader (lineOf field)) = fields.map some)
    (hheaders : fields.map (fun field => (lowercase field.1, field.2)) =
      (fieldsOf req).map fun field => (lowercase field.1, field.2)) : NoPlaceholders req := by
  constructor
  · by_cases hin : lit "$2" <:+: req.url_
    · right
      have hsame := eq_of_map_replaceAll (f := id) (by decide) ((List.map_id _).trans huri) hin
      rwa [List.map_id] at hsame
    · exact .inl hin
  · intro field hfield
    have hmem : field ∈ fieldsOf req := List.mem_append_left _ hfield
    obtain ⟨parsed, hparsed, hpair⟩ := forall_of_maps hlines hheaders field hmem
    simp only [Prod.mk.injEq] at hpair
    refine no_placeholder_of_lineHeader (hwf.field field hmem) hparsed ?_ hpair.2
    rw [hpair.1]
    exact req.headers_.lower field hfield

end placeholders

/-- A generated request is parsed back if and only if no placeholder of a later value stands in
its URI or in the name of a header. -/
theorem roundTrips_iff (req : HTTPRequest) (hwf : WellFormed req) (hfit : LinesFit req) :
    RoundTrips req ↔ NoPlaceholders req := by
  have hlt : req.body_.length < 2^64 := by
    have := hwf.memory
    omega
  have hversion : stripTrailingBytes (req.version_ ++ [13]) 13 = req.version_ :=
    strip_return fun b hb => (hwf.version b hb).2.1
  have hstart : (sectionOf req hwf).StartValid .request := by
    change (HTTPMethod.ofText? req.method_.toString).isSome = true
    rw [HTTPMethod.ofText?_toString]
    rfl
  unfold RoundTrips
  rw [generate_eq hwf hfit, Result.ok_bind, withLength_eq]
  constructor
  · intro hparse
    rcases HTTPRequest.parse_section (sectionOf req hwf) hlt with
      ⟨method, fields, -, hmap, hany, -⟩ | ⟨-, hnone⟩
    · have heq := hany _ hparse
      have huri : req.url_ = replaceAll req.url_ (lit "$2") req.version_ :=
        congrArg HTTPRequest.url_ heq
      have hheaders := congrArg (fun r : HTTPRequest => r.headers_.list) heq
      simp only [HTTPRequest.ofParts, HeaderList.list_addAll, List.nil_append] at hheaders
      have hlines : (fieldsOf req).map (fun field => lineHeader (lineOf field)) =
          fields.map some := by
        rw [← hmap]
        simp [sectionOf]
      exact noPlaceholders_of_parts hwf huri.symm hlines hheaders.symm
    · exact absurd hparse (hnone _)
  · intro hnone
    have hexpected := hnone.expected hwf
    rcases HTTPRequest.parse_section (sectionOf req hwf) hlt with
      ⟨method, fields, hmethod, hmap, -, hok⟩ | ⟨hbad, -⟩
    · have hm : method = req.method_ := by
        have htext : HTTPMethod.ofText? req.method_.toString = some method := hmethod
        rw [HTTPMethod.ofText?_toString] at htext
        exact (Option.some.inj htext).symm
      have hfields : fields = fieldsOf req := by
        have hlines : ((fieldsOf req).map lineOf).map lineHeader = fields.map some := hmap
        have hsome : (fieldsOf req).map (lineHeader ∘ lineOf) = (fieldsOf req).map some :=
          List.map_congr_left (hnone.lineHeader hwf)
        rw [List.map_map, hsome] at hlines
        exact (List.map_injective_iff.2 (fun _ _ => Option.some.inj) hlines).symm
      have hresult := hok hexpected
      rw [hm, hfields] at hresult
      rw [hresult]
      change Result.ok (HTTPRequest.ofParts req.method_
        (replaceAll req.url_ (lit "$2") req.version_)
        (stripTrailingBytes (req.version_ ++ [13]) 13) (fieldsOf req) req.body_) = _
      rw [hnone.uri, hversion]
    · rcases hbad with hbad | hbad
      · exact absurd hstart hbad
      · rw [hexpected] at hbad
        cases hbad

/-- "GET /a$2b HTTP/1.1". -/
def placeholderRequest : HTTPRequest where
  url_ := lit "/a$2b"
  version_ := lit "HTTP/1.1"

/-- It comes back with the URI "/aHTTP/1.1b". -/
theorem placeholderRequest_not_roundTrips :
    WellFormed placeholderRequest ∧ ¬RoundTrips placeholderRequest := by
  refine ⟨⟨by decide +kernel, by decide +kernel, by decide +kernel, by decide +kernel,
    by decide +kernel, by decide +kernel, by decide +kernel⟩, ?_⟩
  unfold RoundTrips
  decide +kernel

/-- "POST /x HTTP/1.1" with a header and a body of three bytes. -/
def plainRequest : HTTPRequest where
  method_ := .post
  url_ := lit "/x"
  version_ := lit "HTTP/1.1"
  headers_ := HeaderList.addAll {} [(lit "Host", lit "a:80")]
  body_ := lit "abc"

theorem plainRequest_roundTrips : RoundTrips plainRequest :=
  (roundTrips_iff plainRequest
    ⟨by decide +kernel, by decide +kernel, by decide +kernel, by decide +kernel,
      by decide +kernel, by decide +kernel, by decide +kernel⟩
    ⟨by decide +kernel, by decide +kernel⟩).2 ⟨by decide +kernel, by decide +kernel⟩

end Stx.Http.HTTPGenerator
