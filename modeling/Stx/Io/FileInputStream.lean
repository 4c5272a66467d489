import Stx.Io.InputStream

/-! `FileInputStream`: a buffer over a descriptor. It is compared with a `StringInputStream` over the
bytes of the file, call by call. -/
namespace Stx.Io

/-- A descriptor of a regular file. How many bytes the `k`th `read` returns is up to the system, and
so is the largest offset that `lseek` takes. -/
structure Descriptor where
  content : Bytes
  offset : Nat
  calls : Nat
  sizes : Nat → Nat
  maxbytes : Nat
  content_le : content.length ≤ maxbytes
  maxbytes_lt : maxbytes < 2^63

namespace Descriptor

/-- At least one byte, unless the file has ended. -/
def read (fd : Descriptor) (count : Nat) : Bytes × Descriptor :=
  let data := (fd.content.drop fd.offset).take (max 1 (min (fd.sizes fd.calls) count))
  (data, { fd with offset := fd.offset+data.length, calls := fd.calls+1 })

def lseek (fd : Descriptor) (pos : Int) : Option Descriptor :=
  if 0 ≤ pos ∧ pos ≤ fd.maxbytes then some { fd with offset := pos.toNat } else none

/-- The bytes that are read stand in front of those that are left. -/
theorem read_append (fd : Descriptor) (count : Nat) :
    (fd.read count).1 ++ fd.content.drop (fd.read count).2.offset = fd.content.drop fd.offset := by
  obtain ⟨k, hk⟩ : ∃ k, (fd.read count).1 = (fd.content.drop fd.offset).take k := ⟨_, rfl⟩
  have hoffset : (fd.read count).2.offset = fd.offset+(fd.read count).1.length := rfl
  rw [hoffset, hk, ← List.drop_drop, List.length_take]
  by_cases hle : k ≤ (fd.content.drop fd.offset).length
  · rw [Nat.min_eq_left hle, List.take_append_drop]
  · rw [Nat.min_eq_right (by omega), List.take_of_length_le (by omega), List.drop_length,
      List.append_nil]

theorem read_length_pos (fd : Descriptor) (count : Nat) :
    0 < (fd.read count).1.length ↔ fd.content.drop fd.offset ≠ [] := by
  have hpos : max 1 (min (fd.sizes fd.calls) count) ≠ 0 := by omega
  rw [List.length_pos_iff, read, ne_eq, ne_eq, List.take_eq_nil_iff, or_iff_right hpos]

theorem lseek_eq_some (fd : Descriptor) {pos : Nat} (h : pos ≤ fd.content.length) :
    fd.lseek pos = some { fd with offset := pos } := by
  have hle := fd.content_le
  rw [lseek, if_pos (by omega)]
  rfl

end Descriptor

/-- A `size_t` as an `off_t`. -/
def toOffset (n : Nat) : Int := if n < 2^63 then n else n-2^64

/-- The `buf_len_` characters of `buf_` that have been read. -/
structure FileInputStream where
  fd_ : Descriptor
  buf_ : Bytes
  buf_pos_ : Nat
  buf_pos_le : buf_pos_ ≤ buf_.length

namespace FileInputStream

def fromFileDescriptor (fd : Descriptor) : FileInputStream := ⟨fd, [], 0, Nat.le_refl 0⟩

def readNextChunk : Sys FileInputStream Bool := fun s =>
  let (data, fd) := s.fd_.read 8192
  (.ok (0 < data.length), ⟨fd, data, 0, Nat.zero_le _⟩)

/-- `if (buf_pos_ >= buf_len_)`, with what `readNextChunk` returns there. -/
def fill : Sys FileInputStream Bool := fun s =>
  if s.buf_.length ≤ s.buf_pos_ then readNextChunk s else (.ok true, s)

def readNextByte : Sys FileInputStream (Option UInt8) := do
  let _ ← fill
  fun s =>
    if h : s.buf_pos_ < s.buf_.length then
      (.ok (some s.buf_[s.buf_pos_]), ⟨s.fd_, s.buf_, s.buf_pos_+1, h⟩)
    else (.ok none, s)

/-- The `memcpy`. -/
def copy (n_bytes : Nat) : Sys FileInputStream Bytes := fun s =>
  let n := min (s.buf_.length-s.buf_pos_) n_bytes
  (.ok ((s.buf_.drop s.buf_pos_).take n),
    ⟨s.fd_, s.buf_, s.buf_pos_+n, by have hle := s.buf_pos_le; omega⟩)

/-- Every turn of the loop copies a byte or is the last one. -/
def readNextBytesLoop : Nat → Nat → Sys FileInputStream Bytes
  | 0, _ => Sys.reads fun _ => .diverge
  | fuel+1, n_bytes =>
    if n_bytes = 0 then pure []
    else do
      if !(← fill) then return []
      let data ← copy n_bytes
      return data ++ (← readNextBytesLoop fuel (n_bytes-data.length))

def readNextBytes (n_bytes : Nat) : Sys FileInputStream Bytes := readNextBytesLoop (n_bytes+1) n_bytes

/- The exception has its text in the place of its type. -/
def skipNextBytes (nbytes : Nat) : Sys FileInputStream Nat := fun s =>
  let buf_remaining := s.buf_.length-s.buf_pos_
  if h : nbytes ≤ s.buf_.length-s.buf_pos_ then
    (.ok nbytes, ⟨s.fd_, s.buf_, s.buf_pos_+nbytes, by have hle := s.buf_pos_le; omega⟩)
  else
    match s.fd_.lseek (s.fd_.offset+toOffset (nbytes-buf_remaining)) with
    | none => (Result.RAISE .ioError "seek() failed", fromFileDescriptor s.fd_)
    | some fd => (.ok nbytes, fromFileDescriptor fd)

def eof : Sys FileInputStream Bool := do
  let _ ← fill
  Sys.reads fun s => .ok (decide (s.buf_.length ≤ s.buf_pos_))

def seekTo (offset : Nat) : Sys FileInputStream Unit := fun s =>
  match s.fd_.lseek (toOffset offset) with
  | none => (Result.RAISE .ioError "lseek() failed", fromFileDescriptor s.fd_)
  | some fd => (.ok (), fromFileDescriptor fd)

def rewind : Sys FileInputStream Unit := seekTo 0

/-- What is left to read: the rest of the buffer, and what the descriptor has behind it. -/
def unread (s : FileInputStream) : Bytes :=
  s.buf_.drop s.buf_pos_ ++ s.fd_.content.drop s.fd_.offset

instance : RewindableInputStream FileInputStream where
  readNextByte := readNextByte
  readNextBytes := readNextBytes
  skipNextBytes := skipNextBytes
  eof := eof
  rewind := rewind
  bytesLeft s := s.unread.length

/- What a call does to the bytes that are left. -/

/-- The call returns `a`, leaves `left` to read, and the file as it is. -/
def Leaves {α : Type} (x : Sys FileInputStream α) (s : FileInputStream) (a : α) (left : Bytes) :
    Prop :=
  ∃ s', x s = (.ok a, s') ∧ s'.unread = left ∧ s'.fd_.content = s.fd_.content

/-- The buffer has something, or everything has been read. -/
structure Filled (s : FileInputStream) (filled : Bool) (s' : FileInputStream) : Prop where
  ok : fill s = (.ok filled, s')
  unread : s'.unread = s.unread
  content : s'.fd_.content = s.fd_.content
  room : filled = true ↔ s'.buf_pos_ < s'.buf_.length
  end_ : filled = true ↔ s.unread ≠ []

theorem exists_filled (s : FileInputStream) : ∃ filled s', Filled s filled s' := by
  by_cases hbuf : s.buf_.length ≤ s.buf_pos_
  · have hunread : s.unread = s.fd_.content.drop s.fd_.offset := by
      rw [unread, List.drop_eq_nil_of_le hbuf, List.nil_append]
    refine ⟨_, _, ⟨if_pos hbuf, ?_, rfl, decide_eq_true_iff, ?_⟩⟩
    · rw [hunread]
      exact s.fd_.read_append 8192
    · rw [hunread, decide_eq_true_iff]
      exact s.fd_.read_length_pos 8192
  · have hne : s.buf_.drop s.buf_pos_ ≠ [] := fun h => hbuf (List.drop_eq_nil_iff.1 h)
    have hunread : s.unread ≠ [] := fun h => hne (List.append_eq_nil_iff.1 h).1
    exact ⟨true, s, if_neg hbuf, rfl, rfl, iff_of_true rfl (Nat.not_le.1 hbuf),
      iff_of_true rfl hunread⟩

theorem Filled.eq_nil {s t : FileInputStream} {filled : Bool} (h : Filled s filled t)
    (hroom : ¬t.buf_pos_ < t.buf_.length) : s.unread = [] := by
  by_contra hne
  exact hroom (h.room.1 (h.end_.2 hne))

theorem readNextByte_leaves (s : FileInputStream) :
    Leaves readNextByte s s.unread.head? s.unread.tail := by
  obtain ⟨filled, t, ht⟩ := exists_filled s
  by_cases hroom : t.buf_pos_ < t.buf_.length
  · have hunread : s.unread = t.buf_[t.buf_pos_] ::
        (t.buf_.drop (t.buf_pos_+1) ++ t.fd_.content.drop t.fd_.offset) := by
      rw [← ht.unread, unread, List.drop_eq_getElem_cons hroom, List.cons_append]
    rw [hunread]
    exact ⟨_, (Sys.bind_of_ok ht.ok).trans (dif_pos hroom), rfl, ht.content⟩
  · rw [ht.eq_nil hroom]
    exact ⟨t, (Sys.bind_of_ok ht.ok).trans (dif_neg hroom), ht.unread.trans (ht.eq_nil hroom),
      ht.content⟩

theorem eof_leaves (s : FileInputStream) : Leaves eof s s.unread.isEmpty s.unread := by
  obtain ⟨filled, t, ht⟩ := exists_filled s
  have hempty : decide (t.buf_.length ≤ t.buf_pos_) = s.unread.isEmpty := by
    rw [Bool.eq_iff_iff, decide_eq_true_iff, List.isEmpty_iff, ← Nat.not_lt, ← ht.room, ht.end_,
      not_not]
  exact ⟨t, hempty ▸ Sys.bind_of_ok ht.ok, ht.unread, ht.content⟩

/-- The part of the bytes that is in the buffer. -/
theorem copy_leaves (s : FileInputStream) (n : Nat) :
    ∃ k, k ≤ n ∧ (s.buf_pos_ < s.buf_.length → 0 < n → 0 < k) ∧ k ≤ s.unread.length ∧
      Leaves (copy n) s (s.unread.take k) (s.unread.drop k) := by
  have hle := s.buf_pos_le
  have hlen : (s.buf_.drop s.buf_pos_).length = s.buf_.length-s.buf_pos_ := List.length_drop
  refine ⟨min (s.buf_.length-s.buf_pos_) n, by omega, by omega, ?_, ?_⟩
  · rw [unread, List.length_append]
    omega
  · have htake : s.unread.take (min (s.buf_.length-s.buf_pos_) n) =
        (s.buf_.drop s.buf_pos_).take (min (s.buf_.length-s.buf_pos_) n) :=
      List.take_append_of_le_length (by omega)
    rw [htake]
    refine ⟨_, rfl, ?_, rfl⟩
    rw [unread, unread, List.drop_append_of_le_length (by omega), List.drop_drop]

theorem readNextBytesLoop_leaves {fuel n : Nat} (hfuel : n < fuel) (s : FileInputStream) :
    Leaves (readNextBytesLoop fuel n) s (s.unread.take n) (s.unread.drop n) := by
  induction fuel generalizing n s with
  | zero => omega
  | succ fuel ih =>
    rw [readNextBytesLoop]
    by_cases hn : n = 0
    · rw [if_pos hn, hn]
      exact ⟨s, rfl, rfl, rfl⟩
    · rw [if_neg hn]
      obtain ⟨filled, t, ht⟩ := exists_filled s
      cases filled with
      | false =>
        have hnil : s.unread = [] := by
          by_contra hne
          cases ht.end_.2 hne
        rw [hnil, List.take_nil, List.drop_nil]
        exact ⟨t, Sys.bind_of_ok ht.ok, ht.unread.trans hnil, ht.content⟩
      | true =>
        obtain ⟨k, hkn, hpos, hlen, u, hu, hleft, hcontent⟩ := copy_leaves t n
        rw [ht.unread] at hlen hu hleft
        have hk := hpos (ht.room.1 rfl) (Nat.pos_of_ne_zero hn)
        have hlength : (s.unread.take k).length = k := by
          rw [List.length_take]
          omega
        obtain ⟨v, hv, hrest, hcontent'⟩ := ih (by omega : n-k < fuel) u
        rw [hleft] at hv hrest
        refine ⟨v, ?_, ?_, (hcontent'.trans hcontent).trans ht.content⟩
        · refine (Sys.bind_of_ok ht.ok).trans ((Sys.bind_of_ok hu).trans ?_)
          rw [hlength]
          refine (Sys.bind_of_ok hv).trans ?_
          rw [← List.take_add, Nat.add_sub_cancel' hkn]
          rfl
        · rw [hrest, List.drop_drop]
          congr 1
          omega

theorem readNextBytes_leaves (s : FileInputStream) (n : Nat) :
    Leaves (readNextBytes n) s (s.unread.take n) (s.unread.drop n) :=
  readNextBytesLoop_leaves (Nat.lt_succ_self n) s

/-- The bytes that are skipped are in the buffer, or in front of the position in the file. -/
theorem skipNextBytes_leaves (s : FileInputStream) {n : Nat} (h : n ≤ s.unread.length) :
    Leaves (skipNextBytes n) s n (s.unread.drop n) := by
  have hle := s.buf_pos_le
  have hlen : (s.buf_.drop s.buf_pos_).length = s.buf_.length-s.buf_pos_ := List.length_drop
  by_cases hn : n ≤ s.buf_.length-s.buf_pos_
  · refine ⟨_, dif_pos hn, ?_, rfl⟩
    rw [unread, unread, List.drop_append_of_le_length (by omega), List.drop_drop]
  · have hroom : s.fd_.offset+(n-(s.buf_.length-s.buf_pos_)) ≤ s.fd_.content.length := by
      rw [unread, List.length_append, hlen, List.length_drop] at h
      omega
    have hmax := s.fd_.maxbytes_lt
    have hcontent := s.fd_.content_le
    have hoffset : (s.fd_.offset : Int)+toOffset (n-(s.buf_.length-s.buf_pos_)) =
        ((s.fd_.offset+(n-(s.buf_.length-s.buf_pos_)) : Nat) : Int) := by
      rw [toOffset, if_pos (by omega), Int.natCast_add]
    refine ⟨fromFileDescriptor { s.fd_ with offset := s.fd_.offset+(n-(s.buf_.length-s.buf_pos_)) },
      ?_, ?_, rfl⟩
    · rw [skipNextBytes, dif_neg hn, hoffset, s.fd_.lseek_eq_some hroom]
    · have hnil : (s.buf_.drop s.buf_pos_).drop n = [] := List.drop_eq_nil_of_le (by omega)
      change [] ++ s.fd_.content.drop (s.fd_.offset+(n-(s.buf_.length-s.buf_pos_))) = _
      rw [unread, List.drop_append, hlen, hnil, ← List.drop_drop]

/-- The file, and not what was left of it, whatever the position. -/
theorem rewind_leaves (s : FileInputStream) : Leaves rewind s () s.fd_.content := by
  have hzero : s.fd_.lseek (toOffset 0) = some { s.fd_ with offset := 0 } :=
    s.fd_.lseek_eq_some (Nat.zero_le _)
  refine ⟨fromFileDescriptor { s.fd_ with offset := 0 }, ?_, List.drop_zero, rfl⟩
  rw [rewind, seekTo, hzero]

theorem delivers : Delivers unread where
  readNextByte s := by
    obtain ⟨t, hok, ht, -⟩ := readNextByte_leaves s
    exact ⟨t, hok, ht⟩
  readNextBytes n s := by
    obtain ⟨t, hok, ht, -⟩ := readNextBytes_leaves s n
    exact ⟨t, hok, ht⟩
  eof s := by
    obtain ⟨t, hok, ht, -⟩ := eof_leaves s
    exact ⟨t, hok, ht⟩
  length_le _ := le_rfl

end FileInputStream
/- Calls, one after the other. -/

inductive Call where
  | readNextByte
  | readNextBytes (n_bytes : Nat)
  | skipNextBytes (n_bytes : Nat)
  | eof
  | rewind
  deriving DecidableEq

inductive Answer where
  | byte (byte : Option UInt8)
  | bytes (data : Bytes)
  | skipped (n_bytes : Nat)
  | ended (eof : Bool)
  | rewound
  deriving DecidableEq

section calls
variable {σ : Type} [RewindableInputStream σ]

def answer : Call → Sys σ Answer
  | .readNextByte => do return .byte (← RewindableInputStream.readNextByte)
  | .readNextBytes n => do return .bytes (← RewindableInputStream.readNextBytes n)
  | .skipNextBytes n => do return .skipped (← RewindableInputStream.skipNextBytes n)
  | .eof => do return .ended (← RewindableInputStream.eof)
  | .rewind => do
    RewindableInputStream.rewind
    return .rewound

def answers : List Call → σ → List (Result Answer)
  | [], _ => []
  | call :: calls, s => (answer call s).1 :: answers calls (answer call s).2

end calls

/-- The answer of a stream that has `left` to read. -/
def expected (left : Bytes) : Call → Answer
  | .readNextByte => .byte left.head?
  | .readNextBytes n => .bytes (left.take n)
  | .skipNextBytes n => .skipped (min n left.length)
  | .eof => .ended left.isEmpty
  | .rewind => .rewound

/-- What is left of the string behind the call. -/
def after (string left : Bytes) : Call → Bytes
  | .readNextByte => left.tail
  | .readNextBytes n => left.drop n
  | .skipNextBytes n => left.drop n
  | .eof => left
  | .rewind => string

/-- No call skips more bytes than are left. -/
def SkipsFit (string : Bytes) : Bytes → List Call → Prop
  | _, [] => True
  | left, call :: calls =>
    (∀ n, call = .skipNextBytes n → n ≤ left.length) ∧ SkipsFit string (after string left call) calls

namespace StringInputStream

/-- The position stays in the string. -/
structure Stays (s t : StringInputStream) : Prop where
  str : t.str_ = s.str_
  cur : s.cur_ ≤ s.str_.length → t.cur_ ≤ t.str_.length

theorem readNextByte_stays : readNextByte.Keeps Stays := by
  intro s
  rw [readNextByte]
  cases h : s.str_[s.cur_]? with
  | some byte => exact ⟨rfl, fun _ => (List.getElem?_eq_some_iff.1 h).1⟩
  | none => exact ⟨rfl, id⟩

theorem Stays.trans (s t u : StringInputStream) (h : Stays s t) (h' : Stays t u) : Stays s u :=
  ⟨h'.str.trans h.str, fun hle => h'.cur (h.cur hle)⟩

theorem readNextBytes_stays (n : Nat) :
    (InputStream.readNextBytesLoop readNextByte n).Keeps Stays := by
  induction n with
  | zero => exact fun s => ⟨rfl, id⟩
  | succ n ih =>
    refine Sys.Keeps.bind Stays.trans readNextByte_stays fun byte => ?_
    cases byte with
    | none => exact fun s => ⟨rfl, id⟩
    | some byte => exact Sys.Keeps.bind Stays.trans ih fun rest s => ⟨rfl, id⟩

variable {s : StringInputStream} (hcur : s.cur_ ≤ s.str_.length) (hlen : s.str_.length < 2^63)
include hcur hlen

theorem skipNextBytes_eq {n : Nat} (hn : n < 2^63) :
    skipNextBytes n s =
      (.ok (min n s.unread.length), { s with cur_ := s.cur_+min n s.unread.length }) := by
  have hsum : (s.cur_+n) % 2^64 = s.cur_+n := Nat.mod_eq_of_lt (by omega)
  have hskipped : (if s.cur_+n > s.str_.length then s.str_.length-s.cur_ else n) =
      min n s.unread.length := by
    rw [unread, List.length_drop]
    split <;> omega
  have hnext : (s.cur_+min n s.unread.length) % 2^64 = s.cur_+min n s.unread.length :=
    Nat.mod_eq_of_lt (by omega)
  rw [skipNextBytes, hsum]
  simp only [hskipped, hnext]

theorem answer_eq {call : Call} (hcall : ∀ n, call = .skipNextBytes n → n < 2^63) :
    ∃ t, answer call s = (.ok (expected s.unread call), t) ∧
      t.unread = after s.str_ s.unread call ∧ Stays s t := by
  cases call with
  | readNextByte =>
    obtain ⟨t, hok, ht⟩ := readNextByte_eq s
    have hstays := readNextByte_stays s
    rw [hok] at hstays
    exact ⟨t, Sys.bind_of_ok hok, ht, hstays⟩
  | readNextBytes n =>
    obtain ⟨t, hok, ht⟩ := readNextBytes_eq n s
    have hstays := readNextBytes_stays n s
    rw [hok] at hstays
    exact ⟨t, Sys.bind_of_ok hok, ht, hstays⟩
  | skipNextBytes n =>
    refine ⟨_, Sys.bind_of_ok (skipNextBytes_eq hcur hlen (hcall n rfl)), ?_, rfl, fun _ => ?_⟩
    · have hlength : s.unread.length = s.str_.length-s.cur_ := List.length_drop
      change s.str_.drop (s.cur_+min n s.unread.length) = s.unread.drop n
      rw [← List.drop_drop]
      change s.unread.drop (min n s.unread.length) = s.unread.drop n
      by_cases hle : n ≤ s.unread.length
      · rw [Nat.min_eq_left hle]
      · rw [Nat.min_eq_right (by omega), List.drop_length, List.drop_eq_nil_of_le (by omega)]
    · change s.cur_+min n s.unread.length ≤ s.str_.length
      rw [unread, List.length_drop]
      omega
  | eof =>
    obtain ⟨t, hok, ht⟩ := delivers.eof s
    have hsame : s = t := congrArg Prod.snd hok
    exact ⟨t, Sys.bind_of_ok hok, ht, by rw [← hsame], by rw [← hsame]; exact id⟩
  | rewind => exact ⟨{ s with cur_ := 0 }, rfl, rfl, rfl, fun _ => Nat.zero_le _⟩

end StringInputStream

namespace FileInputStream
variable {s : FileInputStream}

theorem answer_leaves {call : Call}
    (hcall : ∀ n, call = .skipNextBytes n → n ≤ s.unread.length) :
    Leaves (answer call) s (expected s.unread call) (after s.fd_.content s.unread call) := by
  cases call with
  | readNextByte =>
    obtain ⟨t, hok, ht⟩ := readNextByte_leaves s
    exact ⟨t, Sys.bind_of_ok hok, ht⟩
  | readNextBytes n =>
    obtain ⟨t, hok, ht⟩ := readNextBytes_leaves s n
    exact ⟨t, Sys.bind_of_ok hok, ht⟩
  | skipNextBytes n =>
    obtain ⟨t, hok, ht⟩ := skipNextBytes_leaves s (hcall n rfl)
    rw [expected, Nat.min_eq_left (hcall n rfl)]
    exact ⟨t, Sys.bind_of_ok hok, ht⟩
  | eof =>
    obtain ⟨t, hok, ht⟩ := eof_leaves s
    exact ⟨t, Sys.bind_of_ok hok, ht⟩
  | rewind =>
    obtain ⟨t, hok, ht⟩ := rewind_leaves s
    exact ⟨t, Sys.bind_of_ok hok, ht⟩

/-- A seek behind the end of the file does not say so. -/
theorem answer_skip_ne {n : Nat} (h : ¬n ≤ s.unread.length) :
    (answer (.skipNextBytes n) s).1 ≠ .ok (expected s.unread (.skipNextBytes n)) := by
  have hbuf : ¬n ≤ s.buf_.length-s.buf_pos_ := by
    intro hle
    rw [unread, List.length_append, List.length_drop] at h
    omega
  intro heq
  rw [expected, Nat.min_eq_right (by omega)] at heq
  cases hseek : s.fd_.lseek (s.fd_.offset+toOffset (n-(s.buf_.length-s.buf_pos_))) with
  | none =>
    have hskip : skipNextBytes n s =
        (Result.RAISE .ioError "seek() failed", fromFileDescriptor s.fd_) := by
      rw [skipNextBytes, dif_neg hbuf, hseek]
    have hanswer : answer (.skipNextBytes n) s = _ := Sys.bind_of_raise hskip
    rw [hanswer] at heq
    cases heq
  | some fd =>
    have hskip : skipNextBytes n s = (.ok n, fromFileDescriptor fd) := by
      rw [skipNextBytes, dif_neg hbuf, hseek]
    have hanswer : answer (.skipNextBytes n) s = _ := Sys.bind_of_ok hskip
    rw [hanswer] at heq
    cases heq
    exact h (Nat.le_refl _)

end FileInputStream

/-- Two streams with the same bytes left answer alike, as long as what is skipped is there. -/
theorem answers_eq_iff_of_unread {s : FileInputStream} {u : StringInputStream} {calls : List Call}
    (hunread : u.unread = s.unread) (hstr : u.str_ = s.fd_.content)
    (hcur : u.cur_ ≤ u.str_.length) (hcalls : ∀ n, .skipNextBytes n ∈ calls → n < 2^63) :
    answers calls s = answers calls u ↔ SkipsFit s.fd_.content s.unread calls := by
  induction calls generalizing s u with
  | nil => exact iff_of_true rfl trivial
  | cons call calls ih =>
    have hlen : u.str_.length < 2^63 := by
      rw [hstr]
      exact Nat.lt_of_le_of_lt s.fd_.content_le s.fd_.maxbytes_lt
    obtain ⟨u', hu, hleft, hstays⟩ := @StringInputStream.answer_eq u hcur hlen call fun n hn =>
      hcalls n (hn ▸ List.mem_cons_self)
    rw [hunread] at hu hleft
    rw [answers, answers, SkipsFit, hu, List.cons.injEq]
    by_cases hfits : ∀ n, call = .skipNextBytes n → n ≤ s.unread.length
    · obtain ⟨s', hs, hleft', hcontent⟩ := FileInputStream.answer_leaves hfits
      have hrest := ih (s := s') (u := u') (by rw [hleft, hleft', hstr])
        (by rw [hstays.str, hstr, hcontent]) (hstays.cur hcur)
        fun n hn => hcalls n (List.mem_cons_of_mem call hn)
      rw [hs, and_iff_right rfl, and_iff_right hfits, hrest, hcontent, hleft']
    · refine iff_of_false (fun h => hfits ?_) fun h => hfits h.1
      rintro n rfl
      by_contra hnot
      exact FileInputStream.answer_skip_ne hnot h.1

/-- Over a file of which nothing has been read, the stream answers like one over the string of its
bytes, for as long as no call skips more bytes than are left. -/
theorem answers_eq_iff (s : FileInputStream) (hs : s.unread = s.fd_.content) (calls : List Call)
    (hcalls : ∀ n, .skipNextBytes n ∈ calls → n < 2^63) :
    answers calls s = answers calls (StringInputStream.fromString s.fd_.content) ↔
      SkipsFit s.fd_.content s.fd_.content calls := by
  have hiff := answers_eq_iff_of_unread (s := s) (u := .fromString s.fd_.content)
    (by rw [hs, StringInputStream.unread_fromString]) rfl (Nat.zero_le _) hcalls
  rwa [hs] at hiff

/-- Five bytes, read three at a time. -/
def shortFile : Descriptor where
  content := lit "abcde"
  offset := 0
  calls := 0
  sizes _ := 3
  maxbytes := 2^42
  content_le := by decide
  maxbytes_lt := by decide

theorem shortFile_answers :
    answers [.readNextByte, .skipNextBytes 3, .readNextBytes 9, .eof, .rewind, .skipNextBytes 5, .eof]
        (FileInputStream.fromFileDescriptor shortFile) =
      answers [.readNextByte, .skipNextBytes 3, .readNextBytes 9, .eof, .rewind, .skipNextBytes 5, .eof]
        (StringInputStream.fromString (lit "abcde")) := by
  refine (answers_eq_iff (.fromFileDescriptor shortFile) rfl _ ?_).2 ?_
  · simp
  · simp [SkipsFit, after, shortFile, FileInputStream.fromFileDescriptor, lit]

/-- Skipping six bytes of five returns six. -/
theorem shortFile_answers_ne :
    ¬∀ (s : FileInputStream) (calls : List Call), s.unread = s.fd_.content →
      (∀ n, .skipNextBytes n ∈ calls → n < 2^63) →
        answers calls s = answers calls (StringInputStream.fromString s.fd_.content) := by
  intro h
  have heq := h (.fromFileDescriptor shortFile) [.skipNextBytes 6] rfl (by simp)
  have hfile : answers [.skipNextBytes 6] (FileInputStream.fromFileDescriptor shortFile) =
      [.ok (.skipped 6)] := by rfl
  have hstring : answers [.skipNextBytes 6] (StringInputStream.fromString (lit "abcde")) =
      [.ok (.skipped 5)] := by rfl
  cases hfile.symm.trans (heq.trans hstring)

end Stx.Io
