import Stx.Base

/-! `io/BufferedOutputStream.{h,cc}`, with the allocation of a `stx::Buffer`. The stream below takes
every byte that is passed to it, block by block. -/
namespace Stx.Io

/-- `stx::Buffer`. The capacity is never less than the logical size. -/
structure AllocBuffer where
  data_ : Bytes
  alloc_ : Nat
  size_le : data_.length ≤ alloc_

namespace AllocBuffer

def empty : AllocBuffer := ⟨[], 0, List.length_nil.le⟩

def size (buf : AllocBuffer) : Nat := buf.data_.length
def capacity (buf : AllocBuffer) : Nat := buf.alloc_
def remaining (buf : AllocBuffer) : Nat := buf.alloc_-buf.size

/-- The argument is what the allocation grows by. -/
def reserve (buf : AllocBuffer) (size : Nat) : AllocBuffer :=
  ⟨buf.data_, buf.alloc_+size, Nat.le_add_right_of_le buf.size_le⟩

/-- The allocation that `append` makes room in. -/
def grown (buf : AllocBuffer) (size : Nat) : AllocBuffer :=
  if buf.alloc_ < buf.size+size then buf.reserve (buf.size+size-buf.alloc_) else buf

theorem size_add_le (buf : AllocBuffer) (size : Nat) :
    (buf.grown size).data_.length+size ≤ (buf.grown size).alloc_ := by
  have hle := buf.size_le
  unfold grown
  split
  · simp only [reserve, AllocBuffer.size]
    omega
  · next h => exact Nat.not_lt.1 h

def append (buf : AllocBuffer) (data : Bytes) : AllocBuffer :=
  ⟨(buf.grown data.length).data_ ++ data, (buf.grown data.length).alloc_, by
    rw [List.length_append]
    exact buf.size_add_le data.length⟩

def clear (buf : AllocBuffer) : AllocBuffer := ⟨[], buf.alloc_, Nat.zero_le _⟩

@[simp] theorem data_append (buf : AllocBuffer) (data : Bytes) :
    (buf.append data).data_ = buf.data_ ++ data := by
  have hgrown : (buf.grown data.length).data_ = buf.data_ := by
    unfold grown
    split <;> rfl
  exact congrArg (· ++ data) hgrown

/-- Nothing is allocated for what there is room for. -/
theorem alloc_append {buf : AllocBuffer} {data : Bytes} (h : data.length ≤ buf.remaining) :
    (buf.append data).alloc_ = buf.alloc_ := by
  have hle := buf.size_le
  have hgrown : buf.grown data.length = buf := by
    refine if_neg (Nat.not_lt.2 ?_)
    simp only [remaining, size] at h ⊢
    omega
  change (buf.grown data.length).alloc_ = buf.alloc_
  rw [hgrown]

end AllocBuffer

/-- `os_` holds the blocks that were passed to the stream below. -/
structure BufferedOutputStream where
  os_ : List Bytes
  buf_ : AllocBuffer

namespace BufferedOutputStream

def fromStream (buffer_size : Nat) : BufferedOutputStream :=
  ⟨[], AllocBuffer.empty.reserve buffer_size⟩

def flush (s : BufferedOutputStream) : BufferedOutputStream :=
  if s.buf_.size = 0 then s else ⟨s.os_ ++ [s.buf_.data_], s.buf_.clear⟩

/-- The loop that passes whole blocks on. It returns what is consumed at its end. -/
def passLoop (data : Bytes) (capacity : Nat) :
    Nat → List Bytes → Nat → Result (List Bytes × Nat)
  | 0, _, _ => .diverge
  | fuel+1, os, consumed =>
    if data.length-consumed > capacity then
      passLoop data capacity fuel (os ++ [(data.drop consumed).take capacity]) (consumed+capacity)
    else .ok (os, consumed)

/-- What `write` does with data that there is no room for. The buffer is filled up first. -/
def writeThrough (s : BufferedOutputStream) (data : Bytes) : Result (Nat × BufferedOutputStream) :=
  let consumed := s.buf_.remaining
  let filled : BufferedOutputStream :=
    if s.buf_.remaining > 0 then ⟨s.os_, s.buf_.append (data.take consumed)⟩ else s
  let s := filled.flush
  do
    let (os, consumed) ← passLoop data s.buf_.capacity (data.length+1) s.os_ consumed
    let buf := if consumed ≠ data.length then s.buf_.append (data.drop consumed) else s.buf_
    pure (data.length, ⟨os, buf⟩)

def write (s : BufferedOutputStream) (data : Bytes) : Result (Nat × BufferedOutputStream) :=
  if data.length ≤ s.buf_.remaining then .ok (data.length, ⟨s.os_, s.buf_.append data⟩)
  else s.writeThrough data

/-- A call, with its data. -/
inductive Call where
  | write (data : Bytes)
  | flush
  deriving DecidableEq

/-- What a call adds to all that was written. -/
def Call.data : Call → Bytes
  | write data => data
  | flush => []

/-- What a call returns, if it returns a number. -/
def call (s : BufferedOutputStream) : Call → Result (Option Nat × BufferedOutputStream)
  | .write data => do
    let (n, s) ← s.write data
    pure (some n, s)
  | .flush => .ok (none, s.flush)

def run (s : BufferedOutputStream) : List Call → Result (List (Option Nat) × BufferedOutputStream)
  | [] => .ok ([], s)
  | c :: cs => do
    let (answer, s) ← s.call c
    let (answers, s) ← s.run cs
    pure (answer :: answers, s)

/-- All that was written, below and in the buffer. -/
def written (s : BufferedOutputStream) : Bytes := s.os_.flatten ++ s.buf_.data_

/-- The number that the writes are expected to return. -/
def Call.size : Call → Option Nat
  | write data => some data.length
  | flush => none

theorem flush_spec (s : BufferedOutputStream) :
    s.flush.os_.flatten = s.written ∧ s.flush.buf_.data_ = [] ∧
      s.flush.buf_.alloc_ = s.buf_.alloc_ := by
  unfold flush
  by_cases h : s.buf_.size = 0
  · have hempty : s.buf_.data_ = [] := List.eq_nil_of_length_eq_zero h
    rw [if_pos h, written, hempty]
    exact ⟨(List.append_nil _).symm, rfl, rfl⟩
  · rw [if_neg h]
    exact ⟨by simp [written], rfl, rfl⟩

/-- The loop passes on what is in front of the place where it ends, and leaves no more than the
capacity behind it. -/
theorem passLoop_spec {data : Bytes} {capacity : Nat} (hpos : 0 < capacity) {fuel : Nat}
    {os : List Bytes} {consumed : Nat} (hfuel : data.length-consumed < fuel)
    (hle : consumed ≤ data.length) :
    ∃ os' consumed', passLoop data capacity fuel os consumed = .ok (os', consumed') ∧
      os'.flatten ++ data.drop consumed' = os.flatten ++ data.drop consumed ∧
      consumed' ≤ data.length ∧ data.length-consumed' ≤ capacity := by
  induction fuel generalizing os consumed with
  | zero => omega
  | succ fuel ih =>
    rw [passLoop]
    by_cases hmore : data.length-consumed > capacity
    · rw [if_pos hmore]
      obtain ⟨os', consumed', hloop, hbytes, hend, hrest⟩ :=
        @ih (os ++ [(data.drop consumed).take capacity]) (consumed+capacity) (by omega) (by omega)
      refine ⟨os', consumed', hloop, hbytes.trans ?_, hend, hrest⟩
      rw [List.flatten_append, List.flatten_singleton, List.append_assoc, ← List.drop_drop,
        List.take_append_drop]
    · rw [if_neg hmore]
      exact ⟨os, consumed, rfl, rfl, hle, by omega⟩

theorem writeThrough_spec {s : BufferedOutputStream} (hpos : 0 < s.buf_.alloc_) {data : Bytes}
    (hroom : s.buf_.remaining < data.length) :
    ∃ s' : BufferedOutputStream, s.writeThrough data = .ok (data.length, s') ∧
      s'.written = s.written ++ data ∧ s'.buf_.alloc_ = s.buf_.alloc_ := by
  unfold writeThrough
  simp only
  generalize hfilled : (if s.buf_.remaining > 0 then
    (⟨s.os_, s.buf_.append (data.take s.buf_.remaining)⟩ : BufferedOutputStream) else s) = filled
  have hfill : filled.written = s.written ++ data.take s.buf_.remaining ∧
      filled.buf_.alloc_ = s.buf_.alloc_ := by
    subst hfilled
    by_cases hzero : s.buf_.remaining > 0
    · rw [if_pos hzero]
      exact ⟨by simp [written], AllocBuffer.alloc_append (by simp)⟩
    · rw [if_neg hzero, Nat.eq_zero_of_not_pos hzero]
      exact ⟨by simp, rfl⟩
  obtain ⟨hbelow, hempty, halloc⟩ := filled.flush_spec
  have hcapacity : filled.flush.buf_.capacity = s.buf_.alloc_ := halloc.trans hfill.2
  obtain ⟨os, consumed, hloop, hbytes, hend, hrest⟩ :=
    @passLoop_spec data s.buf_.alloc_ hpos (data.length+1) filled.flush.os_ s.buf_.remaining
      (Nat.lt_succ_of_le (Nat.sub_le _ _)) (Nat.le_of_lt hroom)
  have hjoin : os.flatten ++ data.drop consumed = s.written ++ data := by
    rw [hbytes, hbelow, hfill.1, List.append_assoc, List.take_append_drop]
  rw [hcapacity, hloop]
  refine ⟨_, rfl, ?_, ?_⟩
  · rw [written, ← hjoin]
    by_cases hmore : consumed ≠ data.length
    · rw [if_pos hmore, AllocBuffer.data_append, hempty]
      rfl
    · rw [if_neg hmore, hempty, Decidable.not_not.1 hmore, List.drop_length]
  · by_cases hmore : consumed ≠ data.length
    · rw [if_pos hmore]
      refine (AllocBuffer.alloc_append ?_).trans hcapacity
      rw [List.length_drop, AllocBuffer.remaining, AllocBuffer.size, hempty]
      exact Nat.le_trans hrest (Nat.le_of_eq hcapacity.symm)
    · rw [if_neg hmore]
      exact hcapacity

theorem write_spec {s : BufferedOutputStream} (hpos : 0 < s.buf_.alloc_) (data : Bytes) :
    ∃ s' : BufferedOutputStream, s.write data = .ok (data.length, s') ∧
      s'.written = s.written ++ data ∧ s'.buf_.alloc_ = s.buf_.alloc_ := by
  unfold write
  by_cases hroom : data.length ≤ s.buf_.remaining
  · rw [if_pos hroom]
    exact ⟨_, rfl, by simp [written], AllocBuffer.alloc_append hroom⟩
  · rw [if_neg hroom]
    exact writeThrough_spec hpos (Nat.not_le.1 hroom)

/-- One call adds its data to what was written, and keeps the capacity. -/
theorem call_spec {s : BufferedOutputStream} (hpos : 0 < s.buf_.alloc_) (c : Call) :
    ∃ s' : BufferedOutputStream, s.call c = .ok (c.size, s') ∧
      s'.written = s.written ++ c.data ∧ s'.buf_.alloc_ = s.buf_.alloc_ := by
  cases c with
  | write data =>
    obtain ⟨s', hwrite, hwritten, halloc⟩ := write_spec hpos data
    exact ⟨s', by rw [call, hwrite]; rfl, hwritten, halloc⟩
  | flush =>
    obtain ⟨hbelow, hempty, halloc⟩ := s.flush_spec
    refine ⟨s.flush, rfl, ?_, halloc⟩
    rw [written, hempty, hbelow, Call.data]

theorem run_spec {s : BufferedOutputStream} (hpos : 0 < s.buf_.alloc_) (cs : List Call) :
    ∃ s' : BufferedOutputStream, s.run cs = .ok (cs.map Call.size, s') ∧
      s'.written = s.written ++ cs.flatMap Call.data ∧ s'.buf_.alloc_ = s.buf_.alloc_ := by
  induction cs generalizing s with
  | nil => exact ⟨s, rfl, (List.append_nil _).symm, rfl⟩
  | cons c cs ih =>
    obtain ⟨s₁, hcall, hwritten, halloc⟩ := call_spec hpos c
    obtain ⟨s₂, hrun, hwritten', halloc'⟩ := ih (halloc ▸ hpos)
    refine ⟨s₂, by simp [run, hcall, hrun], ?_, halloc'.trans halloc⟩
    rw [hwritten', hwritten, List.flatMap_cons, List.append_assoc]

/-- The stream below has got all that was written but for what is in the buffer, which never
outgrows its first capacity. -/
theorem transparent {buffer_size : Nat} (hpos : 0 < buffer_size) (cs : List Call) :
    ∃ s : BufferedOutputStream, (fromStream buffer_size).run cs = .ok (cs.map Call.size, s) ∧
      s.os_.flatten ++ s.buf_.data_ = cs.flatMap Call.data ∧ s.buf_.size ≤ buffer_size ∧
      s.buf_.capacity = buffer_size ∧ s.flush.buf_.size = 0 := by
  have hfirst : (fromStream buffer_size).buf_.alloc_ = buffer_size := Nat.zero_add buffer_size
  obtain ⟨s, hrun, hwritten, halloc⟩ := run_spec (hfirst.symm ▸ hpos) cs
  rw [hfirst] at halloc
  exact ⟨s, hrun, hwritten, halloc ▸ s.buf_.size_le, halloc,
    List.length_eq_zero_iff.2 s.flush_spec.2.1⟩

theorem transparent_at_three_bytes :
    ∃ s : BufferedOutputStream,
      (fromStream 3).run [.write (lit "ab"), .write (lit "cdefgh"), .flush, .write []] =
        .ok ([some 2, some 6, none, some 0], s) ∧
      s.os_.flatten ++ s.buf_.data_ = lit "abcdefgh" ∧ s.buf_.size ≤ 3 ∧ s.buf_.capacity = 3 ∧
      s.flush.buf_.size = 0 :=
  transparent (by decide) [.write (lit "ab"), .write (lit "cdefgh"), .flush, .write []]

end BufferedOutputStream
end Stx.Io
