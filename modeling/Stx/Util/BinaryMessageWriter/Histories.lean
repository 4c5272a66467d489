import Stx.Util.BinaryMessageWriter

/-! Histories of a `BinaryMessageWriter` that is appended to, written over and cleared, against the
byte string that it stands for. -/
namespace Stx.Util.BinaryMessageWriter

/- The sum is one of `size_t`, and `size_` is what the writer was made with. -/
def update (w : BinaryMessageWriter) (offset : Nat) (data : Bytes) : Result BinaryMessageWriter :=
  if (offset+data.length) % 2^64 > w.size_ then
    Result.RAISE .bufferOverflowError "update exceeds buffer boundary"
  else .ok { w with ptr := copy w.ptr offset data }

def clear (w : BinaryMessageWriter) : BinaryMessageWriter := { w with used := 0 }

inductive Call where
  | append (data : Bytes)
  | update (offset : Nat) (data : Bytes)
  | clear
  deriving DecidableEq

/-- The string with `data` written over it from `offset` on. It keeps its length. -/
def overwrite (s : Bytes) (offset : Nat) (data : Bytes) : Bytes :=
  s.take offset ++ data.take (s.length-offset) ++ s.drop (offset+data.length)

/-- From the writer on, every call does what it does to the string `s`: the copies are inside of the
block, the writer holds the string, and what lies inside of the string can be written over. An
update that raises changes nothing. -/
def Lawful : BinaryMessageWriter → Bytes → List Call → Prop
  | w, s, [] => w.bytes = s ∧ w.size = s.length
  | w, s, .append data :: calls =>
    (w.bytes = s ∧ w.size = s.length) ∧
      ∃ w', w.append data = .ok w' ∧ w.used+data.length ≤ w'.alloc ∧ Lawful w' (s ++ data) calls
  | w, s, .update offset data :: calls =>
    (w.bytes = s ∧ w.size = s.length) ∧
      ((∃ w', w.update offset data = .ok w' ∧ offset+data.length ≤ w'.alloc ∧
          Lawful w' (overwrite s offset data) calls) ∨
        (s.length < offset+data.length ∧ (∃ e, w.update offset data = .raise e) ∧
          Lawful w s calls))
  | w, s, .clear :: calls =>
    (w.bytes = s ∧ w.size = s.length) ∧ Lawful w.clear [] calls

/-- The sizes are below 2^62, and an offset is a `size_t`. -/
def SizesFit : Nat → List Call → Prop
  | _, [] => True
  | size, .append data :: calls => size+data.length < 2^62 ∧ SizesFit (size+data.length) calls
  | size, .update offset data :: calls =>
    (offset < 2^64 ∧ data.length < 2^62) ∧ SizesFit size calls
  | _, .clear :: calls => SizesFit 0 calls

/-- No update is inside of what was written and ends behind the initial size, and none comes round
past 2^64 to an end that is not behind it. -/
def UpdatesFit (initial : Nat) : Nat → List Call → Prop
  | _, [] => True
  | size, .append data :: calls => UpdatesFit initial (size+data.length) calls
  | size, .update offset data :: calls =>
    (offset+data.length ≤ size → offset+data.length ≤ initial) ∧
      (2^64 ≤ offset+data.length → initial < offset+data.length-2^64) ∧
      UpdatesFit initial size calls
  | _, .clear :: calls => UpdatesFit initial 0 calls

/-- What holds in every history: the block has at least its first size. -/
structure Grown (initial : Nat) (w : BinaryMessageWriter) (s : Bytes) : Prop where
  owned : w.Owned
  size_eq : w.size_ = initial
  le_alloc : initial ≤ w.alloc
  alloc_lt : w.alloc < 2^63
  bytes_eq : w.bytes = s

theorem resizeLoop_spec {need fuel resize r : Nat} (h : resizeLoop need fuel resize = .ok r) :
    need ≤ r ∧ resize ≤ r ∧ (r = resize ∨ r < 2*need) := by
  induction fuel generalizing resize with
  | zero => cases h
  | succ fuel ih =>
    rw [resizeLoop] at h
    split_ifs at h with hlt
    · obtain ⟨hneed, hle, hr⟩ := ih h
      omega
    · cases h
      omega

theorem Grown.length_eq {initial : Nat} {w : BinaryMessageWriter} {s : Bytes}
    (h : Grown initial w s) : w.used = s.length := by
  rw [← h.bytes_eq, h.owned.length_bytes]

/-- An append copies to inside of the block that it has grown to. -/
theorem Grown.append {initial : Nat} {w : BinaryMessageWriter} {s : Bytes}
    (h : Grown initial w s) {data : Bytes} (hsize : s.length+data.length < 2^62) :
    ∃ w', w.append data = .ok w' ∧ w.used+data.length ≤ w'.alloc ∧
      Grown initial w' (s ++ data) := by
  obtain ⟨w', hok, hw', hbytes⟩ := append_owned h.owned data
  have hlen := h.length_eq
  have hfirst := h.size_eq
  have halloc := h.le_alloc
  have hlt := h.alloc_lt
  rw [h.bytes_eq] at hbytes
  have hgrown : w'.size_ = initial ∧ initial ≤ w'.alloc ∧ w'.alloc < 2^63 ∧
      w.used+data.length ≤ w'.alloc := by
    obtain ⟨resize, hresize, hcopy⟩ := Result.bind_eq_ok hok
    obtain ⟨hneed, hle, hr⟩ := resizeLoop_spec hresize
    split_ifs at hcopy with hgrow
    · cases hcopy
    · cases hcopy
      refine ⟨hfirst, ?_, ?_, hneed⟩
      · change initial ≤ resize
        omega
      · change resize < 2^63
        omega
    · cases hcopy
      refine ⟨hfirst, halloc, hlt, ?_⟩
      change w.used+data.length ≤ w.alloc
      omega
  exact ⟨w', hok, hgrown.2.2.2, hw', hgrown.1, hgrown.2.1, hgrown.2.2.1, hbytes⟩

theorem length_copy_ge_length (ptr data : Bytes) (offset : Nat) :
    ptr.length ≤ (copy ptr offset data).length := by
  simp only [copy, List.length_append, List.length_take, List.length_replicate, List.length_drop]
  omega

theorem take_copy (ptr data : Bytes) {offset used : Nat} (h : used ≤ ptr.length) :
    (copy ptr offset data).take used = overwrite (ptr.take used) offset data := by
  have hused : (ptr.take used).length = used := List.length_take_of_le h
  have hfront : ((ptr ++ List.replicate (offset-ptr.length) 0).take offset).length = offset := by
    simp only [List.length_take, List.length_append, List.length_replicate]
    omega
  have htake : ((ptr ++ List.replicate (offset-ptr.length) 0).take offset).take used
      = (ptr.take used).take offset := by
    rw [List.take_take, List.take_take, Nat.min_comm used offset]
    exact List.take_append_of_le_length (by omega)
  rw [overwrite, hused, copy, List.append_assoc, List.take_append, hfront, htake, List.take_append,
    List.drop_take, List.append_assoc, Nat.sub_sub]

theorem length_overwrite (s data : Bytes) (offset : Nat) :
    (overwrite s offset data).length = s.length := by
  simp only [overwrite, List.length_append, List.length_take, List.length_drop]
  omega

/-- A copy into the block leaves everything but the bytes as it was. -/
theorem Grown.copied {initial : Nat} {w : BinaryMessageWriter} {s : Bytes}
    (h : Grown initial w s) (offset : Nat) (data : Bytes) :
    Grown initial { w with ptr := copy w.ptr offset data } (overwrite s offset data) where
  owned := ⟨h.owned.owned, h.owned.size_pos,
    Nat.le_trans h.owned.used_le (length_copy_ge_length w.ptr data offset)⟩
  size_eq := h.size_eq
  le_alloc := h.le_alloc
  alloc_lt := h.alloc_lt
  bytes_eq := by
    rw [← h.bytes_eq]
    exact take_copy w.ptr data h.owned.used_le

theorem Grown.clear {initial : Nat} {w : BinaryMessageWriter} {s : Bytes}
    (h : Grown initial w s) : Grown initial w.clear [] where
  owned := ⟨h.owned.owned, h.owned.size_pos, Nat.zero_le _⟩
  size_eq := h.size_eq
  le_alloc := h.le_alloc
  alloc_lt := h.alloc_lt
  bytes_eq := rfl

theorem Grown.new {initial : Nat} (hpos : 0 < initial) (hlt : initial < 2^62) :
    Grown initial (new initial) [] where
  owned := ⟨rfl, hpos, Nat.zero_le _⟩
  size_eq := rfl
  le_alloc := le_rfl
  alloc_lt := Nat.lt_trans hlt (by decide)
  bytes_eq := rfl

/-- What the check of an update lets through. -/
theorem update_eq {w : BinaryMessageWriter} (offset : Nat) (data : Bytes) :
    w.update offset data =
      if (offset+data.length) % 2^64 ≤ w.size_ then
        .ok { w with ptr := copy w.ptr offset data }
      else .raise ⟨.bufferOverflowError, lit "update exceeds buffer boundary"⟩ := by
  unfold update
  by_cases h : (offset+data.length) % 2^64 ≤ w.size_
  · rw [if_neg (Nat.not_lt.2 h), if_pos h]
  · rw [if_pos (Nat.lt_of_not_le h), if_neg h]
    rfl

section update
variable {w : BinaryMessageWriter} {s data : Bytes} {offset : Nat} {calls : List Call}
  (hbytes : w.bytes = s ∧ w.size = s.length)

include hbytes

theorem lawful_update_of_ok {w' : BinaryMessageWriter} (hok : w.update offset data = .ok w') :
    Lawful w s (.update offset data :: calls) ↔
      offset+data.length ≤ w'.alloc ∧ Lawful w' (overwrite s offset data) calls := by
  rw [Lawful, and_iff_right hbytes, hok]
  constructor
  · rintro (⟨w'', heq, hinside, hl⟩ | ⟨_, ⟨e, he⟩, _⟩)
    · cases heq
      exact ⟨hinside, hl⟩
    · cases he
  · rintro ⟨hinside, hl⟩
    exact .inl ⟨w', rfl, hinside, hl⟩

theorem lawful_update_of_raise {e : Exception} (hraise : w.update offset data = .raise e) :
    Lawful w s (.update offset data :: calls) ↔
      s.length < offset+data.length ∧ Lawful w s calls := by
  rw [Lawful, and_iff_right hbytes, hraise]
  constructor
  · rintro (⟨w', heq, _, _⟩ | ⟨hlong, _, hl⟩)
    · cases heq
    · exact ⟨hlong, hl⟩
  · rintro ⟨hlong, hl⟩
    exact .inr ⟨hlong, ⟨e, rfl⟩, hl⟩

end update

theorem lawful_iff {initial : Nat} (hinitial : initial < 2^62) {calls : List Call}
    {w : BinaryMessageWriter} {s : Bytes} (h : Grown initial w s)
    (hfit : SizesFit s.length calls) :
    Lawful w s calls ↔ UpdatesFit initial s.length calls := by
  have hbytes : w.bytes = s ∧ w.size = s.length := ⟨h.bytes_eq, h.length_eq⟩
  induction calls generalizing w s with
  | nil => exact iff_of_true hbytes trivial
  | cons call calls ih =>
    cases call with
    | append data =>
      obtain ⟨w', hok, hinside, hw'⟩ := h.append hfit.1
      have hrest := ih hw' (by rw [List.length_append]; exact hfit.2)
        ⟨hw'.bytes_eq, hw'.length_eq⟩
      rw [List.length_append] at hrest
      rw [Lawful, UpdatesFit]
      refine ⟨fun ⟨_, w'', hok', _, hl⟩ => ?_, fun hu => ⟨hbytes, w', hok, hinside, hrest.2 hu⟩⟩
      rw [hok] at hok'
      cases hok'
      exact hrest.1 hl
    | update offset data =>
      obtain ⟨⟨hoffset, hdata⟩, hfit⟩ := hfit
      have hsize := h.size_eq
      have halloc := h.le_alloc
      have halloc_lt := h.alloc_lt
      have hupdate := @update_eq w offset data
      rw [UpdatesFit]
      by_cases hcheck : (offset+data.length) % 2^64 ≤ w.size_
      · -- the update returns, and the rest goes on with the string written over
        have hcopied := h.copied offset data
        have hrest := ih hcopied (by rw [length_overwrite]; exact hfit)
          ⟨hcopied.bytes_eq, hcopied.length_eq⟩
        rw [length_overwrite] at hrest
        rw [if_pos hcheck] at hupdate
        refine (lawful_update_of_ok hbytes hupdate).trans ((and_congr_right' hrest).trans ?_)
        change offset+data.length ≤ w.alloc ∧ _ ↔ _
        constructor
        · rintro ⟨hinside, hu⟩
          exact ⟨by omega, by omega, hu⟩
        · rintro ⟨_, hwrap, hu⟩
          refine ⟨?_, hu⟩
          by_cases hover : 2^64 ≤ offset+data.length
          · have := hwrap hover
            omega
          · omega
      · have hrest := ih h hfit hbytes
        rw [if_neg hcheck] at hupdate
        refine (lawful_update_of_raise hbytes hupdate).trans ((and_congr_right' hrest).trans ?_)
        constructor
        · rintro ⟨hlong, hu⟩
          exact ⟨by omega, by omega, hu⟩
        · rintro ⟨hinside, _, hu⟩
          refine ⟨?_, hu⟩
          by_contra hle
          have := hinside (Nat.not_lt.1 hle)
          omega
    | clear =>
      have hrest := ih h.clear hfit ⟨h.clear.bytes_eq, h.clear.length_eq⟩
      rw [Lawful, UpdatesFit]
      exact (and_iff_right hbytes).trans hrest

/-- The check of an update goes by the first size of the block, however far it has grown, and by a
sum that comes round. -/
theorem history_lawful_iff (initial : Nat) (hpos : 0 < initial) (hlt : initial < 2^62)
    (calls : List Call) (hfit : SizesFit 0 calls) :
    Lawful (new initial) [] calls ↔ UpdatesFit initial 0 calls :=
  lawful_iff hlt (Grown.new hpos hlt) hfit

theorem history_lawful_iff_small :
    Lawful (new 2) [] [.append [1, 2, 3], .update 0 [7], .clear] ↔
      UpdatesFit 2 0 [.append [1, 2, 3], .update 0 [7], .clear] :=
  history_lawful_iff 2 (by decide) (by decide) _ ⟨by decide, ⟨by decide, by decide⟩, trivial⟩

/-- The last byte of three, in a block that was made for two. -/
theorem grown_history_not_lawful :
    ¬ ∀ initial calls, 0 < initial → initial < 2^62 → SizesFit 0 calls →
      Lawful (new initial) [] calls := by
  intro h
  have hfit : SizesFit 0 [.append [1, 2, 3], .update 2 [7]] :=
    ⟨by decide, ⟨by decide, by decide⟩, trivial⟩
  have hlawful := h 2 _ (by decide) (by decide) hfit
  rw [lawful_iff (by decide) (Grown.new (by decide) (by decide)) hfit] at hlawful
  exact absurd (hlawful.1 (by decide)) (by decide)

end Stx.Util.BinaryMessageWriter
