import Mathlib.Data.UInt
import Stx.Lib.Places
import Stx.Lib.Runs

/-! `autoref.h`, `autoref_impl.h` and `autoref.cc`: counted references that any number of threads
use. A handle is used by one function at a time, but for reading. It may be a member of an object;
`delete this` then calls its destructor, which are steps of their own. -/
namespace Stx

/-- `RefCounted`, with how often it was deleted, and used behind that. -/
structure RefCounted where
  refcount_ : UInt32 := 0
  deleted : Nat := 0
  late : Nat := 0
  deriving DecidableEq

namespace RefCounted

def use (object : RefCounted) : RefCounted :=
  if object.deleted = 0 then object else { object with late := object.late+1 }

def incRef (object : RefCounted) : RefCounted :=
  { object.use with refcount_ := object.refcount_+1 }

/-- `decRef` up to the comparison. -/
def decRef (object : RefCounted) : RefCounted :=
  { object.use with refcount_ := object.refcount_-1 }

/-- `delete this`. -/
def delete (object : RefCounted) : RefCounted := { object.use with deleted := object.deleted+1 }

end RefCounted

/-- What is left to do of a function of a handle. It may read another one, as `operator=` and the
copy constructor do. -/
inductive Phase where
  | incRef (other : Option Nat)
  | decRef (other : Option Nat)
  | delete (obj : Nat) (other : Option Nat)
  | assign (other : Nat)
  deriving DecidableEq

def Phase.other? : Phase → Option Nat
  | incRef other => other
  | decRef other => other
  | delete _ other => other
  | assign other => some other

/-- `AutoRef`, with the function of it that runs. One that was destroyed is empty. -/
structure AutoRef where
  ref_ : Option Nat := none
  running : Option Phase := none
  deriving DecidableEq

namespace AutoRef

/-- Behind `decRef()`: the destructor is at its end, and `operator=` goes on. -/
def next (self : AutoRef) : Option Nat → AutoRef
  | none => {}
  | some other => { self with running := some (.assign other) }

/-- A handle that was given a new object. -/
def mkRef (obj : Nat) : AutoRef where
  ref_ := some obj
  running := some (.incRef none)

/-- A handle that was given what another one holds. -/
def copyOf (other : Nat) (ref_ : Option Nat) : AutoRef where
  ref_ := ref_
  running := ref_.map fun _ => .incRef (some other)

/-- `operator=`. -/
def assign (self : AutoRef) (other : Nat) : AutoRef :=
  { self with running := some <| match self.ref_ with
    | some _ => .decRef (some other)
    | none => .assign other }

/-- `~AutoRef`. -/
def destroy (self : AutoRef) : AutoRef :=
  { self with running := self.ref_.map fun _ => .decRef none }

/-- The handle that is being read. -/
def other? (self : AutoRef) : Option Nat := self.running.bind Phase.other?

end AutoRef

structure References where
  objects : List RefCounted := []
  handles : List AutoRef := []
  deriving DecidableEq

namespace References

/-- No function of the handle runs, nor one that reads it. -/
def idle (r : References) (i : Nat) : Bool :=
  (r.handles[i]?).all (·.running = none) && r.handles.all (·.other? ≠ some i)

inductive Action where
  | null
  | mkRef
  | copy (other : Nat)
  | move (other : Nat)
  | assign (self other : Nat)
  | destroy (self : Nat)
  | run (self : Nat)

def run (r : References) (i : Nat) (self : AutoRef) : Phase → Option References
  | .incRef _ => do
    let obj ← self.ref_
    let object ← r.objects[obj]?
    some
      { objects := r.objects.set obj object.incRef
        handles := r.handles.set i { self with running := none } }
  | .decRef other => do
    let obj ← self.ref_
    let object ← r.objects[obj]?
    let self := if object.refcount_ = 1 then { self with running := some (.delete obj other) }
      else self.next other
    some { objects := r.objects.set obj object.decRef, handles := r.handles.set i self }
  | .delete obj other => do
    let object ← r.objects[obj]?
    some
      { objects := r.objects.set obj object.delete, handles := r.handles.set i (self.next other) }
  | .assign other => do
    let source ← r.handles[other]?
    some { r with handles := r.handles.set i (.copyOf other source.ref_) }

/-- A function begins, or goes on. -/
def step (r : References) : Action → Option References
  | .null => some { r with handles := r.handles ++ [{}] }
  | .mkRef => some
      { objects := r.objects ++ [{}]
        handles := r.handles ++ [.mkRef r.objects.length] }
  | .copy other => do
    let source ← r.handles[other]?
    if source.running = none then
      some { r with handles := r.handles ++ [.copyOf other source.ref_] }
    else none
  | .move other => do
    let source ← r.handles[other]?
    if r.idle other then some { r with handles := r.handles.set other {} ++ [source] } else none
  | .assign i other => do
    let self ← r.handles[i]?
    let source ← r.handles[other]?
    if r.idle i ∧ source.running = none then
      some { r with handles := r.handles.set i (self.assign other) }
    else none
  | .destroy i => do
    let self ← r.handles[i]?
    if r.idle i then some { r with handles := r.handles.set i self.destroy } else none
  | .run i => do
    let self ← r.handles[i]?
    r.run i self (← self.running)

end References

/-- How an object is held by a handle: it is counted for it, it is new and not counted yet, or it is
about to be deleted. -/
inductive Hold where
  | counted (obj : Nat)
  | fresh (obj : Nat)
  | dying (obj : Nat)
  deriving DecidableEq

def Hold.obj : Hold → Nat
  | counted obj => obj
  | fresh obj => obj
  | dying obj => obj

/-- A handle that is about to take what it has read holds nothing of its own: the other one does. -/
def AutoRef.holds (self : AutoRef) : List Hold :=
  match self.running, self.ref_ with
  | none, some obj => [.counted obj]
  | some (.decRef _), some obj => [.counted obj]
  | some (.incRef none), some obj => [.fresh obj]
  | some (.delete obj _), _ => [.dying obj]
  | _, _ => []

/-- An object that so many handles hold. -/
structure RefCounted.Balanced (object : RefCounted) (counted fresh dying : Nat) : Prop where
  late : object.late = 0
  refcount : object.refcount_.toNat = counted
  once : object.deleted+fresh+dying+min 1 counted = 1

namespace RefCounted
variable {object : RefCounted} {c f f' d d' : Nat}

theorem use_of_deleted (hlive : object.deleted = 0) : object.use = object := if_pos hlive

theorem Balanced.incRef (hbalanced : object.Balanced c f d) (hlt : c+1 < 2^32)
    (hone : f'+1 = min 1 c+f) : object.incRef.Balanced (c+1) f' d := by
  obtain ⟨hlate, hrefcount, honce⟩ := hbalanced
  have hlive : object.deleted = 0 := by omega
  rw [RefCounted.incRef, use_of_deleted hlive]
  refine ⟨hlate, ?_, ?_⟩
  · rw [UInt32.toNat_add, hrefcount]
    exact Nat.mod_eq_of_lt hlt
  · show object.deleted+f'+d+min 1 (c+1) = 1
    omega

theorem Balanced.decRef (hbalanced : object.Balanced (c+1) f d) (hone : d'+min 1 c = d+1) :
    object.decRef.Balanced c f d' := by
  obtain ⟨hlate, hrefcount, honce⟩ := hbalanced
  have hlive : object.deleted = 0 := by omega
  rw [RefCounted.decRef, use_of_deleted hlive]
  refine ⟨hlate, ?_, ?_⟩
  · have hle : (1 : UInt32) ≤ object.refcount_ := by
      rw [UInt32.le_iff_toNat_le, hrefcount]
      exact Nat.le_add_left 1 c
    rw [UInt32.toNat_sub_of_le _ _ hle, hrefcount]
    rfl
  · show object.deleted+f+d'+min 1 c = 1
    omega

/-- The thread that has taken the last count deletes the object. -/
theorem Balanced.refcount_eq_one_iff (hbalanced : object.Balanced c f d) :
    object.refcount_ = 1 ↔ c = 1 := by
  rw [← UInt32.toNat_inj, hbalanced.refcount]
  rfl

theorem Balanced.delete (hbalanced : object.Balanced c f (d+1)) : object.delete.Balanced c f d := by
  obtain ⟨hlate, hrefcount, honce⟩ := hbalanced
  have hlive : object.deleted = 0 := by omega
  rw [RefCounted.delete, use_of_deleted hlive]
  refine ⟨hlate, hrefcount, ?_⟩
  show object.deleted+1+f+d+min 1 c = 1
  omega

end RefCounted

/-- What a running function reads is left alone by the others. -/
def Reading (handles : List AutoRef) : Prop :=
  ∀ (i : Nat) (self : AutoRef) other, handles[i]? = some self → self.other? = some other →
    other ≠ i ∧ ∃ source : AutoRef, handles[other]? = some source ∧ source.running = none ∧
      (self.running = some (.incRef (some other)) → source.ref_ = self.ref_)

namespace References

def holds (r : References) : List Hold := r.handles.flatMap AutoRef.holds

structure Sound (r : References) : Prop where
  balanced : ∀ obj (object : RefCounted), r.objects[obj]? = some object → object.Balanced
    (r.holds.count (.counted obj)) (r.holds.count (.fresh obj)) (r.holds.count (.dying obj))
  known : ∀ hold ∈ r.holds, hold.obj < r.objects.length
  reading : Reading r.handles

end References

theorem AutoRef.next_holds (self : AutoRef) (other : Option Nat) :
    (self.next other).holds = [] := by
  cases other <;> rfl

theorem AutoRef.copyOf_holds (other : Nat) (ref_ : Option Nat) :
    (AutoRef.copyOf other ref_).holds = [] := by
  cases ref_ <;> rfl

theorem AutoRef.copyOf_other {other k : Nat} {ref_ : Option Nat}
    (hread : (AutoRef.copyOf other ref_).other? = some k) : other = k := by
  cases ref_ with
  | none => cases hread
  | some obj => exact Option.some.inj hread

section handles
variable {handles : List AutoRef} {i : Nat} {self self' : AutoRef}

theorem Reading.set (hr : Reading handles) (hget : handles[i]? = some self)
    (hfree : ∀ other ∈ handles, other.other? ≠ some i)
    (hself : ∀ other, self'.other? = some other → other ≠ i ∧
      ∃ source : AutoRef, handles[other]? = some source ∧ source.running = none ∧
        (self'.running = some (.incRef (some other)) → source.ref_ = self'.ref_)) :
    Reading (handles.set i self') := by
  intro j other k hj hother
  by_cases hji : i = j
  · subst hji
    rw [List.getElem?_set_self (List.getElem?_eq_some_iff.1 hget).1] at hj
    cases hj
    obtain ⟨hne, source, hsource, hrest⟩ := hself k hother
    exact ⟨hne, source, by rw [List.getElem?_set_ne (Ne.symm hne)]; exact hsource, hrest⟩
  · rw [List.getElem?_set_ne hji] at hj
    obtain ⟨hne, source, hsource, hrest⟩ := hr j other k hj hother
    have hki : i ≠ k := by
      rintro rfl
      exact hfree other (List.mem_of_getElem? hj) hother
    exact ⟨hne, source, by rw [List.getElem?_set_ne hki]; exact hsource, hrest⟩

theorem Reading.concat (hr : Reading handles)
    (hself : ∀ other, self.other? = some other →
      ∃ source : AutoRef, handles[other]? = some source ∧ source.running = none ∧
        (self.running = some (.incRef (some other)) → source.ref_ = self.ref_)) :
    Reading (handles ++ [self]) := by
  have hold {k : Nat} {source : AutoRef} (hk : handles[k]? = some source) :
      k < handles.length ∧ (handles ++ [self])[k]? = some source := by
    have hlt := (List.getElem?_eq_some_iff.1 hk).1
    exact ⟨hlt, (List.getElem?_append_left hlt).trans hk⟩
  intro j other k hj hother
  by_cases hlt : j < handles.length
  · rw [List.getElem?_append_left hlt] at hj
    obtain ⟨hne, source, hsource, hrest⟩ := hr j other k hj hother
    exact ⟨hne, source, (hold hsource).2, hrest⟩
  · obtain ⟨hjn, rfl⟩ : j = handles.length ∧ self = other := by
      have hlast := (List.getElem?_eq_some_iff.1 hj).1
      rw [List.length_append, List.length_singleton] at hlast
      have hjn : j = handles.length := by omega
      subst hjn
      rw [List.getElem?_concat_length] at hj
      exact ⟨rfl, Option.some.inj hj⟩
    obtain ⟨source, hsource, hrest⟩ := hself k hother
    exact ⟨by have := (hold hsource).1; omega, source, (hold hsource).2, hrest⟩

end handles

namespace References
variable {r : References} {i obj : Nat} {self self' : AutoRef} {object object' : RefCounted}

/-- No function reads a handle while another one of it runs. -/
theorem Sound.unread (hr : r.Sound) (hget : r.handles[i]? = some self)
    (hruns : self.running ≠ none) : ∀ other ∈ r.handles, other.other? ≠ some i := by
  intro other hmem hother
  obtain ⟨j, hj⟩ := List.mem_iff_getElem?.1 hmem
  obtain ⟨-, source, hsource, hnone, -⟩ := hr.reading j other i hj hother
  obtain rfl := Option.some.inj (hsource.symm.trans hget)
  exact hruns hnone

theorem idle_spec (hidle : r.idle i = true) (hget : r.handles[i]? = some self) :
    self.running = none ∧ ∀ other ∈ r.handles, other.other? ≠ some i := by
  simpa only [idle, hget, Option.all_some, Bool.and_eq_true, decide_eq_true_eq, List.all_eq_true]
    using hidle

/-- The objects are as they were, where the same holds are left. -/
theorem Sound.of_perm (hr : r.Sound) {handles : List AutoRef}
    (hperm : (handles.flatMap AutoRef.holds).Perm r.holds) (hreading : Reading handles) :
    Sound { r with handles } where
  balanced obj object hobject := by
    have hbalanced := hr.balanced obj object hobject
    simp only [holds, hperm.count_eq] at hbalanced ⊢
    exact hbalanced
  known hold hmem := hr.known hold (hperm.mem_iff.1 hmem)
  reading := hreading

theorem Sound.set_same (hr : r.Sound) (hget : r.handles[i]? = some self)
    (hholds : self'.holds = self.holds) (hreading : Reading (r.handles.set i self')) :
    Sound { r with handles := r.handles.set i self' } := by
  have hset := Places.flatMap_set_perm AutoRef.holds hget self'
  rw [hholds, List.perm_append_left_iff] at hset
  exact hr.of_perm hset hreading

theorem counted_le_live (handles : List AutoRef) (obj : Nat) :
    (handles.flatMap AutoRef.holds).count (.counted obj) ≤ handles.countP (·.ref_.isSome) := by
  induction handles with
  | nil => exact Nat.zero_le _
  | cons self rest ih =>
    have hself : self.holds.count (.counted obj) ≤ if self.ref_.isSome then 1 else 0 := by
      unfold AutoRef.holds
      split <;> grind
    rw [List.flatMap_cons, List.count_append, List.countP_cons]
    omega

/-- A step that changes how one handle holds an object. -/
theorem Sound.set (hr : r.Sound) (hget : r.handles[i]? = some self)
    (hobj : r.objects[obj]? = some object)
    (hself : ∀ hold ∈ self.holds ++ self'.holds, hold.obj = obj)
    (hbalanced : ∀ c f d,
      object.Balanced (r.holds.count (.counted obj)) (r.holds.count (.fresh obj))
        (r.holds.count (.dying obj)) →
      self.holds.count (.counted obj) + c =
        self'.holds.count (.counted obj) + r.holds.count (.counted obj) →
      self.holds.count (.fresh obj) + f =
        self'.holds.count (.fresh obj) + r.holds.count (.fresh obj) →
      self.holds.count (.dying obj) + d =
        self'.holds.count (.dying obj) + r.holds.count (.dying obj) →
      c ≤ (r.handles.set i self').countP (·.ref_.isSome) → object'.Balanced c f d)
    (hreading : Reading (r.handles.set i self')) :
    Sound { objects := r.objects.set obj object', handles := r.handles.set i self' } := by
  have hset := Places.flatMap_set_perm AutoRef.holds hget self'
  have hcount (hold : Hold) : self.holds.count hold + ((r.handles.set i self').flatMap
      AutoRef.holds).count hold = self'.holds.count hold + r.holds.count hold := by
    have heq := hset.count_eq hold
    rwa [List.count_append, List.count_append] at heq
  have hother {hold : Hold} (hne : hold.obj ≠ obj) :
      ((r.handles.set i self').flatMap AutoRef.holds).count hold = r.holds.count hold := by
    have hzero (held : List Hold) (hheld : ∀ h ∈ held, h.obj = obj) : held.count hold = 0 :=
      List.count_eq_zero.2 fun hmem => hne (hheld hold hmem)
    have heq := hcount hold
    rw [hzero _ fun h hmem => hself h (List.mem_append_left _ hmem),
      hzero _ fun h hmem => hself h (List.mem_append_right _ hmem)] at heq
    omega
  exact {
    balanced := by
      intro o object₁ hobject
      by_cases hne : obj = o
      · subst hne
        rw [List.getElem?_set_self (List.getElem?_eq_some_iff.1 hobj).1] at hobject
        cases hobject
        exact hbalanced _ _ _ (hr.balanced obj object hobj) (hcount _) (hcount _) (hcount _)
          (counted_le_live _ _)
      · rw [List.getElem?_set_ne hne] at hobject
        have hold := hr.balanced o object₁ hobject
        simp only [holds]
        rwa [@hother (.counted o) (Ne.symm hne), @hother (.fresh o) (Ne.symm hne),
          @hother (.dying o) (Ne.symm hne)]
    known := by
      intro hold hmem
      rw [List.length_set]
      have hmem' := hset.mem_iff.1 (List.mem_append_right self.holds hmem)
      obtain hnew | hold' := List.mem_append.1 hmem'
      · rw [hself hold (List.mem_append_right _ hnew)]
        exact (List.getElem?_eq_some_iff.1 hobj).1
      · exact hr.known hold hold'
    reading := hreading }

/-- A handle that nothing runs on keeps its object from being deleted. -/
theorem counted_pos (hself : self ∈ r.handles) (hruns : self.running = none)
    (href : self.ref_ = some obj) : 0 < r.holds.count (.counted obj) :=
  List.count_pos_iff.2 <| List.mem_flatMap.2 ⟨self, hself, by simp [AutoRef.holds, hruns, href]⟩

theorem Sound.incRef {other : Option Nat} (hr : r.Sound)
    (hlive : r.handles.countP (·.ref_.isSome) < 2^32) (hget : r.handles[i]? = some self)
    (hruns : self.running = some (.incRef other)) (href : self.ref_ = some obj)
    (hobj : r.objects[obj]? = some object) :
    Sound
      { objects := r.objects.set obj object.incRef
        handles := r.handles.set i { self with running := none } } := by
  have hnew : AutoRef.holds { self with running := none } = [.counted obj] := by
    simp [AutoRef.holds, href]
  have hold : self.holds = [.fresh obj] ∨
      self.holds = [] ∧ 0 < r.holds.count (.counted obj) := by
    cases other with
    | none => exact .inl (by simp [AutoRef.holds, hruns, href])
    | some other =>
      obtain ⟨-, source, hsource, hidle, hsame⟩ := hr.reading i self other hget
        (by simp [AutoRef.other?, hruns, Phase.other?])
      exact .inr ⟨by simp [AutoRef.holds, hruns],
        counted_pos (List.mem_of_getElem? hsource) hidle ((hsame hruns).trans href)⟩
  have hsame : (r.handles.set i { self with running := none }).countP (·.ref_.isSome) =
      r.handles.countP (·.ref_.isSome) :=
    Nat.add_right_cancel (Places.countP_set_add (·.ref_.isSome) hget { self with running := none })
  refine hr.set hget hobj (by grind [Hold.obj]) (fun c f d hbalanced hc hf hd hle => ?_)
    (hr.reading.set hget (hr.unread hget (hruns ▸ nofun)) nofun)
  have honce := hbalanced.once
  have hcounts : self.holds.count (.counted obj) = 0 ∧ self.holds.count (.dying obj) = 0 ∧
      0 < self.holds.count (.fresh obj)+r.holds.count (.counted obj) := by
    obtain hold | ⟨hold, hpos⟩ := hold
    · exact ⟨by simp [hold], by simp [hold], Nat.add_pos_left (by simp [hold]) _⟩
    · simpa [hold] using hpos
  simp [hnew] at hc hf hd
  obtain rfl : d = r.holds.count (.dying obj) := by omega
  rw [show c = r.holds.count (.counted obj)+1 by omega] at hle ⊢
  exact hbalanced.incRef (by omega) (by omega)

/-- Behind the count, the source is read as it was before. -/
theorem Sound.reading_next (hr : r.Sound) (hget : r.handles[i]? = some self)
    (hruns : self.running ≠ none) : Reading (r.handles.set i (self.next self.other?)) := by
  refine hr.reading.set hget (hr.unread hget hruns) fun other hother => ?_
  cases hself : self.other? with
  | none => rw [hself] at hother; cases hother
  | some source =>
    rw [hself] at hother
    obtain rfl : source = other := Option.some.inj hother
    obtain ⟨hne, source, hsource, hidle, -⟩ := hr.reading i self _ hget hself
    exact ⟨hne, source, hsource, hidle, by simp [AutoRef.next]⟩

theorem Sound.decRef {other : Option Nat} (hr : r.Sound) (hget : r.handles[i]? = some self)
    (hruns : self.running = some (.decRef other)) (href : self.ref_ = some obj)
    (hobj : r.objects[obj]? = some object) :
    Sound
      { objects := r.objects.set obj object.decRef
        handles := r.handles.set i (if object.refcount_ = 1
          then { self with running := some (.delete obj other) } else self.next other) } := by
  have hold : self.holds = [.counted obj] := by simp [AutoRef.holds, hruns, href]
  have hother : self.other? = other := by simp [AutoRef.other?, hruns, Phase.other?]
  have hbusy : self.running ≠ none := hruns ▸ nofun
  split
  next hone =>
    have hnew : AutoRef.holds { self with running := some (.delete obj other) } = [.dying obj] :=
      rfl
    refine hr.set hget hobj (by simp [hold, hnew, Hold.obj])
      (fun c f d hbalanced hc hf hd _ => ?_)
      (hr.reading.set hget (hr.unread hget hbusy) fun source hsource => ?_)
    · rw [hbalanced.refcount_eq_one_iff] at hone
      simp [hold, hnew] at hc hf hd
      obtain rfl : f = r.holds.count (.fresh obj) := hf
      rw [hone] at hbalanced
      exact (show c = 0 by omega) ▸ hbalanced.decRef (by omega)
    · obtain ⟨hne, source, hread, hidle, -⟩ := hr.reading i self _ hget (hother.trans hsource)
      exact ⟨hne, source, hread, hidle, nofun⟩
  next hone =>
    refine hr.set hget hobj (by simp [hold, AutoRef.next_holds, Hold.obj])
      (fun c f d hbalanced hc hf hd _ => ?_) (hother ▸ hr.reading_next hget hbusy)
    rw [hbalanced.refcount_eq_one_iff] at hone
    simp [hold, AutoRef.next_holds] at hc hf hd
    obtain rfl : f = r.holds.count (.fresh obj) := hf
    obtain rfl : d = r.holds.count (.dying obj) := hd
    rw [show r.holds.count (.counted obj) = c+1 by omega] at hbalanced
    exact hbalanced.decRef (by omega)

theorem Sound.delete {other : Option Nat} (hr : r.Sound) (hget : r.handles[i]? = some self)
    (hruns : self.running = some (.delete obj other)) (hobj : r.objects[obj]? = some object) :
    Sound
      { objects := r.objects.set obj object.delete
        handles := r.handles.set i (self.next other) } := by
  have hold : self.holds = [.dying obj] := by simp [AutoRef.holds, hruns]
  have hother : self.other? = other := by simp [AutoRef.other?, hruns, Phase.other?]
  refine hr.set hget hobj (by simp [hold, AutoRef.next_holds, Hold.obj])
    (fun c f d hbalanced hc hf hd _ => ?_) (hother ▸ hr.reading_next hget (hruns ▸ nofun))
  simp [hold, AutoRef.next_holds] at hc hf hd
  obtain rfl : c = r.holds.count (.counted obj) := hc
  obtain rfl : f = r.holds.count (.fresh obj) := hf
  rw [show r.holds.count (.dying obj) = d+1 by omega] at hbalanced
  exact hbalanced.delete

theorem Sound.assign {other : Nat} {source : AutoRef} (hr : r.Sound)
    (hget : r.handles[i]? = some self) (hruns : self.running = some (.assign other))
    (hsource : r.handles[other]? = some source) :
    Sound { r with handles := r.handles.set i (.copyOf other source.ref_) } := by
  obtain ⟨hne, source', hsource', hidle, -⟩ := hr.reading i self other hget
    (by simp [AutoRef.other?, hruns, Phase.other?])
  obtain rfl := Option.some.inj (hsource'.symm.trans hsource)
  refine hr.set_same hget (by rw [AutoRef.copyOf_holds]; simp [AutoRef.holds, hruns])
    (hr.reading.set hget (hr.unread hget (hruns ▸ nofun)) fun k hk => ?_)
  obtain rfl := AutoRef.copyOf_other hk
  exact ⟨hne, source', hsource, hidle, fun _ => rfl⟩

theorem Sound.mkRef (hr : r.Sound) :
    Sound
      { objects := r.objects ++ [{}], handles := r.handles ++ [.mkRef r.objects.length] } := by
  have hholds :
      holds { objects := r.objects ++ [{}], handles := r.handles ++ [.mkRef r.objects.length] } =
        r.holds ++ [.fresh r.objects.length] := List.flatMap_append
  have hnew : ∀ hold ∈ r.holds, hold.obj ≠ r.objects.length := fun hold hmem =>
    (hr.known hold hmem).ne
  refine ⟨fun obj object hobj => ?_, fun hold hmem => ?_, hr.reading.concat nofun⟩
  · have hzero (hold : Hold) (hobj : hold.obj = r.objects.length) : r.holds.count hold = 0 :=
      List.count_eq_zero.2 fun hmem => hnew hold hmem hobj
    simp only [hholds, List.count_append, List.count_singleton]
    by_cases hlt : obj < r.objects.length
    · rw [List.getElem?_append_left hlt] at hobj
      simpa [hlt.ne'] using hr.balanced obj object hobj
    · have hlast := (List.getElem?_eq_some_iff.1 hobj).1
      rw [List.length_append, List.length_singleton] at hlast
      obtain rfl : obj = r.objects.length := by omega
      rw [List.getElem?_concat_length] at hobj
      cases hobj
      rw [hzero (.counted _) rfl, hzero (.fresh _) rfl, hzero (.dying _) rfl]
      simpa using (⟨rfl, rfl, rfl⟩ : ({} : RefCounted).Balanced 0 1 0)
  · simp only [hholds, List.mem_append, List.mem_singleton] at hmem
    rw [List.length_append, List.length_singleton]
    obtain hmem | rfl := hmem
    · exact Nat.lt_succ_of_lt (hr.known hold hmem)
    · exact Nat.lt_succ_self _

theorem Sound.copy {other : Nat} {source : AutoRef} (hr : r.Sound)
    (hsource : r.handles[other]? = some source) (hidle : source.running = none) :
    Sound { r with handles := r.handles ++ [.copyOf other source.ref_] } := by
  refine hr.of_perm (by simp [AutoRef.copyOf_holds, holds]) (hr.reading.concat fun k hk => ?_)
  obtain rfl := AutoRef.copyOf_other hk
  exact ⟨source, hsource, hidle, fun _ => rfl⟩

theorem Sound.move {other : Nat} {source : AutoRef} (hr : r.Sound)
    (hsource : r.handles[other]? = some source) (hidle : r.idle other) :
    Sound { r with handles := r.handles.set other {} ++ [source] } := by
  obtain ⟨hruns, hunread⟩ := idle_spec hidle hsource
  have hset := Places.flatMap_set_perm AutoRef.holds hsource {}
  have hreading : Reading (r.handles.set other {}) := hr.reading.set hsource hunread nofun
  refine hr.of_perm ?_ (hreading.concat fun k hk => ?_)
  · rw [List.flatMap_append, List.flatMap_singleton]
    exact List.perm_append_comm.trans hset
  · simp [AutoRef.other?, hruns] at hk

theorem Sound.begins_assign {other : Nat} {source : AutoRef} (hr : r.Sound) (hne : other ≠ i)
    (hget : r.handles[i]? = some self) (hsource : r.handles[other]? = some source)
    (hidle : r.idle i) (hruns : source.running = none) :
    Sound { r with handles := r.handles.set i (self.assign other) } := by
  obtain ⟨hself, hunread⟩ := idle_spec hidle hget
  refine hr.set_same hget ?_ (hr.reading.set hget hunread fun k hk => ?_)
  · cases href : self.ref_ <;> simp [AutoRef.assign, AutoRef.holds, hself, href]
  · obtain rfl : other = k := by
      cases href : self.ref_ <;>
        simpa [AutoRef.assign, AutoRef.other?, href, Phase.other?] using hk
    refine ⟨hne, source, hsource, hruns, fun hrun => ?_⟩
    cases href : self.ref_ <;> simp [AutoRef.assign, href] at hrun

theorem Sound.begins_destroy (hr : r.Sound) (hget : r.handles[i]? = some self)
    (hidle : r.idle i) : Sound { r with handles := r.handles.set i self.destroy } := by
  obtain ⟨hself, hunread⟩ := idle_spec hidle hget
  refine hr.set_same hget ?_ (hr.reading.set hget hunread fun k hk => ?_)
  · cases href : self.ref_ <;> simp [AutoRef.destroy, AutoRef.holds, hself, href]
  · cases href : self.ref_ <;> simp [AutoRef.destroy, AutoRef.other?, href, Phase.other?] at hk

def Action.toItself : Action → Bool
  | assign self other => other = self
  | _ => false

/-- No handle is assigned to itself, and the count has room for all handles. -/
def Proper (r : References) (a : Action) : Prop :=
  r.handles.countP (·.ref_.isSome) < 2^32 ∧ ¬ a.toItself

instance : ∀ r a, Decidable (Proper r a) := fun r a =>
  inferInstanceAs (Decidable (r.handles.countP (·.ref_.isSome) < 2^32 ∧ ¬ a.toItself))

/-- `operator=` does not look whether it is given its own handle: it takes the last count, and
counts again what was deleted. -/
example : (([.mkRef, .run 0, .assign 0 0, .run 0, .run 0, .run 0, .run 0] : List Action).foldlM step
    {}).map (·.objects) = some [{ refcount_ := 1, deleted := 1, late := 1 }] := by decide

theorem Sound.run {phase : Phase} {r' : References} (hr : r.Sound)
    (hlive : r.handles.countP (·.ref_.isSome) < 2^32) (hget : r.handles[i]? = some self)
    (hruns : self.running = some phase) (hstep : r.run i self phase = some r') : r'.Sound := by
  cases phase with
  | incRef other =>
    obtain ⟨obj, href, hstep⟩ := Option.bind_eq_some_iff.1 hstep
    obtain ⟨object, hobj, hstep⟩ := Option.bind_eq_some_iff.1 hstep
    cases hstep
    exact hr.incRef hlive hget hruns href hobj
  | decRef other =>
    obtain ⟨obj, href, hstep⟩ := Option.bind_eq_some_iff.1 hstep
    obtain ⟨object, hobj, hstep⟩ := Option.bind_eq_some_iff.1 hstep
    cases hstep
    exact hr.decRef hget hruns href hobj
  | delete obj other =>
    obtain ⟨object, hobj, hstep⟩ := Option.bind_eq_some_iff.1 hstep
    cases hstep
    exact hr.delete hget hruns hobj
  | assign other =>
    obtain ⟨source, hsource, hstep⟩ := Option.bind_eq_some_iff.1 hstep
    cases hstep
    exact hr.assign hget hruns hsource

theorem Sound.step {a : Action} {r' : References} (hr : r.Sound) (hproper : r.Proper a)
    (hstep : r.step a = some r') : r'.Sound := by
  cases a with
  | null =>
    cases hstep
    exact hr.of_perm (List.Perm.of_eq (by simp [AutoRef.holds, holds])) (hr.reading.concat nofun)
  | mkRef =>
    cases hstep
    exact hr.mkRef
  | copy other =>
    obtain ⟨source, hsource, hstep⟩ := Option.bind_eq_some_iff.1 hstep
    obtain ⟨hidle, hstep⟩ := Option.ite_none_right_eq_some.1 hstep
    cases hstep
    exact hr.copy hsource hidle
  | move other =>
    obtain ⟨source, hsource, hstep⟩ := Option.bind_eq_some_iff.1 hstep
    obtain ⟨hidle, hstep⟩ := Option.ite_none_right_eq_some.1 hstep
    cases hstep
    exact hr.move hsource hidle
  | assign i other =>
    obtain ⟨self, hget, hstep⟩ := Option.bind_eq_some_iff.1 hstep
    obtain ⟨source, hsource, hstep⟩ := Option.bind_eq_some_iff.1 hstep
    obtain ⟨⟨hidle, hruns⟩, hstep⟩ := Option.ite_none_right_eq_some.1 hstep
    cases hstep
    exact hr.begins_assign (by simpa [Action.toItself] using hproper.2) hget hsource hidle hruns
  | destroy i =>
    obtain ⟨self, hget, hstep⟩ := Option.bind_eq_some_iff.1 hstep
    obtain ⟨hidle, hstep⟩ := Option.ite_none_right_eq_some.1 hstep
    cases hstep
    exact hr.begins_destroy hget hidle
  | run i =>
    obtain ⟨self, hget, hstep⟩ := Option.bind_eq_some_iff.1 hstep
    obtain ⟨phase, hruns, hstep⟩ := Option.bind_eq_some_iff.1 hstep
    exact hr.run hproper.1 hget hruns hstep

theorem sound_start : Sound {} := ⟨nofun, nofun, nofun⟩

theorem count_holds_idle (hidle : ∀ self ∈ r.handles, self.running = none) (obj : Nat) :
    r.holds.count (.counted obj) = r.handles.countP (·.ref_ = some obj) ∧
      r.holds.count (.fresh obj) = 0 ∧ r.holds.count (.dying obj) = 0 := by
  have hholds (self : AutoRef) (hself : self ∈ r.handles) :
      self.holds = (self.ref_.map Hold.counted).toList := by
    cases href : self.ref_ <;> simp [AutoRef.holds, hidle self hself, href]
  rw [holds, List.flatMap_congr hholds]
  induction r.handles with
  | nil => exact ⟨rfl, rfl, rfl⟩
  | cons self rest ih =>
    obtain ⟨hcounted, hfresh, hdying⟩ := ih
    cases href : self.ref_ <;>
      simp [href, List.countP_cons, List.count_cons, hcounted, hfresh, hdying]

/-- Over every run, an object is deleted once at most and never used behind that, a handle that
nothing runs on finds its object alive, and where nothing runs at all the count is the number
of handles and the objects that are deleted are those without one. -/
theorem deleted_once {as : List Action} (hrun : Runs.Reaches step Proper {} as r)
    (hobj : r.objects[obj]? = some object) :
    object.late = 0 ∧ object.deleted ≤ 1 ∧
      (∀ self ∈ r.handles, self.running = none → self.ref_ = some obj → object.deleted = 0) ∧
      ((∀ self ∈ r.handles, self.running = none) →
        object.refcount_.toNat = r.handles.countP (·.ref_ = some obj) ∧
          (object.deleted = 1 ↔ ∀ self ∈ r.handles, self.ref_ ≠ some obj)) := by
  have hr := hrun.invariant sound_start fun t a u ht ha hstep => ht.step ha hstep
  obtain ⟨hlate, hrefcount, honce⟩ := hr.balanced obj object hobj
  refine ⟨hlate, by omega, fun self hself hruns href => ?_, fun hidle => ?_⟩
  · have := counted_pos hself hruns href
    omega
  · obtain ⟨hcounted, hfresh, hdying⟩ := count_holds_idle hidle obj
    refine ⟨hrefcount.trans hcounted, ?_⟩
    have hnone : r.handles.countP (·.ref_ = some obj) = 0 ↔
        ∀ self ∈ r.handles, self.ref_ ≠ some obj := by simp
    rw [← hnone]
    omega

/-- A handle is copied and destroyed, and the copy is moved before it is destroyed. -/
def handedOver : List Action :=
  [.mkRef, .run 0, .copy 0, .run 1, .destroy 0, .run 0, .move 1, .destroy 2, .run 2, .run 2]

theorem deleted_once_handed_over :
    ∃ r, Runs.Reaches step Proper {} handedOver r ∧ r.objects = [{ deleted := 1 }] ∧
      ∀ self ∈ r.handles, self.ref_ ≠ some 0 := by
  have hrun : Runs.Reaches step Proper {} handedOver
      { objects := [{ deleted := 1 }], handles := [{}, {}, {}] } :=
    Runs.reaches_of_foldlM (by decide)
  obtain ⟨-, -, -, hidle⟩ := @deleted_once _ 0 _ _ hrun rfl
  exact ⟨_, hrun, rfl, (hidle (by decide)).2.1 rfl⟩

end References
end Stx
