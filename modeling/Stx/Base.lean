import Mathlib.Data.List.Basic
import Mathlib.Data.List.AList
import Mathlib.Tactic.Ring

/-! Byte strings, raised exceptions and the outcome of a call. Every modelled
function that can raise or loop returns a `Result`; the texts of the errors are
built as the source builds them, through `StringUtil::format`. -/
namespace Stx

/-- Contents of a `std::string`, a buffer or a file. -/
abbrev Bytes := List UInt8

/-- `stx::Buffer`: a block of memory, so its size fits in `ptrdiff_t`. -/
structure Buffer where
  data : Bytes
  size_lt : data.length < 2^63

/-- The bytes of an ASCII literal of the source. -/
def lit (s : String) : Bytes := s.toList.map fun c => c.toNat.toUInt8

namespace StringUtil

/- One left-to-right pass of `find` and `replace`: `skip` counts the bytes of the
   last match that are still to be dropped. The search resumes after the
   replacement, so replaced text is never searched again. -/
def replaceLoop (pattern replacement : Bytes) : Nat → Bytes → Bytes
  | _, [] => []
  | skip+1, _ :: rest => replaceLoop pattern replacement skip rest
  | 0, b :: rest =>
    if pattern.isPrefixOf (b :: rest) then
      replacement ++ replaceLoop pattern replacement (pattern.length-1) rest
    else b :: replaceLoop pattern replacement 0 rest

def replaceAll (str pattern replacement : Bytes) : Bytes :=
  replaceLoop pattern replacement 0 str

/-- Decimal text of an unsigned number (`std::to_string`). -/
def toString (n : Nat) : Bytes := (Nat.toDigits 10 n).map fun c => c.toNat.toUInt8

def formatImpl (scratch : Bytes) (argn : Nat) : List Bytes → Bytes
  | [] => scratch
  | value :: values =>
    formatImpl (replaceAll scratch (lit "$" ++ toString argn) value) (argn+1) values

def format (fmt : String) (values : List Bytes) : Bytes := formatImpl (lit fmt) 0 values

example : format "field not found: $0" [toString 42] = lit "field not found: 42" := by decide

end StringUtil

/-- The `k...Error` type names that the modelled functions raise; `lengthError` is
the `std::length_error` of the `std::string` constructor, and `outOfRange` and `invalidArgument`
the exceptions of `std::string::replace` and of the conversions of `<string>`. -/
inductive ErrorType where
  | bufferOverflowError | encodingError | eofError | flagError | futureError | illegalArgumentError
  | illegalStateError | indexError | invalidArgument | ioError | lengthError | mallocError
  | notFoundError | nullPointerError | outOfRange | parseError | runtimeError | typeError
  | wouldBlockError
  deriving DecidableEq, Repr

structure Exception where
  type : ErrorType
  message : Bytes := []
  deriving DecidableEq, Repr

/-- `c_str()`, as far as C reads it. -/
def cStr (str : Bytes) : Bytes := str.takeWhile fun c => c ≠ 0

/-- `Exception(const std::string&)`: what `strncpy` puts into the 1024 bytes of `message_`. -/
def Exception.ofString (type : ErrorType) (message : Bytes) : Exception :=
  ⟨type, (cStr message).take 1024⟩

/-- `Exception(const char*, ...)`, with the text that the format makes. `vsnprintf` keeps a byte for
the NUL. -/
def Exception.printf (type : ErrorType) (message : Bytes) : Exception := ⟨type, message.take 1023⟩

/-- Outcome of a call: it returns, it raises, or it has not finished within the
fuel it was given. -/
inductive Result (α : Type) where
  | ok (value : α)
  | raise (e : Exception)
  | diverge
  deriving DecidableEq, Repr

namespace Result
variable {α β : Type}

def bind : Result α → (α → Result β) → Result β
  | .ok a, f => f a
  | .raise e, _ => .raise e
  | .diverge, _ => .diverge

instance : Monad Result where
  pure := .ok
  bind := bind

@[simp] theorem pure_eq (a : α) : (pure a : Result α) = .ok a := rfl
@[simp] theorem ok_bind (a : α) (f : α → Result β) : (Result.ok a >>= f) = f a := rfl
@[simp] theorem raise_bind (e : Exception) (f : α → Result β) :
    (Result.raise e >>= f) = .raise e := rfl
@[simp] theorem diverge_bind (f : α → Result β) :
    (Result.diverge >>= f) = .diverge := rfl

theorem bind_eq_ok {x : Result α} {f : α → Result β} {b : β} (h : (x >>= f) = .ok b) :
    ∃ a, x = .ok a ∧ f a = .ok b := by
  cases x with
  | ok a => exact ⟨a, rfl, h⟩
  | raise e => cases h
  | diverge => cases h

/-- `RAISE(type, message)`, where the message is a literal that fits. -/
def RAISE (type : ErrorType) (message : String := "") : Result α :=
  .raise ⟨type, lit message⟩

/-- `RAISEF(type, fmt, values...)`. -/
def RAISEF (type : ErrorType) (fmt : String) (values : List Bytes) : Result α :=
  .raise (.ofString type (StringUtil.format fmt values))

def Terminates (x : Result α) : Prop := x ≠ .diverge

end Result

/-- A call that reads and changes a state. The changes made before an exception stay. -/
def Sys (σ α : Type) : Type := σ → Result α × σ

namespace Sys
variable {σ α β : Type}

def bind (x : Sys σ α) (f : α → Sys σ β) : Sys σ β := fun s =>
  match x s with
  | (.ok a, s') => f a s'
  | (.raise e, s') => (.raise e, s')
  | (.diverge, s') => (.diverge, s')

instance : Monad (Sys σ) where
  pure a s := (.ok a, s)
  bind := bind

def get : Sys σ σ := fun s => (.ok s, s)

def modify (f : σ → σ) : Sys σ Unit := fun s => (.ok (), f s)

/-- A call that only reads. -/
def reads (f : σ → Result α) : Sys σ α := fun s => (f s, s)

@[simp] theorem pure_apply (a : α) (s : σ) : (pure a : Sys σ α) s = (.ok a, s) := rfl
@[simp] theorem get_apply (s : σ) : (get : Sys σ σ) s = (.ok s, s) := rfl
@[simp] theorem modify_apply (f : σ → σ) (s : σ) : modify f s = (.ok (), f s) := rfl
@[simp] theorem reads_apply (f : σ → Result α) (s : σ) : reads f s = (f s, s) := rfl

theorem bind_of_ok {x : Sys σ α} {f : α → Sys σ β} {s s' : σ} {a : α} (h : x s = (.ok a, s')) :
    (x >>= f) s = f a s' := by
  change bind x f s = _
  rw [bind, h]

theorem bind_of_raise {x : Sys σ α} {f : α → Sys σ β} {s s' : σ} {e : Exception}
    (h : x s = (.raise e, s')) : (x >>= f) s = (.raise e, s') := by
  change bind x f s = _
  rw [bind, h]

theorem bind_of_diverge {x : Sys σ α} {f : α → Sys σ β} {s s' : σ}
    (h : x s = (.diverge, s')) : (x >>= f) s = (.diverge, s') := by
  change bind x f s = _
  rw [bind, h]

/-- Mapping the value that is returned leaves the state alone. -/
theorem bind_pure_snd (x : Sys σ α) (f : α → β) (s : σ) :
    ((x >>= fun a => pure (f a)) s).2 = (x s).2 := by
  cases hx : x s with
  | mk r s' =>
    cases r with
    | ok a => rw [bind_of_ok hx, pure_apply]
    | raise e => rw [bind_of_raise hx]
    | diverge => rw [bind_of_diverge hx]

theorem bind_assoc {γ : Type} (x : Sys σ α) (f : α → Sys σ β) (g : β → Sys σ γ) :
    (x >>= f) >>= g = x >>= fun a => f a >>= g := by
  funext s
  cases hx : x s with
  | mk r s' =>
    cases r with
    | ok a =>
      rw [bind_of_ok hx]
      change bind (x >>= f) g s = bind (f a) g s'
      rw [bind, bind, bind_of_ok hx]
    | raise e => rw [bind_of_raise hx, bind_of_raise (bind_of_raise hx)]
    | diverge => rw [bind_of_diverge hx, bind_of_diverge (bind_of_diverge hx)]

theorem bind_pure_unit (x : Sys σ Unit) : (x >>= fun _ => pure ()) = x := by
  funext s
  cases hx : x s with
  | mk r s' =>
    cases r with
    | ok a => exact bind_of_ok hx
    | raise e => exact bind_of_raise hx
    | diverge => exact bind_of_diverge hx

/-- What follows a call is only run where the call returns. -/
theorem bind_congr {x y : Sys σ α} {f g : α → Sys σ β} {s : σ} (hx : x s = y s)
    (h : ∀ a s', y s = (.ok a, s') → f a s' = g a s') : (x >>= f) s = (y >>= g) s := by
  cases hy : y s with
  | mk r s' =>
    rw [hy] at hx
    cases r with
    | ok a => rw [bind_of_ok hx, bind_of_ok hy, h a s' hy]
    | raise e => rw [bind_of_raise hx, bind_of_raise hy]
    | diverge => rw [bind_of_diverge hx, bind_of_diverge hy]

/-- A call that returns from a sequence has returned from both parts of it. -/
theorem bind_eq_ok {x : Sys σ α} {f : α → Sys σ β} {s t : σ} {b : β}
    (h : (x >>= f) s = (.ok b, t)) : ∃ a s', x s = (.ok a, s') ∧ f a s' = (.ok b, t) := by
  cases hx : x s with
  | mk r s' =>
    cases r with
    | ok a => exact ⟨a, s', rfl, (bind_of_ok hx).symm.trans h⟩
    | raise e => rw [bind_of_raise hx] at h; cases h
    | diverge => rw [bind_of_diverge hx] at h; cases h

theorem reads_bind {f : σ → Result α} {g : α → Sys σ β} {s : σ} {a : α} (h : f s = .ok a) :
    (reads f >>= g) s = g a s := by
  apply bind_of_ok
  rw [reads_apply, h]

@[simp] theorem get_bind (f : σ → Sys σ β) (s : σ) : (get >>= f) s = f s s := rfl
@[simp] theorem modify_bind (g : σ → σ) (f : Unit → Sys σ β) (s : σ) :
    (modify g >>= f) s = f () (g s) := rfl
@[simp] theorem pure_bind_apply (a : α) (f : α → Sys σ β) (s : σ) :
    ((pure a : Sys σ α) >>= f) s = f a s := rfl

/-- Whatever comes of the call, `R` holds between the states before and behind it. -/
def Keeps (R : σ → σ → Prop) (x : Sys σ α) : Prop := ∀ s, R s (x s).2

section keeps
variable {R : σ → σ → Prop} {x : Sys σ α} {f : α → Sys σ β}

theorem Keeps.bind (trans : ∀ s t u, R s t → R t u → R s u) (hx : x.Keeps R)
    (hf : ∀ a, (f a).Keeps R) : (x >>= f).Keeps R := by
  intro s
  have hs := hx s
  cases hxs : x s with
  | mk r t =>
    rw [hxs] at hs
    cases r with
    | ok a =>
      rw [bind_of_ok hxs]
      exact trans s t _ hs (hf a t)
    | raise e => rwa [bind_of_raise hxs]
    | diverge => rwa [bind_of_diverge hxs]

theorem keeps_reads (refl : ∀ s, R s s) (f : σ → Result α) : (reads f).Keeps R := refl

theorem keeps_pure (refl : ∀ s, R s s) (a : α) : (pure a : Sys σ α).Keeps R := refl

end keeps

end Sys

/-- `std::unordered_map`. -/
abbrev HashMap (κ υ : Type) := AList fun _ : κ => υ

/-- `emplace` keeps an entry that is already there. -/
def HashMap.emplace {κ υ : Type} [DecidableEq κ] (m : HashMap κ υ) (k : κ) (v : υ) :
    HashMap κ υ :=
  if k ∈ m then m else m.insert k v

theorem HashMap.lookup_emplace {κ υ : Type} [DecidableEq κ] (m : HashMap κ υ) (k k' : κ) (v : υ) :
    (m.emplace k v).lookup k' = (m.lookup k').or (if k = k' then some v else none) := by
  unfold HashMap.emplace
  by_cases hk : k ∈ m
  · rw [if_pos hk]
    obtain ⟨w, hw⟩ := Option.isSome_iff_exists.1 (AList.lookup_isSome.2 hk)
    split
    · next he => subst he; simp [hw]
    · simp
  · rw [if_neg hk]
    by_cases he : k = k'
    · subst he
      simp [AList.lookup_eq_none.2 hk]
    · simp [he, AList.lookup_insert_ne (Ne.symm he)]

end Stx
