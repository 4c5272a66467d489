import Stx.StringUtil
import Stx.Libc
import Stx.Lib.Rfc6901

/-! `json/jsonpointer.{h,cc}`. The path is one string. -/
namespace Stx.Json.JSONPointer
open StringUtil Rfc6901

def escape (str : Bytes) : Result Bytes := do
  let str ← replaceAllInt str (lit "~") (lit "~0")
  replaceAllInt str (lit "/") (lit "~1")

def push (path str : Bytes) : Result Bytes := do
  let str ← JSONPointer.escape str
  pure (path ++ 47 :: str)

/-- From the last slash on. Without a slash the iterator leaves the string, which is undefined;
`pop` is never called then. -/
def pop (path : Bytes) : Bytes := ((path.reverse.dropWhile (· ≠ 47)).drop 1).reverse

/-- The two passes escape as the RFC does. -/
theorem replaceAll_escape (str : Bytes) :
    replaceAll (replaceAll str (lit "~") (lit "~0")) (lit "/") (lit "~1") = Rfc6901.escape str := by
  change replaceAll (replaceAll str [126] [126, 48]) [47] [126, 49] = _
  rw [replaceAll_singleton, replaceAll_singleton, List.flatMap_assoc]
  refine List.flatMap_congr fun c _ => ?_
  unfold Rfc6901.escapeChar
  by_cases htilde : c = 126
  · rw [if_pos htilde, if_pos htilde]
    rfl
  · rw [if_neg htilde, if_neg htilde]
    exact List.append_nil _

theorem length_le_escape (str : Bytes) :
    (replaceAll str (lit "~") (lit "~0")).length ≤ (Rfc6901.escape str).length := by
  rw [← replaceAll_escape]
  obtain ⟨k, hk, -⟩ := length_replaceAll (replaceAll str (lit "~") (lit "~0")) (lit "~1")
    (List.cons_ne_nil 47 [])
  have hle : k*1 ≤ k*(lit "~1").length := Nat.mul_le_mul_left k (by decide)
  rw [List.length_singleton] at hk
  change _ ≤ (replaceAll _ [47] _).length
  omega

theorem escape_eq {str : Bytes} (h : (Rfc6901.escape str).length < 2^31) :
    JSONPointer.escape str = .ok (Rfc6901.escape str) := by
  have hle := length_le_escape str
  rw [JSONPointer.escape, replaceAllInt_eq (by decide) (by omega), Result.ok_bind,
    replaceAllInt_eq (by decide) (by rwa [replaceAll_escape]), replaceAll_escape]

/-- A path in the string grows by a token. -/
theorem push_pointer (path : Path) {token : Bytes} (h : (Rfc6901.escape token).length < 2^31) :
    push (pointer path) token = .ok (pointer (path ++ [token])) := by
  rw [push, escape_eq h, Result.ok_bind, pointer_append_singleton]
  rfl

theorem ne_slash_of_mem (token : Bytes) :
    ∀ c ∈ (Rfc6901.escape token).reverse, decide (c ≠ 47) = true := by
  intro c hc
  have hne : c ≠ 47 := by
    rintro rfl
    exact slash_not_mem_escape token (List.mem_reverse.1 hc)
  simpa using hne

/-- Escaped tokens have no slash, so the last one is taken away. -/
theorem pop_pointer (path : Path) (token : Bytes) :
    pop (pointer (path ++ [token])) = pointer path := by
  rw [pop, pointer_append_singleton, List.reverse_append, List.reverse_cons, List.append_assoc,
    List.dropWhile_append_of_pos (ne_slash_of_mem token)]
  simp

theorem pop_pointer_dropLast {path : Path} (h : path ≠ []) :
    pop (pointer path) = pointer path.dropLast := by
  rw [← pop_pointer path.dropLast (path.getLast h), List.dropLast_append_getLast]

/- The text of an index. -/

theorem toString_injective : Function.Injective StringUtil.toString := by
  intro m n h
  rw [← Libc.digitsVal_toString m, h, Libc.digitsVal_toString]

/-- The text of an `int` is that of the number it stands for unless it wrapped. -/
theorem toStringInt_toInt_eq_iff (i : Nat) :
    toStringInt (toInt i) = index i ↔ i < 2^31 := by
  have hindex : index i = StringUtil.toString i := rfl
  rw [hindex, toStringInt]
  constructor
  · intro h
    by_cases hneg : toInt i < 0
    · rw [if_pos hneg] at h
      have hminus : (45 : UInt8) ∈ StringUtil.toString i := by
        rw [← h]
        exact List.mem_append_left _ (by decide)
      exact absurd (Libc.isdigit_of_mem_toString hminus) (by decide)
    · rw [if_neg hneg] at h
      have habs := toString_injective h
      unfold toInt at habs hneg
      omega
  · intro h
    rw [toInt_of_lt h, if_neg (by omega), Int.natAbs_natCast]

/-- An index is short and has nothing to escape. -/
theorem length_escape_index (n : Int) (h : -2^31 ≤ n ∧ n < 2^31) :
    (Rfc6901.escape (toStringInt n)).length < 2^31 := by
  have hlen : (toStringInt n).length ≤ 21 := by
    have hdigits := @length_toString_le n.natAbs (by omega)
    unfold toStringInt
    split
    · rw [List.length_append]
      exact Nat.add_le_add (by decide : (lit "-").length ≤ 1) hdigits
    · omega
  have hdouble : ∀ x : Bytes, (Rfc6901.escape x).length ≤ 2*x.length := by
    intro x
    induction x with
    | nil => exact Nat.le_refl _
    | cons c x ih =>
      have hc : (Rfc6901.escapeChar c).length ≤ 2 := by
        unfold Rfc6901.escapeChar
        grind
      rw [Rfc6901.escape, List.flatMap_cons, List.length_append, List.length_cons]
      change _+(Rfc6901.escape x).length ≤ _
      omega
  have := hdouble (toStringInt n)
  omega

end Stx.Json.JSONPointer
