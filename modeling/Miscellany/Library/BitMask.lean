import Mathlib.Data.BitVec

/-!
# Testing and setting bits of a mask

`hasAny x m` is the test `x & m` of C: some bit of `m` is set in `x`. The lemmas
are what flag manipulations need: how the test reads a word after `x |= y` and
after `x &= ~y`. On literal masks the side conditions are closed by `decide`.
-/

namespace Miscellany

/-- The C condition `x & m`: some bit of the mask `m` is set in `x`. -/
def hasAny {w : ℕ} (x m : BitVec w) : Bool := x &&& m != 0#w

theorem hasAny_eq_true_iff {w : ℕ} (x m : BitVec w) : hasAny x m = true ↔ x &&& m ≠ 0#w := by
  simp [hasAny]

theorem hasAny_eq_false_iff {w : ℕ} (x m : BitVec w) : hasAny x m = false ↔ x &&& m = 0#w := by
  simp [hasAny]

/-- Setting bits. -/
theorem hasAny_or {w : ℕ} (x y m : BitVec w) :
    hasAny (x ||| y) m = (hasAny x m || hasAny y m) := by
  rw [Bool.eq_iff_iff, Bool.or_eq_true, hasAny_eq_true_iff, hasAny_eq_true_iff,
    hasAny_eq_true_iff, BitVec.and_or_distrib_right, Ne, BitVec.or_eq_zero_iff]
  tauto

/-- Testing for the bits of two masks. -/
theorem hasAny_or_mask {w : ℕ} (x m n : BitVec w) :
    hasAny x (m ||| n) = (hasAny x m || hasAny x n) := by
  rw [Bool.eq_iff_iff, Bool.or_eq_true, hasAny_eq_true_iff, hasAny_eq_true_iff,
    hasAny_eq_true_iff, BitVec.and_or_distrib_left, Ne, BitVec.or_eq_zero_iff]
  tauto

/-- Clearing the tested bits. -/
@[simp] theorem hasAny_clear_self {w : ℕ} (x m : BitVec w) : hasAny (x &&& ~~~m) m = false := by
  rw [hasAny_eq_false_iff, BitVec.and_assoc]
  have hm : ~~~m &&& m = 0#w := by
    ext i hi
    simp
  simp [hm]

/-- Clearing bits other than the tested ones. -/
theorem hasAny_clear_of_disjoint {w : ℕ} (x : BitVec w) {y m : BitVec w} (h : y &&& m = 0#w) :
    hasAny (x &&& ~~~y) m = hasAny x m := by
  have hm : ~~~y &&& m = m := by
    ext i hi
    have hbit := congrArg (fun z => z[i]) h
    simp only [BitVec.getElem_and, BitVec.getElem_zero] at hbit
    cases hy : y[i] <;> cases hmi : m[i] <;> simp_all
  simp [hasAny, BitVec.and_assoc, hm]

end Miscellany
