import Mathlib.Algebra.Ring.Int.Defs
import Mathlib.Algebra.Ring.Nat
import Mathlib.Data.Nat.Size
import Mathlib.Tactic.SplitIfs

/-!
# Rounding to binary digits

The conversion of an integer to a floating-point format with `p` binary digits: the nearest
multiple of the distance between neighbours in the format, and the even one of two. The numbers
that do not change are those of the format (`roundNat_eq_iff`).
-/

namespace Miscellany

/-- The multiple of `u` that is nearest to `n`. -/
def roundMul (u n : ℕ) : ℕ :=
  if 2 * (n % u) < u ∨ (2 * (n % u) = u ∧ n / u % 2 = 0) then n / u * u else (n / u + 1) * u

/-- The distance between the neighbours of `n` in the format. -/
def ulp (p n : ℕ) : ℕ := 2 ^ (n.size - p)

def roundNat (p n : ℕ) : ℕ := roundMul (ulp p n) n

def roundInt (p : ℕ) (n : ℤ) : ℤ :=
  if n < 0 then -(roundNat p n.natAbs : ℤ) else roundNat p n.natAbs

/-- The natural numbers that have at most `p` significant binary digits. -/
def HasDigits (p n : ℕ) : Prop := ∃ m e, m < 2 ^ p ∧ n = m * 2 ^ e

theorem dvd_roundMul (u n : ℕ) : u ∣ roundMul u n := by
  rw [roundMul]
  split_ifs
  · exact Nat.dvd_mul_left u _
  · exact Nat.dvd_mul_left u _

theorem roundMul_of_dvd {u n : ℕ} (hu : 0 < u) (h : u ∣ n) : roundMul u n = n := by
  have hmod : n % u = 0 := Nat.mod_eq_zero_of_dvd h
  rw [roundMul, hmod, if_pos (Or.inl hu), Nat.div_mul_cancel h]

theorem roundMul_le (u n : ℕ) : roundMul u n ≤ n + u := by
  have hle := Nat.div_mul_le_self n u
  rw [roundMul]
  split_ifs
  · omega
  · rw [Nat.succ_mul]
    omega

theorem ulp_pos (p n : ℕ) : 0 < ulp p n := Nat.two_pow_pos _

theorem ulp_le {p n k : ℕ} (h : n < 2 ^ k) : ulp p n ≤ 2 ^ (k - p) :=
  Nat.pow_le_pow_right (by decide) (Nat.sub_le_sub_right (Nat.size_le.2 h) p)

theorem roundNat_le {p n k : ℕ} (h : n < 2 ^ k) : roundNat p n ≤ n + 2 ^ (k - p) :=
  Nat.le_trans (roundMul_le (ulp p n) n) (Nat.add_le_add_left (ulp_le h) n)

theorem hasDigits_iff {p n : ℕ} : HasDigits p n ↔ ulp p n ∣ n := by
  constructor
  · rintro ⟨m, e, hm, hn⟩
    have hlt : n < 2 ^ (p + e) := by
      rw [hn, Nat.pow_add]
      exact Nat.mul_lt_mul_of_pos_right hm (Nat.two_pow_pos e)
    have hsize : n.size - p ≤ e := by
      have hle := Nat.size_le.2 hlt
      omega
    have hdvd : ulp p n ∣ 2 ^ e := Nat.pow_dvd_pow 2 hsize
    rw [hn] at hdvd ⊢
    exact Nat.dvd_mul_left_of_dvd hdvd m
  · intro hdvd
    refine ⟨n / ulp p n, n.size - p, ?_, (Nat.div_mul_cancel hdvd).symm⟩
    rw [Nat.div_lt_iff_lt_mul (ulp_pos p n), ulp, ← Nat.pow_add]
    exact Nat.size_le.1 (by omega)

theorem roundNat_eq_iff {p n : ℕ} : roundNat p n = n ↔ HasDigits p n := by
  rw [hasDigits_iff]
  constructor
  · intro h
    have hdvd := dvd_roundMul (ulp p n) n
    rwa [← roundNat, h] at hdvd
  · exact roundMul_of_dvd (ulp_pos p n)

theorem hasDigits_of_lt {p n : ℕ} (h : n < 2 ^ p) : HasDigits p n :=
  ⟨n, 0, h, by rw [Nat.pow_zero, Nat.mul_one]⟩

theorem roundInt_natCast (p n : ℕ) : roundInt p n = roundNat p n := by
  rw [roundInt, if_neg (Int.not_lt.2 (Int.natCast_nonneg n)), Int.natAbs_natCast]

/-- A negative number with few digits does not change. -/
theorem roundInt_neg {p n : ℕ} (hpos : 0 < n) (h : n < 2 ^ p) :
    roundInt p (-(n : ℤ)) = -(n : ℤ) := by
  have hneg : -(n : ℤ) < 0 := by omega
  rw [roundInt, if_pos hneg, Int.natAbs_neg, Int.natAbs_natCast,
    roundNat_eq_iff.2 (hasDigits_of_lt h)]

end Miscellany
