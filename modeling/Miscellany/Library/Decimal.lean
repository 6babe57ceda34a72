import Mathlib.Algebra.Ring.Nat
import Miscellany.Library.InputStream

/-!
# Decimal digits

What `printf` writes for a number is what a stream reads as this number: the digits in base 10
(`digitsVal_decimal`), of which only those of zero begin with a zero.
-/

namespace Miscellany

namespace InputStream

/-- The digits that are written for a number. -/
def decimal (n : ℕ) : List UInt8 := (Nat.toDigits 10 n).map fun c => UInt8.ofNat c.toNat

/-- What is written for a number with a sign. -/
def signedDecimal (n : ℤ) : List UInt8 :=
  if n < 0 then 45 :: decimal n.natAbs else decimal n.natAbs

theorem digitsVal_append_singleton (base : ℕ) (ds : List UInt8) (d : UInt8) :
    digitsVal base (ds ++ [d]) = digitsVal base ds * base + digitVal d := by
  rw [digitsVal, List.foldl_append]
  rfl

/-- A zero in front does not count. -/
theorem digitsVal_zero_cons (base : ℕ) (ds : List UInt8) :
    digitsVal base (48 :: ds) = digitsVal base ds := by
  have hzero : 0 * base + digitVal 48 = 0 := by
    rw [Nat.zero_mul]
    rfl
  rw [digitsVal, List.foldl_cons, hzero]
  rfl

theorem toNat_digit {d : ℕ} (h : d < 10) :
    (UInt8.ofNat (Nat.digitChar d).toNat).toNat = 48 + d := by
  rw [Nat.toNat_digitChar_of_lt_ten h, UInt8.toNat_ofNat']
  omega

theorem digitVal_digit {d : ℕ} (h : d < 10) :
    digitVal (UInt8.ofNat (Nat.digitChar d).toNat) = d := by
  rw [digitVal, toNat_digit h, if_pos (by omega)]
  omega

theorem decimal_of_lt {n : ℕ} (h : n < 10) :
    decimal n = [UInt8.ofNat (Nat.digitChar n).toNat] := by
  rw [decimal, Nat.toDigits_of_lt_base h]
  rfl

theorem decimal_of_le {n : ℕ} (h : 10 ≤ n) :
    decimal n = decimal (n / 10) ++ [UInt8.ofNat (Nat.digitChar (n % 10)).toNat] := by
  rw [decimal, Nat.toDigits_of_base_le (by decide) h, List.map_append]
  rfl

theorem digitsVal_decimal (n : ℕ) : digitsVal 10 (decimal n) = n := by
  induction n using Nat.strong_induction_on with
  | _ n ih =>
      by_cases h : n < 10
      · have hnil := digitsVal_append_singleton 10 [] (UInt8.ofNat (Nat.digitChar n).toNat)
        rw [List.nil_append, digitVal_digit h] at hnil
        rw [decimal_of_lt h, hnil]
        exact Nat.zero_add n
      · have hlast := digitVal_digit (Nat.mod_lt n (by decide : 0 < 10))
        rw [decimal_of_le (Nat.not_lt.1 h), digitsVal_append_singleton, ih (n / 10) (by omega),
          hlast]
        omega

theorem decimal_ne_nil (n : ℕ) : decimal n ≠ [] := by
  rw [decimal, Ne, List.map_eq_nil_iff]
  exact Nat.toDigits_ne_nil

theorem isDigit_of_mem_decimal {n : ℕ} {c : UInt8} (h : c ∈ decimal n) : isDigit 10 c = true := by
  induction n using Nat.strong_induction_on with
  | _ n ih =>
      by_cases hn : n < 10
      · rw [decimal_of_lt hn, List.mem_singleton] at h
        rw [h, isDigit, digitVal_digit hn]
        exact decide_eq_true hn
      · have hlast : n % 10 < 10 := Nat.mod_lt n (by decide)
        rw [decimal_of_le (Nat.not_lt.1 hn), List.mem_append, List.mem_singleton] at h
        rcases h with h | h
        · exact ih (n / 10) (by omega) h
        · rw [h, isDigit, digitVal_digit hlast]
          exact decide_eq_true hlast

/-- The first digit is not zero. -/
theorem head?_decimal {n : ℕ} (h : 0 < n) : (decimal n).head? ≠ some 48 := by
  induction n using Nat.strong_induction_on with
  | _ n ih =>
      by_cases hn : n < 10
      · rw [decimal_of_lt hn, List.head?_cons, Ne, Option.some.injEq]
        intro hzero
        have hnat := congrArg UInt8.toNat hzero
        rw [toNat_digit hn] at hnat
        have hfortyEight : (48 : UInt8).toNat = 48 := rfl
        omega
      · rw [decimal_of_le (Nat.not_lt.1 hn), List.head?_append_of_ne_nil _ (decimal_ne_nil _)]
        exact ih (n / 10) (by omega) (by omega)

theorem length_decimal {n k : ℕ} (hk : 0 < k) (h : n < 10 ^ k) : (decimal n).length ≤ k := by
  rw [decimal, List.length_map]
  exact (Nat.length_toDigits_le_iff (by decide) hk).2 h

theorem length_signedDecimal {n : ℤ} {k : ℕ} (hk : 0 < k) (h : n.natAbs < 10 ^ k) :
    (signedDecimal n).length ≤ k + 1 := by
  have hle := length_decimal hk h
  rw [signedDecimal]
  split_ifs
  · exact Nat.succ_le_succ hle
  · exact Nat.le_succ_of_le hle

theorem isSpace_of_mem_signedDecimal {n : ℤ} {c : UInt8} (h : c ∈ signedDecimal n) :
    isSpace c = false := by
  have hdigit : ∀ {m : ℕ}, c ∈ decimal m → isSpace c = false := by
    intro m hc
    exact isSpace_of_isDigit (isDigit_sixteen (isDigit_of_mem_decimal hc))
  rw [signedDecimal] at h
  split_ifs at h
  · rcases List.mem_cons.1 h with rfl | h
    · decide
    · exact hdigit h
  · exact hdigit h

end InputStream

end Miscellany
