import Miscellany.Library.Runs
import Miscellany.Str.Basic

/-!
# Splitting a string

The function `pgr::split`. With empty parts removed, the parts are the maximal runs of characters
that are no delimiters.
-/

namespace Miscellany

namespace Pgr

/-- The loop of `split`, with the part and the result so far. -/
def splitLoop (delims : List Byte) (removeEmpty : Bool) :
    List Byte → List Byte → List (List Byte) → List (List Byte)
  | [], sub, result => if !(removeEmpty && sub.isEmpty) then result ++ [sub] else result
  | c :: rest, sub, result =>
      if !delims.contains c then splitLoop delims removeEmpty rest (sub ++ [c]) result
      else if !(removeEmpty && sub.isEmpty) then
        splitLoop delims removeEmpty rest [] (result ++ [sub])
      else splitLoop delims removeEmpty rest sub result

def split (str delims : List Byte) (removeEmpty : Bool) : List (List Byte) :=
  if str.isEmpty then [] else splitLoop delims removeEmpty str [] []

/-- The part so far is empty if no run is open. -/
theorem isEmpty_part {full : List Byte} {m : ℕ} {start : Option ℕ} (hm : m ≤ full.length)
    (hstart : ∀ s, start = some s → s < m) :
    (slice full (start.getD m, m)).isEmpty = start.isNone := by
  cases start with
  | none => rw [Option.getD_none, slice_self, Option.isNone_none, List.isEmpty_nil]
  | some s =>
      have hlt := hstart s rfl
      have hlen := length_slice (s := s) hm
      rw [Option.getD_some, Option.isNone_some, List.isEmpty_eq_false_iff, ← List.length_pos_iff]
      omega

/-- The loop pushes the runs that the pass over the rest of the string finds. -/
theorem splitLoop_eq {delims full l : List Byte} {m : ℕ} {start : Option ℕ}
    (hl : full.drop m = l) (hm : m ≤ full.length) (hstart : ∀ s, start = some s → s < m)
    (result : List (List Byte)) :
    splitLoop delims true l (slice full (start.getD m, m)) result =
      result ++ (spansFrom (fun c => !delims.contains c) m start l).map (slice full) := by
  induction l generalizing m start result with
  | nil =>
      rw [splitLoop, isEmpty_part hm hstart]
      cases start with
      | none => simp [spansFrom]
      | some s => simp [spansFrom]
  | cons c l ih =>
      obtain ⟨hc, hrest, hsize⟩ := of_drop_eq_cons hl
      have hle : start.getD m ≤ m := by
        cases start with
        | none => exact Nat.le_refl m
        | some s => exact Nat.le_of_lt (hstart s rfl)
      rw [splitLoop, spansFrom, isEmpty_part hm hstart]
      by_cases hdelim : delims.contains c = true
      · -- A delimiter: the part is pushed unless it is empty, and the next one begins behind it.
        have hnext := @ih (m + 1) none hrest hsize (by simp)
        rw [Option.getD_none, slice_self] at hnext
        simp only [hdelim, Bool.not_true, Bool.false_eq_true, if_false, Bool.true_and]
        cases start with
        | none =>
            rw [Option.getD_none, slice_self]
            exact hnext result
        | some s =>
            rw [Option.getD_some]
            apply (hnext (result ++ [slice full (s, m)])).trans
            rw [List.append_assoc]
            rfl
      · have hopen : ∀ s, some (start.getD m) = some s → s < m + 1 := by
          intro s hs
          rw [← Option.some.inj hs]
          exact Nat.lt_succ_of_le hle
        have hnext := ih hrest hsize hopen result
        rw [Option.getD_some] at hnext
        rw [Bool.not_eq_true] at hdelim
        simp only [hdelim, Bool.not_false, if_true]
        rw [slice_succ hle hc]
        exact hnext

/-- Without the empty parts, a string is split into its maximal runs of characters that are no
delimiters. -/
theorem split_eq (str delims : List Byte) :
    split str delims true = (spans (fun c => !delims.contains c) str).map (slice str) := by
  cases str with
  | nil => rfl
  | cons c str =>
      have hloop := @splitLoop_eq delims (c :: str) (c :: str) 0 none rfl (Nat.zero_le _)
        (by simp) []
      rw [Option.getD_none, slice_self, List.nil_append] at hloop
      exact hloop

end Pgr

end Miscellany
