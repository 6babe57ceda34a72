import Miscellany.Library.Parts
import Miscellany.Sstring.Split

/-!
# The parts of a string

`split` pushes the parts between the delimiters, with `remove_empty` those of them that are not
empty (`splitLoop_eq_parts`). So nothing but the delimiters is lost, and the two modes agree.
-/

namespace Miscellany

namespace Pgr

/-- The part is pushed. -/
def isKept (removeEmpty : Bool) (part : List Byte) : Bool := !(removeEmpty && part.isEmpty)

/-- The part so far is continued by the first part of the rest of the string. -/
theorem modifyHead_append_cons (sub : List Byte) (c : Byte) {parts : List (List Byte)} :
    (parts.modifyHead (c :: ·)).modifyHead (sub ++ ·) = parts.modifyHead ((sub ++ [c]) ++ ·) := by
  cases parts with
  | nil => rfl
  | cons part parts => simp

theorem modifyHead_nil_append (parts : List (List Byte)) :
    parts.modifyHead ([] ++ ·) = parts := by
  cases parts with
  | nil => rfl
  | cons part parts => rfl

theorem splitLoop_nil (delims : List Byte) (removeEmpty : Bool) (sub : List Byte)
    (result : List (List Byte)) :
    splitLoop delims removeEmpty [] sub result =
      if isKept removeEmpty sub then result ++ [sub] else result := rfl

theorem splitLoop_delim {delims : List Byte} {c : Byte} (hc : delims.contains c = true)
    (removeEmpty : Bool) (l sub : List Byte) (result : List (List Byte)) :
    splitLoop delims removeEmpty (c :: l) sub result =
      if isKept removeEmpty sub then splitLoop delims removeEmpty l [] (result ++ [sub])
      else splitLoop delims removeEmpty l sub result := by
  rw [splitLoop, hc]
  rfl

theorem splitLoop_other {delims : List Byte} {c : Byte} (hc : delims.contains c = false)
    (removeEmpty : Bool) (l sub : List Byte) (result : List (List Byte)) :
    splitLoop delims removeEmpty (c :: l) sub result =
      splitLoop delims removeEmpty l (sub ++ [c]) result := by
  rw [splitLoop, hc]
  rfl

/-- The parts of the rest of the string are pushed. -/
theorem splitLoop_eq_parts (delims : List Byte) (removeEmpty : Bool) (l sub : List Byte)
    (result : List (List Byte)) :
    splitLoop delims removeEmpty l sub result =
      result ++ ((l.splitOnP delims.contains).modifyHead (sub ++ ·)).filter
        (isKept removeEmpty) := by
  induction l generalizing sub result with
  | nil =>
      rw [splitLoop_nil, List.splitOnP_nil, List.modifyHead_cons, List.append_nil]
      split_ifs with hkept
      · rw [List.filter_cons_of_pos hkept, List.filter_nil]
      · rw [List.filter_cons_of_neg hkept, List.filter_nil, List.append_nil]
  | cons c l ih =>
      rw [List.splitOnP_cons_eq_if_modifyHead]
      by_cases hc : delims.contains c = true
      · have hrest := ih []
        rw [modifyHead_nil_append] at hrest
        rw [splitLoop_delim hc, if_pos hc, List.modifyHead_cons, List.append_nil]
        split_ifs with hkept
        · rw [List.filter_cons_of_pos hkept, hrest, List.append_assoc]
          rfl
        · have hempty : sub = [] := by
            rw [isKept, Bool.not_eq_true, Bool.not_eq_false', Bool.and_eq_true] at hkept
            exact List.isEmpty_iff.1 hkept.2
          rw [List.filter_cons_of_neg hkept, hempty, hrest]
      · rw [if_neg hc, modifyHead_append_cons, ← ih]
        rw [Bool.not_eq_true] at hc
        exact splitLoop_other hc removeEmpty l sub result

theorem split_eq_parts {str : List Byte} (hstr : str ≠ []) (delims : List Byte)
    (removeEmpty : Bool) :
    split str delims removeEmpty =
      (str.splitOnP delims.contains).filter (isKept removeEmpty) := by
  have hne : ¬ str.isEmpty = true := fun hempty => hstr (List.isEmpty_iff.1 hempty)
  rw [split, if_neg hne, splitLoop_eq_parts, modifyHead_nil_append, List.nil_append]

theorem split_false_eq {str : List Byte} (hstr : str ≠ []) (delims : List Byte) :
    split str delims false = str.splitOnP delims.contains := by
  rw [split_eq_parts hstr]
  exact List.filter_eq_self.2 fun _ _ => rfl

/-- With `remove_empty`, the parts together are the string without its delimiters. -/
theorem flatten_split_true (str delims : List Byte) :
    (split str delims true).flatten = str.filter fun c => !delims.contains c := by
  by_cases hstr : str = []
  · rw [hstr]
    rfl
  · rw [split_eq_parts hstr, ← flatten_splitOnP]
    exact List.flatten_filter_not_isEmpty

/-- The parts with the delimiters between them are the string, and removing the empty parts is what
the other mode does. -/
theorem split_lossless (str delims : List Byte) :
    (str ≠ [] →
      (split str delims false).length = str.countP delims.contains + 1 ∧
      (∀ part ∈ split str delims false, ∀ c ∈ part, delims.contains c = false) ∧
      interleave (split str delims false) (str.filter delims.contains) = str) ∧
    split str delims true = (split str delims false).filter fun part => !part.isEmpty := by
  constructor
  · intro hstr
    rw [split_false_eq hstr]
    exact ⟨length_splitOnP _ str, fun part hpart c hc => eq_false_of_mem_splitOnP hpart hc,
      interleave_splitOnP _ str⟩
  · by_cases hstr : str = []
    · rw [hstr]
      rfl
    · rw [split_false_eq hstr, split_eq_parts hstr]
      exact List.filter_congr fun _ _ => rfl

/-- The string `",a,,b"`. -/
theorem split_lossless_commas :
    split [44, 97, 44, 44, 98] [44] false = [[], [97], [], [98]] ∧
      interleave [[], [97], [], [98]] [44, 44, 44] = ([44, 97, 44, 44, 98] : List Byte) := by
  have hsplit : split [44, 97, 44, 44, 98] [44] false = [[], [97], [], [98]] := by decide
  refine ⟨hsplit, ?_⟩
  have hback := ((split_lossless [44, 97, 44, 44, 98] [44]).1 (by decide)).2.2
  rw [hsplit] at hback
  exact hback

end Pgr

end Miscellany
