import Mathlib.Data.List.Basic
import Mathlib.Data.List.TakeWhile
import Mathlib.Data.Nat.Notation

/-!
# Parts of a list

The parts into which a list is split at its separators, the elements that satisfy a predicate:
`List.splitOnP`. There is one part more than there are separators, and the parts with the separators
between them are the list (`interleave_splitOnP`).

The lines of a text are its parts between line ends, where a line end at the end of the text is
followed by no line.
-/

namespace Miscellany

variable {α : Type*} {p : α → Bool} {l : List α}

/-- The parts with the separators between them. -/
def interleave : List (List α) → List α → List α
  | [], ds => ds
  | part :: parts, [] => part ++ interleave parts []
  | part :: parts, d :: ds => part ++ d :: interleave parts ds

theorem interleave_modifyHead {parts : List (List α)} (h : parts ≠ []) (c : α) (ds : List α) :
    interleave (parts.modifyHead (c :: ·)) ds = c :: interleave parts ds := by
  obtain ⟨part, parts', rfl⟩ := List.exists_cons_of_ne_nil h
  cases ds with
  | nil => rfl
  | cons d ds => rfl

theorem interleave_splitOnP (p : α → Bool) (l : List α) :
    interleave (l.splitOnP p) (l.filter p) = l := by
  induction l with
  | nil => rfl
  | cons c l ih =>
      rw [List.splitOnP_cons_eq_if_modifyHead]
      by_cases hp : p c = true
      · rw [if_pos hp, List.filter_cons_of_pos hp, interleave, ih, List.nil_append]
      · rw [if_neg hp, List.filter_cons_of_neg hp,
          interleave_modifyHead (List.splitOnP_ne_nil p l), ih]

theorem length_splitOnP (p : α → Bool) (l : List α) :
    (l.splitOnP p).length = l.countP p + 1 := by
  induction l with
  | nil => rfl
  | cons c l ih =>
      rw [List.splitOnP_cons_eq_if_modifyHead]
      by_cases hp : p c = true
      · rw [if_pos hp, List.countP_cons_of_pos hp, List.length_cons, ih]
      · rw [if_neg hp, List.countP_cons_of_neg hp, List.length_modifyHead, ih]

/-- No part has a separator. -/
theorem eq_false_of_mem_splitOnP {part : List α} (h : part ∈ l.splitOnP p) {c : α}
    (hc : c ∈ part) : p c = false := by
  induction l generalizing part with
  | nil =>
      rw [List.mem_singleton.1 h] at hc
      cases hc
  | cons d l ih =>
      rw [List.splitOnP_cons_eq_if_modifyHead] at h
      by_cases hp : p d = true
      · rw [if_pos hp] at h
        rcases List.mem_cons.1 h with rfl | h
        · cases hc
        · exact ih h hc
      · rw [if_neg hp] at h
        rw [Bool.not_eq_true] at hp
        obtain ⟨part', parts, hparts⟩ := List.exists_cons_of_ne_nil (List.splitOnP_ne_nil p l)
        rw [hparts, List.modifyHead_cons] at h
        rw [hparts] at ih
        rcases List.mem_cons.1 h with rfl | h
        · rcases List.mem_cons.1 hc with rfl | hc
          · exact hp
          · exact ih List.mem_cons_self hc
        · exact ih (List.mem_cons_of_mem _ h) hc

/-- The parts together have all elements but the separators. -/
theorem flatten_splitOnP (p : α → Bool) (l : List α) :
    (l.splitOnP p).flatten = l.filter fun c => !p c := by
  induction l with
  | nil => rfl
  | cons c l ih =>
      rw [List.splitOnP_cons_eq_if_modifyHead]
      by_cases hp : p c = true
      · rw [if_pos hp, List.flatten_cons, List.nil_append, ih, List.filter_cons_of_neg]
        simp [hp]
      · rw [if_neg hp, List.filter_cons_of_pos (by simp [hp]), ← ih]
        obtain ⟨part, parts, hparts⟩ := List.exists_cons_of_ne_nil (List.splitOnP_ne_nil p l)
        rw [hparts]
        rfl

/-! ### Lines -/

/-- The lines of a text, without their ends. -/
def lines [BEq α] (e : α) (text : List α) : List (List α) :=
  if text.getLast?.all (· == e) then (text.splitOn e).dropLast else text.splitOn e

theorem lines_nil [BEq α] (e : α) : lines e [] = [] := rfl

variable [BEq α] [LawfulBEq α] {e : α} {line : List α}

theorem bne_of_notMem (h : e ∉ l) : ∀ c ∈ l, (c != e) = true := by
  intro c hc
  exact bne_iff_ne.2 (ne_of_mem_of_not_mem hc h)

/-- Nothing is cut off in front of an element that is not there. -/
theorem takeWhile_bne_eq_self_iff : l.takeWhile (· != e) = l ↔ e ∉ l := by
  rw [List.takeWhile_eq_self_iff]
  constructor
  · intro h he
    exact absurd rfl (bne_iff_ne.1 (h e he))
  · exact bne_of_notMem

theorem lines_append_cons (h : e ∉ line) (rest : List α) :
    lines e (line ++ e :: rest) = line :: lines e rest := by
  have hsplit := List.splitOn_append_cons_self_of_not_mem h rest
  have hlast : (line ++ e :: rest).getLast?.all (· == e) = rest.getLast?.all (· == e) := by
    rw [List.getLast?_append_of_ne_nil line (List.cons_ne_nil e rest)]
    cases rest with
    | nil => simp
    | cons c rest => rw [List.getLast?_cons_cons]
  unfold lines
  rw [hlast, hsplit]
  split_ifs
  · exact List.dropLast_cons_of_ne_nil (List.splitOn_ne_nil e rest)
  · rfl

/-- A text that is one line without an end. -/
theorem lines_of_notMem (h : e ∉ line) (hne : line ≠ []) : lines e line = [line] := by
  have hlast : line.getLast?.all (· == e) = false := by
    rw [List.getLast?_eq_some_getLast hne, Option.all_some, beq_eq_false_iff_ne]
    exact ne_of_mem_of_not_mem (List.getLast_mem hne) h
  rw [lines, hlast, List.splitOn_eq_singleton h]
  rfl

end Miscellany
