import Miscellany.Preprocess.Reading

/-!
# The words of a source file

The words of a file are those of its lines, one line after the other (`SrcFile.words`). `operator[]`
counts down through the lines to find a word (`wordAt_eq`), and the number of words is kept beside
them (`Built.size_eq`). So an iterator goes through all words.
-/

namespace Miscellany

open InputStream (lf)
open WbaStr

namespace SrcFile

/-- The words of all lines. -/
def words (f : SrcFile) : List (List Byte) := f.data.flatMap SrcLine.data

/-- A file that is made by calls of `read`. -/
inductive Built : SrcFile → Prop
  | new : Built SrcFile.new
  | read {f g : SrcFile} (filename : String) (text : List Byte) (hf : Built f)
      (hg : f.read filename text = some g) : Built g

/-! ### The number of words -/

theorem size_pushLine {f : SrcFile} (h : f.size = f.words.length) (line : SrcLine) :
    (f.pushLine line).size = (f.pushLine line).words.length := by
  rw [words, pushLine, List.flatMap_append, List.flatMap_singleton, List.length_append, h]
  rfl

theorem size_foldl_pushLine {f : SrcFile} (h : f.size = f.words.length) (entries : List SrcLine) :
    (entries.foldl pushLine f).size = (entries.foldl pushLine f).words.length := by
  induction entries generalizing f with
  | nil => exact h
  | cons entry entries ih => exact ih (size_pushLine h entry)

theorem Built.size_eq {f : SrcFile} (hf : Built f) : f.size = f.words.length := by
  induction hf with
  | new => rfl
  | read filename text _ hg ih =>
      rw [read_eq] at hg
      rw [← Option.some.inj hg]
      exact size_foldl_pushLine ih _

/-! ### Subscripts -/

theorem advance_eq (index : ℕ) (it : List (List Byte)) : advance index it = it[index]? := by
  induction index generalizing it with
  | zero => rw [advance, List.head?_eq_getElem?]
  | succ index ih =>
      cases it with
      | nil => rfl
      | cons word it => rw [advance, ih, List.getElem?_cons_succ]

theorem wordAt_here {line : SrcLine} {index : ℕ} (h : index < line.size) (data : List SrcLine) :
    wordAt (line :: data) index = line.data[index]? := by
  rw [wordAt, findLine, if_pos h]
  exact advance_eq index line.data

theorem wordAt_later {line : SrcLine} {index : ℕ} (h : line.size ≤ index) (data : List SrcLine) :
    wordAt (line :: data) index = wordAt data (index - line.size) := by
  rw [wordAt, findLine, if_neg (Nat.not_lt.2 h)]
  rfl

/-- Empty lines are passed over. -/
theorem wordAt_eq (data : List SrcLine) (index : ℕ) :
    wordAt data index = (data.flatMap SrcLine.data)[index]? := by
  induction data generalizing index with
  | nil => rfl
  | cons line data ih =>
      rw [List.flatMap_cons]
      by_cases h : index < line.size
      · rw [wordAt_here h, List.getElem?_append_left h]
      · rw [wordAt_later (Nat.not_lt.1 h), ih, List.getElem?_append_right (Nat.not_lt.1 h)]
        rfl

theorem subscript_eq (f : SrcFile) (index : ℕ) : f.subscript index = f.words[index]? :=
  wordAt_eq f.data index

theorem subscriptConst_eq (f : SrcFile) (index : ℕ) : f.subscriptConst index = f.words[index]? :=
  wordAt_eq f.data index

end SrcFile

/-! ### Iterators -/

namespace SrcIter

variable {this : ℕ} {deref : SrcIter → Option (List Byte)} {words : List (List Byte)}

theorem visit_stop (fuel : ℕ) (it : SrcIter) : visit deref (fuel + 1) it it = some [] := by
  rw [visit, ne, beq_self_eq_true, beq_self_eq_true]
  rfl

theorem visit_step {i n fuel : ℕ} (h : i < n) {word : List Byte} {rest : List (List Byte)}
    (hword : deref ⟨some this, i⟩ = some word)
    (hrest : visit deref fuel ⟨some this, i + 1⟩ ⟨some this, n⟩ = some rest) :
    visit deref (fuel + 1) ⟨some this, i⟩ ⟨some this, n⟩ = some (word :: rest) := by
  have hne : ne ⟨some this, i⟩ ⟨some this, n⟩ = true := by
    rw [ne, beq_self_eq_true, Bool.true_and, Bool.not_eq_true', beq_eq_false_iff_ne]
    exact Nat.ne_of_lt h
  rw [visit, if_pos hne, hword, next, hrest]
  rfl

/-- The words from the position of the iterator on are visited. -/
theorem visit_eq (hderef : ∀ i, deref ⟨some this, i⟩ = words[i]?) {fuel i : ℕ}
    (hi : i ≤ words.length) (hfuel : words.length < fuel + i) :
    visit deref fuel ⟨some this, i⟩ ⟨some this, words.length⟩ = some (words.drop i) := by
  induction fuel generalizing i with
  | zero => omega
  | succ fuel ih =>
      rcases Nat.eq_or_lt_of_le hi with rfl | hlt
      · rw [visit_stop, List.drop_length]
      · have hword : deref ⟨some this, i⟩ = some words[i] := by
          rw [hderef, List.getElem?_eq_getElem hlt]
        have hrest := ih (Nat.succ_le_of_lt hlt) (by omega)
        rw [visit_step hlt hword hrest, List.drop_eq_getElem_cons hlt]

end SrcIter

namespace SrcFile

open SrcIter

/-- The words are counted right, each of them is found, and the iterators visit them all, where
`this` is the address of the file. -/
theorem Built.enumerates {f : SrcFile} (hf : Built f) {files : ℕ → SrcFile} {this : ℕ}
    (hthis : files this = f) :
    f.size = f.words.length ∧
      (∀ (index : ℕ) (hindex : index < f.words.length),
        f.subscript index = some f.words[index] ∧
        f.subscriptConst index = some f.words[index]) ∧
      ∀ fuel, f.size < fuel →
        visit (deref files) fuel (first this) (f.last this) = some f.words ∧
        visit (derefConst files) fuel (first this) (f.last this) = some f.words := by
  refine ⟨hf.size_eq, fun index hindex => ?_, fun fuel hfuel => ?_⟩
  · rw [subscript_eq, subscriptConst_eq, List.getElem?_eq_getElem hindex]
    exact ⟨rfl, rfl⟩
  · have hderef : ∀ i, deref files ⟨some this, i⟩ = f.words[i]? := by
      intro i
      rw [← hthis, ← subscript_eq]
      rfl
    have hconst : ∀ i, derefConst files ⟨some this, i⟩ = f.words[i]? := by
      intro i
      rw [← hthis, ← subscriptConst_eq]
      rfl
    rw [hf.size_eq] at hfuel
    rw [first, last, hf.size_eq]
    exact ⟨visit_eq hderef (Nat.zero_le _) hfuel, visit_eq hconst (Nat.zero_le _) hfuel⟩

/-- A file that is read twice, with an empty line and a line of spaces. -/
def twice : SrcFile where
  size := 4
  data :=
    [⟨1, "a.cc", [[97], [98]]⟩, ⟨2, "a.cc", []⟩, ⟨3, "a.cc", []⟩,
      ⟨1, "a.cc", [[97], [98]]⟩, ⟨2, "a.cc", []⟩, ⟨3, "a.cc", []⟩]

theorem Built.enumerates_twice :
    Built twice ∧ twice.size = twice.words.length ∧
      visit (deref fun _ => twice) 5 (first 0) (twice.last 0) = some [[97], [98], [97], [98]] := by
  have hbuilt : Built twice := by
    have honce := Built.read "a.cc" [97, 32, 98, lf, lf, 32, 32] Built.new (by rfl)
    exact Built.read "a.cc" [97, 32, 98, lf, lf, 32, 32] honce (by rfl)
  obtain ⟨hsize, -, hvisit⟩ := @Built.enumerates twice hbuilt (fun _ => twice) 0 rfl
  exact ⟨hbuilt, hsize, (hvisit 5 (by decide)).1⟩

end SrcFile

end Miscellany
