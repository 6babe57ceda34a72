import Mathlib.Algebra.Ring.Nat
import Mathlib.Data.List.Basic

/-!
# Blocks of memory

A block is the list of its cells. A write that does not fit into the block is a fault
(`none`). The allocator is an answer to each request: `none` when there is no memory,
otherwise what the fresh cells hold. As in glibc, a request for more than `PTRDIFF_MAX`
cells fails, a request for no cells gives an empty block, and `realloc` to no cells
frees the block and returns null.
-/

namespace Miscellany

variable {α : Type*}

/-- The contents of a block of memory. -/
abbrev Block (α : Type*) := List α

/-- An answer of the allocator. -/
abbrev Alloc (α : Type*) := Option (ℕ → α)

/-- The number of values of `size_t`. -/
def sizeMod : ℕ := 2 ^ 64

def ptrdiffMax : ℕ := 2 ^ 63 - 1

theorem sizeMod_eq : sizeMod = 18446744073709551616 := rfl

theorem ptrdiffMax_eq : ptrdiffMax = 9223372036854775807 := rfl

namespace Block

/-- Writing cells from the index `i` on. -/
def write (b : Block α) (i : ℕ) (src : List α) : Option (Block α) :=
  if i + src.length ≤ b.length then some (b.take i ++ src ++ b.drop (i + src.length)) else none

/-- The cells that are overwritten are split off. -/
theorem write_append {us vs src ws : List α} (h : vs.length = src.length) :
    write (us ++ vs ++ ws) us.length src = some (us ++ src ++ ws) := by
  have hfit : us.length + src.length ≤ (us ++ vs ++ ws).length := by
    simp only [List.length_append]
    omega
  have hdrop : (us ++ vs ++ ws).drop (us.length + src.length) = ws := by
    rw [← h, ← List.length_append]
    exact List.drop_left
  rw [write, if_pos hfit, hdrop, List.append_assoc us, List.take_left]

/-- A write at the end of a prefix, with enough room behind it. -/
theorem write_of_le {us vs src : List α} (h : src.length ≤ vs.length) :
    write (us ++ vs) us.length src = some (us ++ src ++ vs.drop src.length) := by
  have hsplit : us ++ vs = us ++ vs.take src.length ++ vs.drop src.length := by
    rw [List.append_assoc, List.take_append_drop]
  have hlen : (vs.take src.length).length = src.length := by
    rw [List.length_take]
    omega
  rw [hsplit]
  exact write_append hlen

/-- The cells of a fresh block. -/
def fresh (junk : ℕ → α) (n : ℕ) : Block α := (List.range n).map junk

@[simp] theorem length_fresh (junk : ℕ → α) (n : ℕ) : (fresh junk n).length = n := by
  simp [fresh]

/-- The allocator grants a request for `n` cells. -/
def grants (a : Alloc α) (n : ℕ) : Bool := decide (n ≤ ptrdiffMax) && a.isSome

def malloc (a : Alloc α) (n : ℕ) : Option (Block α) :=
  if ptrdiffMax < n then none else a.map fun junk => fresh junk n

theorem length_of_malloc {a : Alloc α} {n : ℕ} {b : Block α} (h : malloc a n = some b) :
    b.length = n := by
  unfold malloc at h
  split_ifs at h
  obtain ⟨junk, -, rfl⟩ := Option.map_eq_some_iff.1 h
  exact length_fresh junk n

theorem isSome_malloc (a : Alloc α) (n : ℕ) : (malloc a n).isSome = grants a n := by
  unfold malloc grants
  by_cases hn : ptrdiffMax < n
  · simp [hn, Nat.not_le.2 hn]
  · simp [hn, Nat.not_lt.1 hn]

/-- `realloc`: the block returned, or `none` for null, and what the old pointer refers to
afterwards, `none` when its block has been freed. -/
def realloc (a : Alloc α) (b : Block α) (n : ℕ) : Option (Block α) × Option (Block α) :=
  if n = 0 then (none, none)
  else if ptrdiffMax < n then (none, some b)
  else match a with
    | none => (none, some b)
    | some junk => (some (b.take n ++ fresh junk (n - b.length)), none)

/-- A block that is not made smaller is kept and extended when the request is granted. -/
theorem realloc_of_grants {a : Alloc α} {b : Block α} {n : ℕ} (hn : b.length ≤ n) (hpos : 0 < n)
    (h : grants a n = true) :
    ∃ more : List α, (b ++ more).length = n ∧ realloc a b n = (some (b ++ more), none) := by
  rw [grants, Bool.and_eq_true, decide_eq_true_iff, Option.isSome_iff_exists] at h
  obtain ⟨hle, junk, rfl⟩ := h
  refine ⟨fresh junk (n - b.length), ?_, ?_⟩
  · rw [List.length_append, length_fresh]
    omega
  · rw [realloc, if_neg (Nat.ne_of_gt hpos), if_neg (Nat.not_lt.2 hle)]
    simp only [List.take_of_length_le hn]

/-- A block is kept when the request is refused. -/
theorem realloc_of_refused {a : Alloc α} {b : Block α} {n : ℕ} (hpos : 0 < n)
    (h : grants a n = false) : realloc a b n = (none, some b) := by
  unfold realloc
  rw [if_neg (Nat.ne_of_gt hpos)]
  split_ifs with hbig
  · rfl
  · cases a with
    | none => rfl
    | some junk => simp [grants, Nat.not_lt.1 hbig] at h

end Block

end Miscellany
