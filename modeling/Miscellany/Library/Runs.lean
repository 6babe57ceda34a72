import Mathlib.Data.List.Basic
import Mathlib.Data.Nat.Notation

/-!
# Maximal runs

A run of a list is a range of positions whose elements all satisfy a predicate. It is maximal if
it cannot be made longer at either end (`MaximalRun`). One pass over the list finds all maximal
runs in order: `spansFrom p m open l` reads the rest `l` of the list from the position `m` on,
where `open` is the position at which the run that is not finished has begun.
-/

namespace Miscellany

variable {α : Type*}

/-- The elements from `i` to `j` satisfy the predicate, and those beside them do not. -/
structure MaximalRun (p : α → Bool) (l : List α) (i j : ℕ) : Prop where
  lt : i < j
  le : j ≤ l.length
  all : ∀ k c, i ≤ k → k < j → l[k]? = some c → p c = true
  left : ∀ c, 0 < i → l[i - 1]? = some c → p c = false
  right : ∀ c, l[j]? = some c → p c = false

/-- The maximal runs that end in the rest of a list. -/
def spansFrom (p : α → Bool) : ℕ → Option ℕ → List α → List (ℕ × ℕ)
  | _, none, [] => []
  | m, some i, [] => [(i, m)]
  | m, start, c :: l =>
      if p c then spansFrom p (m + 1) (some (start.getD m)) l
      else (start.map fun i => (i, m)).toList ++ spansFrom p (m + 1) none l

/-- The maximal runs of a list, in order. -/
def spans (p : α → Bool) (l : List α) : List (ℕ × ℕ) := spansFrom p 0 none l

/-- The elements of a range of positions. -/
def slice (l : List α) (x : ℕ × ℕ) : List α := (l.drop x.1).take (x.2 - x.1)

/-- The next element of a list of which `m` elements have been read. -/
theorem of_drop_eq_cons {full l : List α} {m : ℕ} {c : α} (h : full.drop m = c :: l) :
    full[m]? = some c ∧ full.drop (m + 1) = l ∧ m + 1 ≤ full.length := by
  have hc : full[m]? = some c := by
    rw [← Nat.add_zero m, ← List.getElem?_drop, h]
    rfl
  refine ⟨hc, ?_, ?_⟩
  · rw [← List.drop_drop, h]
    rfl
  · by_contra hge
    rw [List.getElem?_eq_none (Nat.le_of_lt_succ (Nat.not_le.1 hge))] at hc
    cases hc

namespace Runs

variable {p : α → Bool} {full l : List α} {i j m s : ℕ}

/-- Up to the position `m` there is a run from `s` on, which has not been there before `s`. -/
structure Open (p : α → Bool) (full : List α) (s m : ℕ) : Prop where
  le : s ≤ m
  all : ∀ k c, s ≤ k → k < m → full[k]? = some c → p c = true
  left : ∀ c, 0 < s → full[s - 1]? = some c → p c = false

/-- The run goes on. -/
theorem Open.succ (h : Open p full s m) {c : α} (hc : full[m]? = some c) (hp : p c = true) :
    Open p full s (m + 1) := by
  refine ⟨Nat.le_succ_of_le h.le, ?_, h.left⟩
  intro k d hk hkm hd
  rcases Nat.lt_succ_iff_lt_or_eq.1 hkm with hlt | rfl
  · exact h.all k d hk hlt hd
  · rw [hc] at hd
    rw [← Option.some.inj hd]
    exact hp

/-- A run may begin behind an element that does not belong to one. -/
theorem open_succ {c : α} (hc : full[m]? = some c) (hp : p c = false) :
    Open p full (m + 1) (m + 1) := by
  refine ⟨Nat.le_refl _, fun k d hk hkm _ => absurd hkm (Nat.not_lt.2 hk), ?_⟩
  intro d _ hd
  rw [Nat.add_sub_cancel, hc] at hd
  rw [← Option.some.inj hd]
  exact hp

/-- A run that is open and ends is maximal. -/
theorem Open.maximalRun (h : Open p full s m) (hlt : s < m) (hm : m ≤ full.length)
    (hend : ∀ c, full[m]? = some c → p c = false) : MaximalRun p full s m :=
  ⟨hlt, hm, h.all, h.left, hend⟩

/-- It is the only maximal run that begins in it. -/
theorem Open.eq_of_maximalRun (h : Open p full s m) (hm : m ≤ full.length)
    (hend : ∀ c, full[m]? = some c → p c = false) (hrun : MaximalRun p full i j) (hs : s ≤ i)
    (hi : i < m) : i = s ∧ j = m := by
  constructor
  · by_contra hne
    have hlt : i - 1 < full.length := by omega
    have hget := List.getElem?_eq_getElem hlt
    have hin := h.all (i - 1) _ (by omega) (by omega) hget
    rw [hrun.left _ (by omega) hget] at hin
    cases hin
  · rcases Nat.lt_trichotomy j m with hlt | heq | hgt
    · have hij := hrun.lt
      have hget := List.getElem?_eq_getElem (Nat.lt_of_lt_of_le hlt hm)
      have hin := h.all j _ (by omega) hlt hget
      rw [hrun.right _ hget] at hin
      cases hin
    · exact heq
    · have hget := List.getElem?_eq_getElem (Nat.lt_of_lt_of_le hgt hrun.le)
      have hin := hrun.all m _ (Nat.le_of_lt hi) hgt hget
      rw [hend _ hget] at hin
      cases hin

/-- No maximal run begins at an element that does not belong to one. -/
theorem not_maximalRun {c : α} (hc : full[i]? = some c) (hp : p c = false) :
    ¬ MaximalRun p full i j := by
  intro hrun
  have hin := hrun.all i c (Nat.le_refl i) hrun.lt hc
  rw [hp] at hin
  cases hin

end Runs

open Runs

/-- At the end of the list, the open run is the only one that is left. -/
theorem mem_spansFrom_nil_iff {p : α → Bool} {full : List α} {start : Option ℕ}
    (hopen : Open p full (start.getD full.length) full.length)
    (hstart : ∀ s, start = some s → s < full.length) (i j : ℕ) :
    (i, j) ∈ spansFrom p full.length start [] ↔
      MaximalRun p full i j ∧ start.getD full.length ≤ i := by
  have hend : ∀ c, full[full.length]? = some c → p c = false := by
    intro c hc
    rw [List.getElem?_eq_none (Nat.le_refl _)] at hc
    cases hc
  cases start with
  | none =>
      rw [spansFrom]
      refine iff_of_false List.not_mem_nil ?_
      rintro ⟨hrun, hle⟩
      have hlt := hrun.lt
      have hj := hrun.le
      rw [Option.getD_none] at hle
      omega
  | some s =>
      rw [spansFrom, List.mem_singleton, Prod.mk.injEq]
      constructor
      · rintro ⟨rfl, rfl⟩
        exact ⟨hopen.maximalRun (hstart i rfl) (Nat.le_refl _) hend, Nat.le_refl i⟩
      · rintro ⟨hrun, hle⟩
        have hlt : i < full.length := Nat.lt_of_lt_of_le hrun.lt hrun.le
        exact hopen.eq_of_maximalRun (Nat.le_refl _) hend hrun hle hlt

/-- At an element that belongs to no run, the open run ends, and the others begin behind it. -/
theorem mem_closed_or_iff {p : α → Bool} {full : List α} {m : ℕ} {start : Option ℕ} {c : α}
    (hc : full[m]? = some c) (hp : p c = false) (hm : m ≤ full.length)
    (hopen : Open p full (start.getD m) m) (hstart : ∀ s, start = some s → s < m) (i j : ℕ) :
    (i, j) ∈ (start.map fun i => (i, m)).toList ∨ (MaximalRun p full i j ∧ m + 1 ≤ i) ↔
      MaximalRun p full i j ∧ start.getD m ≤ i := by
  have hend : ∀ d, full[m]? = some d → p d = false := by
    intro d hd
    rw [hc] at hd
    rw [← Option.some.inj hd]
    exact hp
  constructor
  · rintro (hmem | ⟨hrun, hle⟩)
    · obtain ⟨s, hs, heq⟩ := Option.map_eq_some_iff.1 (Option.mem_toList.1 hmem)
      cases heq
      subst hs
      exact ⟨hopen.maximalRun (hstart i rfl) hm hend, Nat.le_refl i⟩
    · exact ⟨hrun, Nat.le_trans hopen.le (Nat.le_of_succ_le hle)⟩
  · rintro ⟨hrun, hle⟩
    rcases Nat.lt_trichotomy i m with hlt | rfl | hgt
    · left
      obtain ⟨hi, hj⟩ := hopen.eq_of_maximalRun hm hend hrun hle hlt
      cases start with
      | none => exact absurd hle (Nat.not_le.2 hlt)
      | some s =>
          rw [hi, hj]
          exact List.mem_singleton_self _
    · exact absurd hrun (not_maximalRun hc hp)
    · exact Or.inr ⟨hrun, hgt⟩

/-- The pass finds the maximal runs that begin at the open one or behind it. -/
theorem mem_spansFrom_iff {p : α → Bool} {full l : List α} {m : ℕ} {start : Option ℕ}
    (hl : full.drop m = l) (hm : m ≤ full.length) (hopen : Open p full (start.getD m) m)
    (hstart : ∀ s, start = some s → s < m) (i j : ℕ) :
    (i, j) ∈ spansFrom p m start l ↔ MaximalRun p full i j ∧ start.getD m ≤ i := by
  induction l generalizing m start with
  | nil =>
      obtain rfl : m = full.length := Nat.le_antisymm hm (List.drop_eq_nil_iff.1 hl)
      exact mem_spansFrom_nil_iff hopen hstart i j
  | cons c l ih =>
      obtain ⟨hc, hrest, hsize⟩ := of_drop_eq_cons hl
      rw [spansFrom]
      by_cases hp : p c = true
      · rw [if_pos hp]
        have hlast : ∀ s, some (start.getD m) = some s → s < m + 1 := by
          intro s hs
          rw [← Option.some.inj hs]
          exact Nat.lt_succ_of_le hopen.le
        exact ih hrest hsize (hopen.succ hc hp) hlast
      · rw [if_neg hp]
        rw [Bool.not_eq_true] at hp
        have hbehind : (i, j) ∈ spansFrom p (m + 1) none l ↔
            MaximalRun p full i j ∧ m + 1 ≤ i :=
          ih hrest hsize (open_succ hc hp) (by simp)
        rw [List.mem_append, hbehind]
        exact mem_closed_or_iff hc hp hm hopen hstart i j

theorem mem_spans_iff (p : α → Bool) (l : List α) (i j : ℕ) :
    (i, j) ∈ spans p l ↔ MaximalRun p l i j := by
  have hopen : Open p l 0 0 :=
    ⟨Nat.le_refl 0, fun k c _ hk => absurd hk (Nat.not_lt_zero k), fun c h => absurd h (by simp)⟩
  have hmem : (i, j) ∈ spansFrom p 0 none l ↔ MaximalRun p l i j ∧ 0 ≤ i :=
    mem_spansFrom_iff rfl (Nat.zero_le l.length) hopen (by simp) i j
  rw [spans, hmem]
  exact and_iff_left (Nat.zero_le i)

theorem le_of_mem_spansFrom {p : α → Bool} {l : List α} {m : ℕ} {start : Option ℕ}
    (hstart : start.getD m ≤ m) {x : ℕ × ℕ} (hx : x ∈ spansFrom p m start l) :
    start.getD m ≤ x.1 := by
  induction l generalizing m start with
  | nil =>
      cases start with
      | none => cases hx
      | some s =>
          rw [List.mem_singleton.1 hx]
          exact Nat.le_refl s
  | cons c l ih =>
      rw [spansFrom] at hx
      split_ifs at hx
      · have hnext : (some (start.getD m)).getD (m + 1) ≤ m + 1 := Nat.le_succ_of_le hstart
        have hle := ih hnext hx
        exact hle
      · rcases List.mem_append.1 hx with hx | hx
        · obtain ⟨s, hs, rfl⟩ := Option.map_eq_some_iff.1 (Option.mem_toList.1 hx)
          rw [hs]
          exact Nat.le_refl s
        · have hle : m + 1 ≤ x.1 := ih (Nat.le_refl (m + 1)) hx
          omega

/-- The runs are found in order, with an element between any two. -/
theorem pairwise_spansFrom (p : α → Bool) (m : ℕ) (start : Option ℕ) (l : List α) :
    (spansFrom p m start l).Pairwise fun x y => x.2 < y.1 := by
  induction l generalizing m start with
  | nil =>
      cases start with
      | none => exact List.Pairwise.nil
      | some s => exact List.pairwise_singleton _ _
  | cons c l ih =>
      rw [spansFrom]
      split_ifs
      · exact ih (m + 1) (some (start.getD m))
      · cases start with
        | none => exact ih (m + 1) none
        | some s =>
            refine List.Pairwise.cons (fun x hx => ?_) (ih (m + 1) none)
            have hle : m + 1 ≤ x.1 := le_of_mem_spansFrom (Nat.le_refl (m + 1)) hx
            exact hle

/-- Nothing else lists the maximal runs in order. -/
theorem eq_spans {p : α → Bool} {l : List α} {xs : List (ℕ × ℕ)}
    (hmem : ∀ i j, (i, j) ∈ xs ↔ MaximalRun p l i j)
    (horder : xs.Pairwise fun x y => x.2 < y.1) : xs = spans p l := by
  have hspans := pairwise_spansFrom p 0 none l
  have hlt : ∀ x ∈ xs, x.1 < x.2 := fun x hx => ((hmem x.1 x.2).1 hx).lt
  have hlt' : ∀ x ∈ spans p l, x.1 < x.2 := fun x hx => ((mem_spans_iff p l x.1 x.2).1 hx).lt
  have hne : ∀ x y : ℕ × ℕ, x.1 < x.2 → x.2 < y.1 → x ≠ y := by
    rintro x y hx hxy rfl
    exact absurd hx (Nat.lt_asymm hxy)
  have hnodup : xs.Nodup := horder.imp_of_mem fun hx _ hxy => hne _ _ (hlt _ hx) hxy
  have hnodup' : (spans p l).Nodup := hspans.imp_of_mem fun hx _ hxy => hne _ _ (hlt' _ hx) hxy
  have hperm : xs.Perm (spans p l) := by
    rw [List.perm_ext_iff_of_nodup hnodup hnodup']
    intro x
    rw [hmem x.1 x.2, mem_spans_iff]
  apply List.Perm.eq_of_pairwise _ horder hspans hperm
  -- Neither of two runs that are in both lists can lie in front of the other and behind it.
  intro x y hx hy hxy hyx
  have hx' := hlt x hx
  have hy' := hlt' y hy
  omega

/-! ### Slices -/

theorem slice_self (l : List α) (m : ℕ) : slice l (m, m) = [] := by
  rw [slice, Nat.sub_self, List.take_zero]

theorem slice_succ {l : List α} {s m : ℕ} {c : α} (hs : s ≤ m) (hc : l[m]? = some c) :
    slice l (s, m) ++ [c] = slice l (s, m + 1) := by
  have hget : (l.drop s)[m - s]? = some c := by
    rw [List.getElem?_drop, Nat.add_sub_cancel' hs]
    exact hc
  rw [slice, slice, Nat.succ_sub hs, List.take_add_one, hget]
  rfl

theorem length_slice {l : List α} {s m : ℕ} (hm : m ≤ l.length) :
    (slice l (s, m)).length = m - s := by
  rw [slice, List.length_take, List.length_drop]
  omega

/-- The words are the maximal runs of the list, in order. -/
def RunsOf (p : α → Bool) (l : List α) (words : List (List α)) : Prop :=
  ∃ xs : List (ℕ × ℕ), (∀ i j, (i, j) ∈ xs ↔ MaximalRun p l i j) ∧
    (xs.Pairwise fun x y => x.2 < y.1) ∧ words = xs.map (slice l)

theorem runsOf_iff {p : α → Bool} {l : List α} {words : List (List α)} :
    RunsOf p l words ↔ words = (spans p l).map (slice l) := by
  constructor
  · rintro ⟨xs, hmem, horder, rfl⟩
    rw [eq_spans hmem horder]
  · rintro rfl
    exact ⟨spans p l, mem_spans_iff p l, pairwise_spansFrom p 0 none l, rfl⟩

end Miscellany
