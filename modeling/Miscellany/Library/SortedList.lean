import Mathlib.Data.Int.Notation
import Mathlib.Data.List.Sort

/-!
# Sorted lists under a comparison function

A comparison function in the manner of C gives a negative, zero or positive number;
`Comparator` says that it decides a total preorder. In a list sorted by it, the keys
that are greater than a given one come last. A predicate with this property is `UpClosed`
on the list, and splits it into the elements that do not satisfy it and those that do.

Two operations keep the order: inserting an element in front of the elements that
satisfy an `UpClosed` predicate (`insertBefore`), and removing the first element that
satisfies a predicate (`List.eraseP`). Both are monotone for sublists.
-/

namespace Miscellany

/-! ### Comparison functions -/

/-- The function decides a total preorder: the signs of the two comparisons of a pair are
opposite, and `≤` is transitive. -/
structure Comparator {α : Type*} (cmp : α → α → ℤ) : Prop where
  neg_iff : ∀ a b, cmp a b < 0 ↔ 0 < cmp b a
  trans : ∀ a b c, cmp a b ≤ 0 → cmp b c ≤ 0 → cmp a c ≤ 0

namespace Comparator

variable {α : Type*} {cmp : α → α → ℤ} {a b c : α}

theorem lt_of_lt_of_le (h : Comparator cmp) (hab : cmp a b < 0) (hbc : cmp b c ≤ 0) :
    cmp a c < 0 := by
  rw [h.neg_iff] at hab ⊢
  by_contra hca
  have hba := h.trans b c a hbc (by omega)
  omega

theorem nonneg_iff (h : Comparator cmp) (a b : α) : 0 ≤ cmp a b ↔ cmp b a ≤ 0 := by
  have hneg := h.neg_iff a b
  omega

/-- The elements greater than `k` are closed under greater elements. -/
theorem decide_lt (h : Comparator cmp) (k a b : α) (ha : decide (cmp k a < 0) = true)
    (hab : cmp a b ≤ 0) : decide (cmp k b < 0) = true := by
  rw [decide_eq_true_iff] at ha ⊢
  exact h.lt_of_lt_of_le ha hab

/-- So are the elements that are not less than `k`. -/
theorem decide_le (h : Comparator cmp) (k a b : α) (ha : decide (cmp k a ≤ 0) = true)
    (hab : cmp a b ≤ 0) : decide (cmp k b ≤ 0) = true := by
  rw [decide_eq_true_iff] at ha ⊢
  exact h.trans k a b ha hab

end Comparator

/-! ### Predicates that hold from some point on -/

variable {α : Type*} {p q : α → Bool} {l m : List α} {a x : α}

/-- Behind an element that satisfies `p` all elements of the list satisfy it. -/
def UpClosed (p : α → Bool) (l : List α) : Prop := l.Pairwise fun a b => p a = true → p b = true

theorem UpClosed.sublist (h : UpClosed p m) (hl : l.Sublist m) : UpClosed p l :=
  List.Pairwise.sublist hl h

theorem UpClosed.filter_append_filter (h : UpClosed p l) :
    l.filter (fun a => !p a) ++ l.filter p = l := by
  induction l with
  | nil => rfl
  | cons a l ih =>
      obtain ⟨hfirst, hrest⟩ := List.pairwise_cons.1 h
      cases ha : p a with
      | false =>
          rw [List.filter_cons_of_pos (by simp [ha]), List.filter_cons_of_neg (by simp [ha]),
            List.cons_append, ih hrest]
      | true =>
          have hall : ∀ b ∈ l, p b = true := fun b hb => hfirst b hb ha
          have hnone : l.filter (fun b => !p b) = [] := by
            rw [List.filter_eq_nil_iff]
            intro b hb
            simp [hall b hb]
          rw [List.filter_cons_of_neg (by simp [ha]), List.filter_cons_of_pos ha, hnone,
            List.nil_append, List.filter_eq_self.2 hall]

theorem UpClosed.takeWhile_eq (h : UpClosed p l) :
    l.takeWhile (fun a => !p a) = l.filter fun a => !p a := by
  have hsplit := h.filter_append_filter
  have hall : ∀ b ∈ l.filter (fun a => !p a), (!p b) = true := fun b hb => (List.mem_filter.1 hb).2
  have hnone : (l.filter p).takeWhile (fun a => !p a) = [] := by
    cases hp : l.filter p with
    | nil => rfl
    | cons b rest =>
        have hb : p b = true := (List.mem_filter.1 (hp ▸ List.mem_cons_self)).2
        simp [hb]
  calc l.takeWhile (fun a => !p a)
      = (l.filter (fun a => !p a) ++ l.filter p).takeWhile fun a => !p a := by rw [hsplit]
    _ = l.filter fun a => !p a := by rw [List.takeWhile_append_of_pos hall, hnone, List.append_nil]

/-- In front of an element that does not satisfy `p` no element does. -/
theorem UpClosed.exists_split (h : UpClosed p l) (hx : x ∈ l) (hp : p x = false) :
    ∃ u v, l = u ++ x :: v ∧ ∀ y ∈ u ++ [x], p y = false := by
  obtain ⟨u, v, rfl⟩ := List.append_of_mem hx
  refine ⟨u, v, rfl, fun y hy => ?_⟩
  rcases List.mem_append.1 hy with hu | hy
  · have hyx := (List.pairwise_append.1 h).2.2 y hu x (by simp)
    rw [← Bool.not_eq_true]
    intro hpy
    simp [hyx hpy] at hp
  · rw [List.mem_singleton.1 hy]
    exact hp

/-! ### Inserting -/

/-- The list with `x` in front of the elements that satisfy `p`, which are moved behind the
others. -/
def insertBefore (p : α → Bool) (x : α) (l : List α) : List α :=
  l.filter (fun a => !p a) ++ x :: l.filter p

theorem mem_insertBefore : a ∈ insertBefore p x l ↔ a = x ∨ a ∈ l := by
  rw [insertBefore, List.perm_middle.mem_iff, List.mem_cons, List.mem_append, List.mem_filter,
    List.mem_filter, ← and_or_left]
  cases p a with
  | true => simp
  | false => simp

theorem insertBefore_congr (h : ∀ a ∈ l, p a = q a) (x : α) :
    insertBefore p x l = insertBefore q x l := by
  have hnot : ∀ a ∈ l, (!p a) = !q a := fun a ha => by rw [h a ha]
  rw [insertBefore, insertBefore, List.filter_congr hnot, List.filter_congr h]

theorem map_insertBefore {β : Type*} (f : α → β) (p : β → Bool) (x : α) (l : List α) :
    (insertBefore (fun a => p (f a)) x l).map f = insertBefore p (f x) (l.map f) := by
  rw [insertBefore, insertBefore, List.map_append, List.map_cons, List.filter_map, List.filter_map]
  rfl

theorem insertBefore_sublist (p : α → Bool) (x : α) (h : l.Sublist m) :
    (insertBefore p x l).Sublist (insertBefore p x m) :=
  (h.filter _).append ((h.filter p).cons_cons x)

theorem UpClosed.sublist_insertBefore (h : UpClosed p l) (x : α) :
    l.Sublist (insertBefore p x l) := by
  have hsub : (l.filter (fun a => !p a) ++ l.filter p).Sublist (insertBefore p x l) :=
    (List.Sublist.refl _).append (List.sublist_cons_self x _)
  rwa [h.filter_append_filter] at hsub

theorem UpClosed.perm_insertBefore (h : UpClosed p l) (x : α) :
    (insertBefore p x l).Perm (x :: l) := by
  have hperm : (insertBefore p x l).Perm (x :: (l.filter (fun a => !p a) ++ l.filter p)) :=
    List.perm_middle
  rwa [h.filter_append_filter] at hperm

/-- On a sorted list, insertion is that of insertion sort. -/
theorem UpClosed.orderedInsert_eq {r : α → α → Prop} [DecidableRel r] (x : α)
    (h : UpClosed (fun b => decide (r x b)) l) :
    l.orderedInsert r x = insertBefore (fun b => decide (r x b)) x l := by
  have htake : l.takeWhile (fun b => decide ¬ r x b) = l.filter fun b => !decide (r x b) := by
    rw [← h.takeWhile_eq]
    simp only [decide_not]
  have hdrop : l.dropWhile (fun b => decide ¬ r x b) = l.filter fun b => decide (r x b) := by
    have hsplit := List.takeWhile_append_dropWhile (p := fun b => decide ¬ r x b) (l := l)
    rw [htake] at hsplit
    exact List.append_cancel_left (hsplit.trans h.filter_append_filter.symm)
  rw [List.orderedInsert_eq_take_drop, htake, hdrop, insertBefore]

/-! ### Removing -/

/-- Let the elements that satisfy `q` come first among those that satisfy `p`. Then either no
element satisfies `q`, or the first one is the first element that satisfies `p`. -/
theorem UpClosed.eraseP_cases (h : UpClosed p l) (hqp : ∀ a ∈ l, q a = true → p a = true)
    (hfirst : ∀ b rest, l.filter p = b :: rest → q b = false → ∀ a ∈ rest, q a = false) :
    ((l.filter p = [] ∨ ∃ b rest, l.filter p = b :: rest ∧ q b = false) ∧ ∀ a ∈ l, ¬ q a = true) ∨
      ∃ b rest, l.filter p = b :: rest ∧ q b = true ∧ l.find? q = some b ∧
        l.eraseP q = l.filter (fun a => !p a) ++ rest := by
  have hnot : ∀ a ∈ l.filter (fun a => !p a), ¬ q a = true := by
    intro a ha hq
    obtain ⟨hmem, hpa⟩ := List.mem_filter.1 ha
    simp [hqp a hmem hq] at hpa
  have hsplit := h.filter_append_filter
  cases hp : l.filter p with
  | nil =>
      refine Or.inl ⟨Or.inl rfl, fun a ha => hnot a ?_⟩
      rwa [← hsplit, hp, List.append_nil] at ha
  | cons b rest =>
      cases hb : q b with
      | true =>
          refine Or.inr ⟨b, rest, rfl, hb, ?_, ?_⟩
          · rw [← hsplit, hp, List.find?_append, List.find?_eq_none.2 hnot, Option.none_or,
              List.find?_cons_of_pos hb]
          · have herase := List.eraseP_append_right (l.filter p) hnot
            rw [hsplit, hp, List.eraseP_cons_of_pos hb] at herase
            exact herase
      | false =>
          refine Or.inl ⟨Or.inr ⟨b, rest, rfl, hb⟩, fun a ha => ?_⟩
          rw [← hsplit, hp, List.mem_append, List.mem_cons] at ha
          rcases ha with ha | rfl | ha
          · exact hnot a ha
          · simp [hb]
          · simp [hfirst b rest hp hb a ha]

/-- The first match and what is left without it. -/
theorem find?_eq_some_split (h : l.find? q = some x) :
    ∃ u v, l = u ++ x :: v ∧ q x = true ∧ (∀ a ∈ u, ¬ q a = true) ∧ l.eraseP q = u ++ v := by
  obtain ⟨hx, u, v, rfl, hnone⟩ := List.find?_eq_some_iff_append.1 h
  have hnot : ∀ a ∈ u, ¬ q a = true := fun a ha hqa => by simpa [hqa] using hnone a ha
  refine ⟨u, v, rfl, hx, hnot, ?_⟩
  rw [List.eraseP_append_right _ hnot, List.eraseP_cons_of_pos hx]

/-- In a list without duplicates, removing the first match keeps every other element. -/
theorem mem_eraseP_iff_of_find? (hnodup : l.Nodup) (hx : l.find? q = some x) :
    a ∈ l.eraseP q ↔ a ∈ l ∧ a ≠ x := by
  obtain ⟨u, v, rfl, -, -, herase⟩ := find?_eq_some_split hx
  have hfresh := (List.nodup_cons.1 (List.nodup_middle.1 hnodup)).1
  rw [herase, List.perm_middle.mem_iff, List.mem_cons]
  constructor
  · intro hmem
    refine ⟨Or.inr hmem, ?_⟩
    rintro rfl
    exact hfresh hmem
  · rintro ⟨rfl | hmem, hne⟩
    · exact absurd rfl hne
    · exact hmem

/-- The first match of a list is the first match of each of its sublists that has it. -/
theorem find?_eq_some_of_sublist (hsub : l.Sublist m) (hnodup : m.Nodup)
    (hx : m.find? q = some x) (hmem : x ∈ l) : l.find? q = some x := by
  induction hsub with
  | slnil => cases hmem
  | @cons l m a hsub ih =>
      obtain ⟨hfresh, hnodup⟩ := List.nodup_cons.1 hnodup
      have hne : a ≠ x := fun heq => hfresh (heq ▸ hsub.subset hmem)
      rw [List.find?_cons] at hx
      cases ha : q a with
      | true =>
          rw [ha] at hx
          exact absurd (Option.some.inj hx) hne
      | false =>
          rw [ha] at hx
          exact ih hnodup hx hmem
  | @cons_cons l m a hsub ih =>
      obtain ⟨-, hnodup⟩ := List.nodup_cons.1 hnodup
      rw [List.find?_cons] at hx ⊢
      cases ha : q a with
      | true =>
          rw [ha] at hx
          exact hx
      | false =>
          rw [ha] at hx
          have hne : x ≠ a := by
            rintro rfl
            rw [List.find?_some hx] at ha
            cases ha
          exact ih hnodup hx (List.mem_of_ne_of_mem hne hmem)

/-- The first match is on no sublist that has lost its own. -/
theorem notMem_eraseP_of_sublist (hsub : l.Sublist m) (hnodup : m.Nodup)
    (hx : m.find? q = some x) : x ∉ l.eraseP q := by
  obtain ⟨u, v, hsplit, -, -, herase⟩ := find?_eq_some_split hx
  rw [hsplit] at hnodup
  intro hmem
  have hrest := (hsub.eraseP (p := q)).subset hmem
  rw [herase] at hrest
  exact (List.nodup_cons.1 (List.nodup_middle.1 hnodup)).1 hrest

end Miscellany
