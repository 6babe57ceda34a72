import Mathlib.Data.List.Nodup
import Mathlib.Logic.Function.Basic

/-!
# Walks along a link field

A linked structure is read through a field `f : ν → Option ν`, where `none` is a
null pointer. `Walk f a xs b` says that following `f` from the node `a` passes
through exactly the nodes `xs`, in this order, and then arrives at `b`. A
circular list with sentinel `h` is a walk from `h` to `h`, and one level of a
skip list is such a walk along that level's links.

The lemmas say how a walk splits at a node, that it only depends on the links
of the nodes it leaves, and what redirecting one link does to it: a node can be
spliced in after, or cut out behind, the last node of a prefix.
-/

namespace Miscellany

/-- Following the link field `f` from `a` passes through exactly the nodes `xs`
and then arrives at `b`. -/
def Walk {ν : Type*} (f : ν → Option ν) : ν → List ν → ν → Prop
  | a, [], b => f a = some b
  | a, x :: xs, b => f a = some x ∧ Walk f x xs b

@[simp] theorem walk_nil {ν : Type*} (f : ν → Option ν) (a b : ν) :
    Walk f a [] b ↔ f a = some b := Iff.rfl

@[simp] theorem walk_cons {ν : Type*} (f : ν → Option ν) (a x b : ν) (xs : List ν) :
    Walk f a (x :: xs) b ↔ f a = some x ∧ Walk f x xs b := Iff.rfl

/-- A walk through `y` is a walk to `y` followed by a walk from `y`. -/
theorem walk_append_cons {ν : Type*} (f : ν → Option ν) (a y b : ν) (xs ys : List ν) :
    Walk f a (xs ++ y :: ys) b ↔ Walk f a xs y ∧ Walk f y ys b := by
  induction xs generalizing a with
  | nil => simp
  | cons x xs ih => simp [ih, and_assoc]

/-- A walk only depends on the links of the nodes it leaves. -/
theorem walk_congr {ν : Type*} {f g : ν → Option ν} {a b : ν} {xs : List ν}
    (h : ∀ x ∈ a :: xs, f x = g x) : Walk f a xs b ↔ Walk g a xs b := by
  induction xs generalizing a with
  | nil => simp [h a]
  | cons x xs ih =>
      have hx : ∀ y ∈ x :: xs, f y = g y := fun y hy => h y (List.mem_cons_of_mem a hy)
      simp [h a, ih hx]

theorem walk_update_of_notMem {ν : Type*} [DecidableEq ν] (f : ν → Option ν)
    {a b p : ν} {xs : List ν} (v : Option ν) (hp : p ∉ a :: xs) :
    Walk (Function.update f p v) a xs b ↔ Walk f a xs b := by
  refine walk_congr fun x hx => ?_
  have hxp : x ≠ p := fun h => hp (h ▸ hx)
  simp [Function.update_of_ne hxp]

/-- The rest of a walk starts at the last node of its prefix. -/
theorem walk_append_getLastD {ν : Type*} {f : ν → Option ν} {a b : ν} {l m : List ν}
    (h : Walk f a (l ++ m) b) : Walk f (l.getLastD a) m b := by
  induction l generalizing a with
  | nil => simpa using h
  | cons x l ih =>
      rw [List.getLastD_cons]
      exact ih h.2

/-- The last node of a prefix is linked to the first node of the rest. -/
theorem walk_link_getLastD {ν : Type*} {f : ν → Option ν} {a b : ν} {l m : List ν}
    (h : Walk f a (l ++ m) b) : f (l.getLastD a) = some (m.headD b) := by
  have hrest := walk_append_getLastD h
  cases m with
  | nil => simpa using hrest
  | cons y m => simpa using hrest.1

theorem getLastD_mem_cons {ν : Type*} (a : ν) (xs : List ν) : xs.getLastD a ∈ a :: xs := by
  induction xs generalizing a with
  | nil => simp
  | cons x xs ih =>
      rw [List.getLastD_cons]
      exact List.mem_cons_of_mem a (ih x)

theorem getLastD_mem_append {ν : Type*} (a : ν) (l m : List ν) : l.getLastD a ∈ a :: (l ++ m) := by
  rw [← List.cons_append]
  exact List.mem_append_left m (getLastD_mem_cons a l)

/-- The last of the elements that do not satisfy `p`, as an element of a longer list. -/
theorem getLastD_filter_mem {ν : Type*} (a : ν) {p : ν → Bool} {l m : List ν} (h : l.Sublist m) :
    (l.filter fun x => !p x).getLastD a = a ∨
      (l.filter fun x => !p x).getLastD a ∈ m ∧
        p ((l.filter fun x => !p x).getLastD a) = false := by
  cases List.mem_cons.1 (getLastD_mem_cons a (l.filter fun x => !p x)) with
  | inl heq => exact Or.inl heq
  | inr hmem =>
      obtain ⟨hmem, hstop⟩ := List.mem_filter.1 hmem
      exact Or.inr ⟨h.subset hmem, by simpa using hstop⟩

theorem headD_mem_append {ν : Type*} (a : ν) (l m : List ν) : m.headD a ∈ a :: (l ++ m) := by
  cases m with
  | nil => simp
  | cons x m => simp

theorem headD_reverse {ν : Type*} (l : List ν) (a : ν) : l.reverse.headD a = l.getLastD a := by
  rw [List.headD_eq_head?_getD, List.getLastD_eq_getLast?, List.head?_reverse]

theorem getLastD_reverse {ν : Type*} (l : List ν) (a : ν) : l.reverse.getLastD a = l.headD a := by
  rw [List.headD_eq_head?_getD, List.getLastD_eq_getLast?, List.getLast?_reverse]

/-- The nodes of a circular walk, with one more node in it. -/
theorem perm_splice {ν : Type*} (a n : ν) (l m : List ν) :
    (a :: (l ++ n :: m)).Perm (n :: a :: (l ++ m)) :=
  (List.perm_middle.cons a).trans (List.Perm.swap n a _)

theorem nodup_splice_iff {ν : Type*} {a n : ν} {l m : List ν} :
    (a :: (l ++ n :: m)).Nodup ↔ n ∉ a :: (l ++ m) ∧ (a :: (l ++ m)).Nodup := by
  rw [(perm_splice a n l m).nodup_iff, List.nodup_cons]

/-- Redirecting the last link of a walk changes only where it arrives. -/
theorem walk_update_getLastD {ν : Type*} [DecidableEq ν] {f : ν → Option ν} {a b : ν}
    {xs : List ν} (c : ν) (h : Walk f a xs b) (hnd : (a :: xs).Nodup) :
    Walk (Function.update f (xs.getLastD a) (some c)) a xs c := by
  rcases List.eq_nil_or_concat' xs with rfl | ⟨ys, p, rfl⟩
  · simp
  · have hp : p ∉ a :: ys := by
      rw [← List.cons_append] at hnd
      have hdisj := (List.nodup_append.1 hnd).2.2
      intro hmem
      exact hdisj p hmem p (by simp) rfl
    rw [walk_append_cons] at h ⊢
    refine ⟨?_, by simp⟩
    simpa [walk_update_of_notMem f _ hp] using h.1

/-- Splicing the node `n` into a walk, behind the last node of the prefix `l`. -/
theorem walk_splice {ν : Type*} [DecidableEq ν] {f : ν → Option ν} {a b n : ν}
    {l m : List ν} (h : Walk f a (l ++ m) b) (hnd : (a :: (l ++ m)).Nodup)
    (hn : n ∉ a :: (l ++ m)) :
    Walk (Function.update (Function.update f n (some (m.headD b))) (l.getLastD a) (some n))
      a (l ++ n :: m) b := by
  set p := l.getLastD a with hp
  have hpmem : p ∈ a :: l := getLastD_mem_cons a l
  have hpys : p ∉ m := by
    rw [← List.cons_append] at hnd
    intro hmem
    exact (List.nodup_append.1 hnd).2.2 p hpmem p hmem rfl
  have hpn : n ≠ p := by
    intro he
    subst he
    exact hn (by
      rw [← List.cons_append]
      exact List.mem_append_left m hpmem)
  have hnys : n ∉ m := fun hmem => hn (by simp [hmem])
  rw [walk_append_cons]
  constructor
  · have hxs : Walk f a l (m.headD b) := by
      cases m with
      | nil => simpa using h
      | cons y m => exact ((walk_append_cons f a y b l m).1 h).1
    have hnd' : (a :: l).Nodup := by
      rw [← List.cons_append] at hnd
      exact (List.nodup_append.1 hnd).1
    have hn' : n ∉ a :: l := by
      intro hmem
      exact hn (by
        rw [← List.cons_append]
        exact List.mem_append_left m hmem)
    exact walk_update_getLastD n ((walk_update_of_notMem f _ hn').2 hxs) hnd'
  · have hrest := walk_append_getLastD h
    have hlink : Walk f p m b := hrest
    cases m with
    | nil => simp [Function.update_of_ne hpn]
    | cons y m =>
        refine ⟨by simp [Function.update_of_ne hpn], ?_⟩
        rw [walk_update_of_notMem _ _ hpys, walk_update_of_notMem _ _ hnys]
        exact hlink.2

/-- Cutting the node `n` out of a walk, behind the last node of the prefix `l`. -/
theorem walk_cut {ν : Type*} [DecidableEq ν] {f : ν → Option ν} {a b n : ν}
    {l m : List ν} (h : Walk f a (l ++ n :: m) b) (hnd : (a :: (l ++ n :: m)).Nodup) :
    Walk (Function.update f (l.getLastD a) (some (m.headD b))) a (l ++ m) b := by
  obtain ⟨hxs, hys⟩ := (walk_append_cons f a n b l m).1 h
  have hpmem : l.getLastD a ∈ a :: l := getLastD_mem_cons a l
  rw [← List.cons_append] at hnd
  have hnd' : (a :: l).Nodup := (List.nodup_append.1 hnd).1
  have hpys : l.getLastD a ∉ m := by
    intro hmem
    exact (List.nodup_append.1 hnd).2.2 _ hpmem _ (List.mem_cons_of_mem n hmem) rfl
  cases m with
  | nil => simpa using walk_update_getLastD b hxs hnd'
  | cons y m =>
      rw [walk_append_cons]
      refine ⟨walk_update_getLastD y hxs hnd', ?_⟩
      rw [walk_update_of_notMem _ _ hpys]
      exact hys.2

/-- A walk to a node it does not pass through is determined by its two ends. -/
theorem walk_unique {ν : Type*} {f : ν → Option ν} {a b : ν} {xs ys : List ν}
    (hx : Walk f a xs b) (hy : Walk f a ys b) (hbx : b ∉ xs) (hby : b ∉ ys) : xs = ys := by
  induction xs generalizing a ys with
  | nil =>
      cases ys with
      | nil => rfl
      | cons y ys =>
          have heq : some b = some y := hx.symm.trans hy.1
          exact absurd (Option.some.inj heq) (fun h => hby (by simp [h]))
  | cons x xs ih =>
      cases ys with
      | nil =>
          have heq : some b = some x := hy.symm.trans hx.1
          exact absurd (Option.some.inj heq) (fun h => hbx (by simp [h]))
      | cons y ys =>
          have hxy : x = y := Option.some.inj (hx.1.symm.trans hy.1)
          subst hxy
          have htail := ih hx.2 hy.2 (fun h => hbx (by simp [h])) (fun h => hby (by simp [h]))
          rw [htail]

/-! ### Lists that end with a null pointer -/

/-! A list that ends with a null pointer is a walk to `none` along a field between pointers; its
nodes are the pointers that are not null. -/

theorem getLastD_map_some {ν : Type*} (a : ν) (xs : List ν) :
    (xs.map some).getLastD (some a) = some (xs.getLastD a) := by
  induction xs generalizing a with
  | nil => rfl
  | cons x xs ih => rw [List.map_cons, List.getLastD_cons, List.getLastD_cons, ih]

theorem headD_map_some {ν : Type*} (xs : List ν) : (xs.map some).headD none = xs.head? := by
  cases xs with
  | nil => rfl
  | cons x xs => rfl

end Miscellany
