import Mathlib.Data.List.Perm.Basic
import Mathlib.Data.List.Nodup

/-!
# Ordered trees and their traversals

A finite rooted tree whose nodes have keys and whose children are in order. A node is the
subtree below it, and `subtrees d t` lists the nodes of a tree whose root has depth `d` in
preorder, with their depths. The level order of a forest is the concatenation of its levels
(`levels`).

Both orders are described by what a traversal does with its next node. In preorder the
children are put in front of what is left (`nodes_cons`). In level order they
come behind it, where the rest of one level is followed by the part of the next one that is
already known (`levelsFrom_cons`).

Apart from the root, every key is in exactly one list of children (`keys_perm`).
-/

namespace Miscellany

inductive OrderedTree (K : Type*) where
  | node (key : K) (children : List (OrderedTree K))

namespace OrderedTree

variable {K : Type*}

def key : OrderedTree K → K
  | node k _ => k

def children : OrderedTree K → List (OrderedTree K)
  | node _ cs => cs

/-- What holds of a tree if it holds of all its children holds of every tree. -/
theorem induction {motive : OrderedTree K → Prop}
    (hnode : ∀ t, (∀ c ∈ t.children, motive c) → motive t) : ∀ t, motive t
  | node k cs => hnode (node k cs) fun c _ => induction hnode c
decreasing_by
  have hlt : sizeOf c < sizeOf cs := List.sizeOf_lt_of_mem ‹c ∈ cs›
  rw [node.sizeOf_spec]
  omega

/-! ### Preorder -/

mutual

/-- The nodes of a tree in preorder, with their depths, where the root has depth `d`. -/
def subtrees (d : ℕ) : OrderedTree K → List (ℕ × OrderedTree K)
  | node k cs => (d, node k cs) :: subtreesForest (d + 1) cs

def subtreesForest (d : ℕ) : List (OrderedTree K) → List (ℕ × OrderedTree K)
  | [] => []
  | t :: ts => subtrees d t ++ subtreesForest d ts

end

theorem subtreesForest_eq (d : ℕ) (ts : List (OrderedTree K)) :
    subtreesForest d ts = ts.flatMap (subtrees d) := by
  induction ts with
  | nil => rfl
  | cons t ts ih => rw [subtreesForest, ih, List.flatMap_cons]

theorem subtrees_eq (d : ℕ) (t : OrderedTree K) :
    t.subtrees d = (d, t) :: t.children.flatMap (subtrees (d + 1)) := by
  cases t with
  | node k cs => rw [subtrees, subtreesForest_eq, children]

/-- The nodes of a forest whose roots have depths. -/
def nodes (ts : List (ℕ × OrderedTree K)) : List (ℕ × OrderedTree K) :=
  ts.flatMap fun x => x.2.subtrees x.1

/-- A traversal in preorder puts the children of a node in front of what is left. -/
theorem nodes_cons (d : ℕ) (t : OrderedTree K) (ts : List (ℕ × OrderedTree K)) :
    nodes ((d, t) :: ts) = (d, t) :: nodes (t.children.map (fun c => (d + 1, c)) ++ ts) := by
  rw [nodes, nodes, List.flatMap_cons, subtrees_eq, List.flatMap_append, List.flatMap_map,
    List.cons_append]

/-- The nodes of a tree without their depths. -/
def family (t : OrderedTree K) : List (OrderedTree K) := (t.subtrees 0).map Prod.snd

theorem map_snd_subtrees (d : ℕ) (t : OrderedTree K) :
    (t.subtrees d).map Prod.snd = t.family := by
  induction t using induction generalizing d with
  | hnode t ih =>
      have hchildren : ∀ e, (t.children.flatMap (subtrees e)).map Prod.snd =
          t.children.flatMap family := by
        intro e
        rw [List.map_flatMap]
        apply List.flatMap_congr
        intro c hc
        exact ih c hc e
      rw [family, subtrees_eq, subtrees_eq 0, List.map_cons, List.map_cons, hchildren, hchildren]

theorem family_eq (t : OrderedTree K) : t.family = t :: t.children.flatMap family := by
  rw [family, subtrees_eq, List.map_cons, List.map_flatMap]
  simp only [map_snd_subtrees]

theorem self_mem_family (t : OrderedTree K) : t ∈ t.family := by
  rw [family_eq]
  exact List.mem_cons_self

/-- A child of a node is a node. -/
theorem children_mem_family {t u c : OrderedTree K} (hu : u ∈ t.family) (hc : c ∈ u.children) :
    c ∈ t.family := by
  induction t using induction with
  | hnode t ih =>
      rw [family_eq, List.mem_cons, List.mem_flatMap] at hu ⊢
      rcases hu with rfl | ⟨a, ha, hu⟩
      · exact Or.inr ⟨c, hc, c.self_mem_family⟩
      · exact Or.inr ⟨a, ha, ih a ha hu⟩

/-- The depth and the key of a node. -/
def entry (x : ℕ × OrderedTree K) : ℕ × K := (x.1, x.2.key)

/-- The keys in preorder, with the depths of their nodes. -/
def preorder (t : OrderedTree K) : List (ℕ × K) := (t.subtrees 0).map entry

def keys (t : OrderedTree K) : List K := t.family.map key

theorem key_mem_keys {t u : OrderedTree K} (hu : u ∈ t.family) : u.key ∈ t.keys :=
  List.mem_map_of_mem hu

theorem map_snd_preorder (t : OrderedTree K) : t.preorder.map Prod.snd = t.keys := by
  rw [preorder, keys, family, List.map_map, List.map_map]
  rfl

/-! ### Children -/

theorem flatMap_cons_perm {α β : Type*} (f : α → β) (g : α → List β) (l : List α) :
    (l.flatMap fun a => f a :: g a).Perm (l.map f ++ l.flatMap g) := by
  induction l with
  | nil => exact List.Perm.refl _
  | cons a l ih =>
      rw [List.flatMap_cons, List.map_cons, List.flatMap_cons, List.cons_append, List.cons_append]
      apply List.Perm.cons
      apply (ih.append_left (g a)).trans
      rw [← List.append_assoc, ← List.append_assoc]
      exact List.perm_append_comm.append_right _

/-- Every key is that of the root or in the list of the children of one node. -/
theorem keys_perm (t : OrderedTree K) :
    t.keys.Perm (t.key :: t.family.flatMap fun u => u.children.map key) := by
  induction t using induction with
  | hnode t ih =>
      have hchildren : (t.children.flatMap keys).Perm
          (t.children.flatMap fun c => c.key :: c.family.flatMap fun u => u.children.map key) :=
        List.Perm.flatMap_left _ ih
      rw [keys, family_eq, List.map_cons, List.map_flatMap, List.flatMap_cons]
      apply List.Perm.cons
      apply (hchildren.trans (flatMap_cons_perm _ _ _)).trans
      rw [List.flatMap_assoc]

/-! ### Level order -/

/-- The nodes of a forest at depth `i`. -/
def level : ℕ → List (OrderedTree K) → List (OrderedTree K)
  | 0, ts => ts
  | i + 1, ts => level i (ts.flatMap children)

/-- The first `n` levels of a forest whose roots have depth `d`. -/
def levels (d n : ℕ) (ts : List (OrderedTree K)) : List (ℕ × OrderedTree K) :=
  (List.range n).flatMap fun i => (level i ts).map fun t => (d + i, t)

/-- Behind the roots come the levels of their children. -/
theorem levels_succ (d n : ℕ) (ts : List (OrderedTree K)) :
    levels d (n + 1) ts =
      ts.map (fun t => (d, t)) ++ levels (d + 1) n (ts.flatMap children) := by
  rw [levels, levels, List.range_succ_eq_map, List.flatMap_cons, List.flatMap_map]
  simp only [level, Nat.add_zero, Nat.succ_eq_add_one, Nat.add_comm, Nat.add_left_comm]

/-- What is left of the level order, where the rest `ts` of a level is followed by the part `us` of
the next one that is known. -/
def levelsFrom (d n : ℕ) (ts us : List (OrderedTree K)) : List (ℕ × OrderedTree K) :=
  ts.map (fun t => (d, t)) ++ levels (d + 1) n (us ++ ts.flatMap children)

/-- A traversal in level order puts the children of a node behind what is left. -/
theorem levelsFrom_cons (d n : ℕ) (t : OrderedTree K) (ts us : List (OrderedTree K)) :
    levelsFrom d n (t :: ts) us = (d, t) :: levelsFrom d n ts (us ++ t.children) := by
  rw [levelsFrom, levelsFrom, List.map_cons, List.cons_append, List.flatMap_cons,
    List.append_assoc]

/-- When a level comes to its end, the next one is known. -/
theorem levelsFrom_nil (d n : ℕ) (us : List (OrderedTree K)) :
    levelsFrom d (n + 1) [] us = levelsFrom (d + 1) n us [] := by
  rw [levelsFrom, levelsFrom, List.map_nil, List.nil_append, List.flatMap_nil, List.append_nil,
    levels_succ, List.nil_append]

theorem level_nil (i : ℕ) : level i ([] : List (OrderedTree K)) = [] := by
  induction i with
  | zero => rfl
  | succ i ih => exact ih

theorem levels_nil (d n : ℕ) : levels d n ([] : List (OrderedTree K)) = [] := by
  apply List.flatMap_eq_nil_iff.2
  intro i _
  rw [level_nil, List.map_nil]

/-- The nodes of a forest are its roots and those of the forest of their children. -/
theorem subtrees_perm (d : ℕ) (ts : List (OrderedTree K)) :
    (ts.flatMap (subtrees d)).Perm
      (ts.map (fun t => (d, t)) ++ (ts.flatMap children).flatMap (subtrees (d + 1))) := by
  rw [List.flatMap_assoc, List.flatMap_congr fun t _ => subtrees_eq d t]
  exact flatMap_cons_perm _ _ ts

/-- The levels of a forest, as far as there are nodes, have its nodes. -/
theorem levels_perm {n : ℕ} {ts : List (OrderedTree K)} (hn : level n ts = []) (d : ℕ) :
    (levels d n ts).Perm (ts.flatMap (subtrees d)) := by
  induction n generalizing ts d with
  | zero =>
      have hnil : ts = [] := hn
      rw [hnil]
      exact List.Perm.refl _
  | succ n ih =>
      rw [levels_succ]
      exact ((ih hn (d + 1)).append_left _).trans (subtrees_perm d ts).symm

/-- A forest has no more levels than nodes. -/
theorem level_eq_nil {d n : ℕ} {ts : List (OrderedTree K)}
    (hn : (ts.flatMap (subtrees d)).length ≤ n) : level n ts = [] := by
  induction n generalizing ts d with
  | zero =>
      cases ts with
      | nil => rfl
      | cons t ts =>
          rw [List.flatMap_cons, subtrees_eq, List.cons_append, List.length_cons] at hn
          exact absurd hn (Nat.not_succ_le_zero _)
  | succ n ih =>
      cases ts with
      | nil => exact level_nil (n + 1)
      | cons t ts =>
          rw [(subtrees_perm d (t :: ts)).length_eq, List.map_cons, List.cons_append,
            List.length_cons, List.length_append] at hn
          apply ih (d := d + 1)
          omega

/-- The number of nodes. -/
def size (t : OrderedTree K) : ℕ := t.family.length

theorem length_subtrees (t : OrderedTree K) (d : ℕ) : (t.subtrees d).length = t.size := by
  rw [size, ← map_snd_subtrees d, List.length_map]

/-- The keys in level order, with the depths of their nodes. -/
def levelOrder (t : OrderedTree K) : List (ℕ × K) :=
  (levels 0 t.size [t]).map entry

theorem level_size (t : OrderedTree K) : level t.size [t] = [] := by
  have hsize : ([t].flatMap (subtrees 0)).length = t.size := by
    rw [List.flatMap_singleton, length_subtrees]
  exact level_eq_nil (Nat.le_of_eq hsize)

theorem levelOrder_perm (t : OrderedTree K) : t.levelOrder.Perm t.preorder := by
  have hperm := levels_perm t.level_size 0
  rw [List.flatMap_singleton] at hperm
  exact hperm.map _

end OrderedTree

end Miscellany
