import Mathlib.Data.List.Basic
import Mathlib.Data.Nat.Notation

/-!
# The singly linked list

`slist.c` and the scanner of `c99.l` have the same list. A node is allocated by `new_node` and
linked behind the last one by `add_node`; no node is removed or freed, so `malloc` is taken to give
the addresses in turn.
-/

namespace Miscellany

structure Snode (α : Type*) where
  data : α
  next : Option ℕ
deriving DecidableEq

/-- A `slist` with the nodes that have been allocated. -/
structure Slist (α : Type*) where
  nodes : List (Snode α)
  size : ℕ
  head : Option ℕ
  tail : Option ℕ
deriving DecidableEq

namespace Slist

variable {α : Type*}

/-- `{ 0, 0, 0 }` -/
def empty : Slist α := ⟨[], 0, none, none⟩

/-- `new_node`: the address of the node. -/
def newNode (l : Slist α) (data : α) : Slist α × ℕ :=
  ({ l with nodes := l.nodes ++ [⟨data, none⟩] }, l.nodes.length)

/-- `add_node`; `none` is an access through a null pointer. -/
def addNode (l : Slist α) (node : ℕ) : Option (Slist α) :=
  if 0 < l.size then
    l.tail.map fun tail =>
      { l with
        nodes := l.nodes.modify tail fun n => { n with next := some node }
        tail := some node
        size := l.size + 1 }
  else some { l with tail := some node, head := some node, size := l.size + 1 }

/-- `add_node` of a new node. -/
def add (l : Slist α) (data : α) : Option (Slist α) :=
  (l.newNode data).1.addNode (l.newNode data).2

/-- The loop of `main`: the data that it prints. -/
def printFrom (nodes : List (Snode α)) : ℕ → Option ℕ → Option (List α)
  | _, none => some []
  | 0, some _ => none
  | fuel + 1, some p =>
      nodes[p]?.bind fun n => (printFrom nodes fuel n.next).map (n.data :: ·)

/-- What `main` prints: a list of `size` nodes has a loop of `size` turns. -/
def print (l : Slist α) : Option (List α) := printFrom l.nodes l.size l.head

/-- The node of the element `x` at `k` in a list of `n` elements. -/
def node (n k : ℕ) (x : α) : Snode α := ⟨x, if k + 1 < n then some (k + 1) else none⟩

/-- The list that holds the elements `xs`. -/
def ofList (xs : List α) : Slist α where
  nodes := xs.mapIdx (node xs.length)
  size := xs.length
  head := if xs.length = 0 then none else some 0
  tail := if xs.length = 0 then none else some (xs.length - 1)

theorem ofList_nil : (ofList [] : Slist α) = empty := rfl

/-- Linking a new node behind the last one. -/
theorem modify_mapIdx {xs : List α} (hpos : 0 < xs.length) (x : α) :
    (xs.mapIdx (node xs.length) ++ [(⟨x, none⟩ : Snode α)]).modify (xs.length - 1)
        (fun n => { n with next := some xs.length }) =
      (xs ++ [x]).mapIdx (node (xs.length + 1)) := by
  refine List.ext_getElem (by simp) fun k hk hk' => ?_
  simp only [List.length_modify, List.length_append, List.length_mapIdx,
    List.length_singleton] at hk
  rw [List.getElem_modify, List.getElem_mapIdx]
  rcases Nat.lt_or_ge k xs.length with hlt | hge
  · rw [List.getElem_append_left (by simpa using hlt), List.getElem_append_left hlt,
      List.getElem_mapIdx]
    by_cases hlast : xs.length - 1 = k
    · have hk1 : k + 1 = xs.length := by omega
      simp [node, hlast, hk1]
    · have hk1 : k + 1 < xs.length := by omega
      simp [node, hlast, hk1, hlt]
  · obtain rfl : k = xs.length := by omega
    have hlast : ¬ xs.length - 1 = xs.length := by omega
    simp [node, hlast]

theorem add_ofList (xs : List α) (x : α) : (ofList xs).add x = some (ofList (xs ++ [x])) := by
  by_cases hxs : xs = []
  · rw [hxs]
    rfl
  · have hpos := List.length_pos_of_ne_nil hxs
    have hnodes := modify_mapIdx hpos x
    simp [add, newNode, addNode, ofList, hxs, hpos, hnodes]

/-- The loop, from the element `k` on. -/
theorem printFrom_mapIdx (xs : List α) {k fuel : ℕ} (hk : k < xs.length)
    (hfuel : xs.length = k + fuel) :
    printFrom (xs.mapIdx (node xs.length)) fuel (some k) = some (xs.drop k) := by
  induction fuel generalizing k with
  | zero => omega
  | succ fuel ih =>
      rw [printFrom, List.getElem?_mapIdx, List.getElem?_eq_getElem hk, Option.map_some,
        Option.bind_some, List.drop_eq_getElem_cons hk, node]
      split_ifs with hlast
      · rw [ih hlast (by omega), Option.map_some]
      · rw [List.drop_eq_nil_of_le (by omega)]
        cases fuel <;> rfl

/-- `main` prints the elements in the order in which they have been added. -/
theorem print_ofList (xs : List α) : (ofList xs).print = some xs := by
  cases xs with
  | nil => rfl
  | cons x xs => exact printFrom_mapIdx (x :: xs) (Nat.zero_lt_succ _) (Nat.zero_add _).symm

end Slist

end Miscellany
