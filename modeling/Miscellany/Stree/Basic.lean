import Mathlib.Data.Nat.Notation
import Mathlib.Order.Defs.LinearOrder

/-!
# The tree of `stree.h`

The class `stree_helper` collects the data of the nodes and their positions, each position
as the keys of the neighbours of a node. The class `stree` builds the tree from them, with a
pointer to the parent, the first child and the next sibling in each node.

A `std::map` is a map sorted by key. A node is never replaced in `_nodes`, so a pointer to it
is its key, and a null pointer is `none`. Every pointer that is stored comes from `get_node`;
reading through one that is not in `_nodes` would be a fault, for which a function has the
result `none`. So has a loop that does not come to its end, which `fuel` bounds by the number
of nodes. The data of a node that has not been set is `none`.

The member `root` has no initial value. It is therefore an argument of what is said about
`build`, which sets it.
-/

namespace Miscellany

/-- `stree_node_pos`: the pairs of a flag and a key. -/
structure StreeNodePos (K : Type) where
  parent : Option K
  left : Option K
  right : Option K

/-- The constructor without arguments. -/
def StreeNodePos.init {K : Type} : StreeNodePos K := { parent := none, left := none, right := none }

structure StreeHelper (K D : Type) [LinearOrder K] where
  nodePos : Std.TreeMap K (StreeNodePos K)
  nodeData : Std.TreeMap K D

structure StreeNode (K D : Type) where
  key : K
  data : Option D
  parent : Option K
  leftChild : Option K
  rightSibling : Option K

/-- The constructor with a key. -/
def StreeNode.init {K D : Type} (k : K) : StreeNode K D :=
  { key := k, data := none, parent := none, leftChild := none, rightSibling := none }

structure Stree (K D : Type) [LinearOrder K] where
  root : Option K
  nodes : Std.TreeMap K (StreeNode K D)

variable {K D : Type} [LinearOrder K]

/-! ### Describing a tree -/

namespace StreeHelper

def init : StreeHelper K D := { nodePos := ∅, nodeData := ∅ }

def addNode (h : StreeHelper K D) (k : K) (d : D) : StreeHelper K D :=
  { h with nodeData := h.nodeData.insert k d }

/-- The loop of `add_pos_info` over the children of `p`, with the one before the next, if any. -/
def posLoop (p : K) :
    Option K → List K → Std.TreeMap K (StreeNodePos K) → Std.TreeMap K (StreeNodePos K)
  | _, [], m => m
  | left, k :: rest, m =>
      posLoop p (some k) rest (m.insert k { parent := some p, left, right := rest.head? })

def addPosInfo (h : StreeHelper K D) (p : K) (vec : List K) : StreeHelper K D :=
  if vec.isEmpty then h
  else
    let nodePos := if h.nodePos.contains p then h.nodePos else h.nodePos.insert p .init
    { h with nodePos := posLoop p none vec nodePos }

end StreeHelper

/-! ### Building it -/

namespace Stree

/-- A tree that has just been constructed. -/
def init (root : Option K) : Stree K D := { root, nodes := ∅ }

/-- Writing a field of a node. -/
def modify (s : Stree K D) (k : K) (f : StreeNode K D → StreeNode K D) : Stree K D :=
  { s with nodes := s.nodes.modify k f }

/-- The node with the key is there when `get_node` returns. -/
def getNode (s : Stree K D) (k : K) : Stree K D :=
  if s.nodes.contains k then s
  else { s with nodes := s.nodes.insert k (.init k) }

def setNode (s : Stree K D) (k : K) (d : D) : Stree K D :=
  (s.getNode k).modify k fun n => { n with data := some d }

def setParent (s : Stree K D) (k p : K) : Stree K D :=
  s.modify k fun n => { n with parent := some p }

def setLeftChild (s : Stree K D) (k c : K) : Stree K D :=
  s.modify k fun n => { n with leftChild := some c }

def setRightSibling (s : Stree K D) (k r : K) : Stree K D :=
  s.modify k fun n => { n with rightSibling := some r }

/-- The loop of `rightmost_child`. -/
def rightmostLoop (s : Stree K D) : ℕ → Option K → Option (Option K)
  | 0, _ => none
  | _ + 1, none => some none
  | fuel + 1, some q => do
      let n ← s.nodes[q]?
      match n.rightSibling with
      | none => some (some q)
      | some r => rightmostLoop s fuel (some r)

/-- `rightmost_child` of a node that is not null. -/
def rightmostChild (s : Stree K D) (p : K) : Option (Option K) := do
  let n ← s.nodes[p]?
  s.rightmostLoop (s.nodes.size + 1) n.leftChild

def addChild (s : Stree K D) (p l r : Option K) (n : K) : Option (Stree K D) :=
  match p with
  | some p =>
      match l, r with
      | some l, some r => some (((s.setRightSibling l n).setParent n p).setRightSibling n r)
      | some l, none => some ((s.setRightSibling l n).setParent n p)
      | none, some r => some (((s.setRightSibling n r).setParent n p).setLeftChild p n)
      | none, none => do
          match ← s.rightmostChild p with
          | some rc => some ((s.setRightSibling rc n).setParent n p)
          | none => some ((s.setLeftChild p n).setParent n p)
  | none => some { s with root := some n }

/-- `get_node` for a neighbour that a position may have. -/
def getNeighbour (s : Stree K D) (k : Option K) : Stree K D := k.elim s s.getNode

def addNode (s : Stree K D) (pos : StreeNodePos K) (k : K) (d : D) : Option (Stree K D) :=
  let s := s.setNode k d
  let s := s.getNeighbour pos.parent
  let s := s.getNeighbour pos.left
  let s := s.getNeighbour pos.right
  s.addChild pos.parent pos.left pos.right k

/-- A round of the loop of `build`. -/
def buildStep (helper : StreeHelper K D) (s : Stree K D) (e : K × D) : Option (Stree K D) :=
  match helper.nodePos[e.1]? with
  | some pos => s.addNode pos e.1 e.2
  | none => some s

/-- `build`: the data are gone through in the order of their keys. -/
def build (s : Stree K D) (helper : StreeHelper K D) : Option (Stree K D) :=
  helper.nodeData.toList.foldlM (buildStep helper) s

/-! ### Traversing it -/

/-- The loop over the children of a node, from `child` on, in both traversals: each is pushed with
its depth `d`. -/
def childLoop (s : Stree K D) (push : ℕ × K → List (ℕ × K) → List (ℕ × K)) (d : ℕ) :
    ℕ → Option K → List (ℕ × K) → Option (List (ℕ × K))
  | 0, _, _ => none
  | _ + 1, none, vec => some vec
  | fuel + 1, some child, vec => do
      let n ← s.nodes[child]?
      childLoop s push d fuel n.rightSibling (push (d, child) vec)

/-- Moving all elements from the back of `vec` to the back of `stack`. The first element of a list
is the back of the vector. -/
def unload {α : Type} : List α → List α → List α
  | [], stack => stack
  | x :: vec, stack => unload vec (x :: stack)

/-- The loop of `depth_traversal`, with the back of the stack first. -/
def depthLoop (s : Stree K D) :
    ℕ → List (ℕ × K) → List (ℕ × K) → Option (List (ℕ × K))
  | 0, _, _ => none
  | _ + 1, [], result => some result
  | fuel + 1, n :: stack, result => do
      let node ← s.nodes[n.2]?
      let vec ← s.childLoop List.cons (n.1 + 1) (s.nodes.size + 1) node.leftChild []
      depthLoop s fuel (unload vec stack) (result ++ [n])

/-- The pairs of a depth and a node that `depth_traversal` puts into its result. -/
def depthTraversal (s : Stree K D) : Option (List (ℕ × K)) :=
  match s.root with
  | none => some []
  | some root => s.depthLoop (s.nodes.size + 1) [(0, root)] []

/-- The loop of `breadth_traversal`, with the front of the queue first. -/
def breadthLoop (s : Stree K D) :
    ℕ → List (ℕ × K) → List (ℕ × K) → Option (List (ℕ × K))
  | 0, _, _ => none
  | _ + 1, [], result => some result
  | fuel + 1, n :: que, result => do
      let node ← s.nodes[n.2]?
      let que ← s.childLoop (fun x que => que ++ [x]) (n.1 + 1) (s.nodes.size + 1) node.leftChild
        que
      breadthLoop s fuel que (result ++ [n])

def breadthTraversal (s : Stree K D) : Option (List (ℕ × K)) :=
  match s.root with
  | none => some []
  | some root => s.breadthLoop (s.nodes.size + 1) [(0, root)] []

end Stree

end Miscellany
