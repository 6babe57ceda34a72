import Miscellany.Library.SortedList
import Miscellany.Library.Walk
import Miscellany.SkipList.Basic

/-!
# The recursive skip list

The functions of `skiplist.r.c`, an earlier form of the skip list: the keys are of type
`int` and stand in the nodes, the level lists end with a null pointer, and the head has the
key -1. Memory is modelled as for `skiplist.c`, and `link` has as many entries as the level
of its node; a function that reads or writes outside of it has the result `none`. A function
that recurses over the levels takes the number of levels, that is one more than the argument
`n` of the source: with no level left it reads `link[-1]`.
-/

namespace Miscellany

/-- The structure `sknode_t` of `skiplist.r.h`. -/
structure SknodeR where
  link : ℕ → Option NodeId
  level : ℕ
  key : ℤ

/-- The structure `sklist_t` of `skiplist.r.h`. -/
structure SklistR where
  head : NodeId
  maxLevel : ℕ
  level : ℕ
  size : ℤ
  node : NodeId → SknodeR
  heap : List NodeId

namespace SklistR

/-! ### Memory -/

def setNode (s : SklistR) (p : NodeId) (n : SknodeR) : SklistR :=
  { s with node := Function.update s.node p n }

def setLink (s : SklistR) (p : NodeId) (i : ℕ) (v : Option NodeId) : SklistR :=
  s.setNode p { s.node p with link := Function.update (s.node p).link i v }

/-- `p->link[i]` can be accessed. -/
def HasLink (s : SklistR) (p : NodeId) (i : ℕ) : Prop := p ∈ s.heap ∧ i < (s.node p).level

instance (s : SklistR) (p : NodeId) (i : ℕ) : Decidable (s.HasLink p i) :=
  inferInstanceAs (Decidable (_ ∧ _))

/-- Reading `p->link[i]`, which can be null. -/
def readLink (s : SklistR) (p : NodeId) (i : ℕ) : Option (Option NodeId) :=
  if s.HasLink p i then some ((s.node p).link i) else none

/-- `p->link[i] = v`. -/
def writeLink (s : SklistR) (p : NodeId) (i : ℕ) (v : Option NodeId) : Option SklistR :=
  if s.HasLink p i then some (s.setLink p i v) else none

/-- Reading `p->key`. -/
def readKey (s : SklistR) (p : NodeId) : Option ℤ :=
  if p ∈ s.heap then some (s.node p).key else none

/-- `new_node`, given the address that `malloc` answers, which is not in use, or `none`. -/
def newNode (s : SklistR) (malloc : Option NodeId) (key : ℤ) (n : ℕ) : Option (NodeId × SklistR) :=
  match malloc with
  | none => none
  | some p =>
      if p ∈ s.heap then none
      else some (p,
        { s with
          node := Function.update s.node p { link := fun _ => none, level := n, key }
          heap := p :: s.heap })

def destroyNode (s : SklistR) (p : NodeId) : SklistR := { s with heap := s.heap.erase p }

/-- `sklist_init`, given whether the first `malloc` succeeds and the address that `new_node` gets
for the head; no memory is given for a negative number of links. -/
def sklistInit (maxLevel : ℤ) (mallocList : Bool) (head : Option NodeId) : Option SklistR :=
  if !mallocList then none
  else if maxLevel < 0 then none
  else
    match head with
    | none => none
    | some h => some
        { head := h
          maxLevel := maxLevel.toNat
          level := 0
          size := 0
          node := fun _ => { link := fun _ => none, level := maxLevel.toNat, key := -1 }
          heap := [h] }

/-! ### Searching -/

/-- The calls of `search_node` with the same `n`; `down` is the call with `n - 1`. -/
def searchLevel (s : SklistR) (key : ℤ) (n : ℕ) (down : NodeId → Option (Option NodeId)) :
    ℕ → NodeId → Option (Option NodeId)
  | 0, _ => none
  | fuel + 1, node => do
      let nodeKey ← s.readKey node
      if nodeKey = key then
        some (some node)
      else
        match ← s.readLink node n with
        | none => down node
        | some next => do
            let nextKey ← s.readKey next
            if key < nextKey then down node else searchLevel s key n down fuel next

/-- `search_node`, where the result `some none` is a null pointer. -/
def searchNode (s : SklistR) (key : ℤ) : ℕ → NodeId → Option (Option NodeId)
  | 0, node => do
      let nodeKey ← s.readKey node
      if nodeKey = key then some (some node) else none
  | n + 1, node =>
      s.searchLevel key n (fun node => if n = 0 then some none else searchNode s key n node)
        s.heap.length node

def sklistSearch (s : SklistR) (key : ℤ) : Option (Option NodeId) :=
  s.searchNode key s.level s.head

/-! ### Inserting and deleting -/

/-- The calls of `insert_node` or `delete_node` with the same `n`, up to the node where the
function stops to go to the right. -/
def walkLevel (s : SklistR) (stop : ℤ → Bool) (n : ℕ) : ℕ → NodeId → Option NodeId
  | 0, _ => none
  | fuel + 1, node => do
      match ← s.readLink node n with
      | none => some node
      | some next => do
          let nextKey ← s.readKey next
          if stop nextKey then some node else walkLevel s stop n fuel next

/-- The end of `rand_level`, which has drawn the height `i`. -/
def raiseLevel (s : SklistR) (i : ℕ) : SklistR :=
  if i > s.level then { s with level := i } else s

/-- The part of `insert_node` that links the new node into the list of level `n`. -/
def insertLink (s : SklistR) (new : NodeId) (n : ℕ) (node : NodeId) : Option SklistR :=
  if n < (s.node new).level then do
    let next ← s.readLink node n
    let s ← s.writeLink new n next
    s.writeLink node n (some new)
  else
    some s

def insertNode (key : ℤ) (new : NodeId) : ℕ → NodeId → SklistR → Option SklistR
  | 0, _, _ => none
  | n + 1, node, s => do
      let node ← s.walkLevel (fun k => key < k) n s.heap.length node
      let s ← s.insertLink new n node
      if n = 0 then some s else insertNode key new n node s

/-- `sklist_insert`; it uses the new node without a look at the answer of `malloc`. -/
def sklistInsert (s : SklistR) (key : ℤ) (height : ℕ) (malloc : Option NodeId) : Option SklistR :=
  match (s.raiseLevel height).newNode malloc key height with
  | none => none
  | some (new, s) => do
      let s ← insertNode key new s.level s.head s
      some { s with size := s.size + 1 }

/-- The part of `delete_node` that unlinks the node behind `node` from the list of level `n`, if it
has the key. -/
def deleteLink (s : SklistR) (key : ℤ) (n : ℕ) (node : NodeId) : Option SklistR := do
  match ← s.readLink node n with
  | none => some s
  | some next => do
      let nextKey ← s.readKey next
      if key = nextKey then do
        let rest ← s.readLink next n
        let s ← s.writeLink node n rest
        if n = 0 then some (s.destroyNode next) else some s
      else
        some s

def deleteNode (key : ℤ) : ℕ → NodeId → SklistR → Option SklistR
  | 0, _, _ => none
  | n + 1, node, s => do
      let node ← s.walkLevel (fun k => key ≤ k) n s.heap.length node
      let s ← s.deleteLink key n node
      if n = 0 then some s else deleteNode key n node s

/-- `sklist_delete`; it decrements `size` whether or not the key was there. -/
def sklistDelete (s : SklistR) (key : ℤ) : Option SklistR := do
  let s ← deleteNode key s.level s.head s
  some { s with size := s.size - 1 }

/-! ### Level lists -/

/-- The keys on the list of level `i` behind a node. -/
def keysBehind (s : SklistR) (i : ℕ) : ℕ → NodeId → Option (List ℤ)
  | 0, _ => none
  | fuel + 1, node => do
      match ← s.readLink node i with
      | none => some []
      | some next => do
          let key ← s.readKey next
          let keys ← keysBehind s i fuel next
          some (key :: keys)

/-- The keys on the list of level `i`. -/
def levelKeys (s : SklistR) (i : ℕ) : Option (List ℤ) := s.keysBehind i s.heap.length s.head

end SklistR

end Miscellany
