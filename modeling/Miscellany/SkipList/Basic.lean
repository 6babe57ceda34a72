import Mathlib.Data.Int.Notation
import Mathlib.Data.List.Basic
import Mathlib.Logic.Function.Basic

/-!
# The skip list

The data of `skiplist.h` and the functions of `skiplist.c`. A node is named by its
address, and the memory is kept with the list: a total map from addresses to nodes and
the addresses that are allocated. A null pointer is `none`. A read or write through a
null pointer, at an address that is not allocated, or beyond the `level` entries of
`link`, is a fault, and a function that faults has the result `none`; so does a loop that
does not come to its end, which `fuel` bounds by the number of allocated nodes.

Objects and keys are opaque. `get_key` and `cmp_key` are functions on them, which makes
the key of a stored object fixed; `destroy` is recorded as the list of the objects it has
been called on. The height of a new node, which `rand_level` draws, and the answer of
`malloc` are arguments of `sklistInsert`.
-/

namespace Miscellany

/-- The address of a `sknode_t`. -/
abbrev NodeId := ℕ

structure Sknode (O : Type) where
  link : ℕ → Option NodeId
  prev : Option NodeId
  level : ℕ
  obj : Option O

structure Sklist (K O : Type) where
  head : NodeId
  maxLevel : ℕ
  level : ℕ
  size : ℤ
  cmpKey : Option (K → K → ℤ)
  getKey : Option (O → K)
  /-- The pointer `destroy` is set. -/
  destroy : Bool
  node : NodeId → Sknode O
  heap : List NodeId
  /-- The objects `destroy` has been called on. -/
  destroyed : List O

namespace Sklist

variable {K O : Type}

/-! ### Memory -/

def setNode (s : Sklist K O) (p : NodeId) (f : Sknode O → Sknode O) : Sklist K O :=
  { s with node := Function.update s.node p (f (s.node p)) }

def setLink (s : Sklist K O) (p : NodeId) (i : ℕ) (v : NodeId) : Sklist K O :=
  s.setNode p fun n => { n with link := Function.update n.link i (some v) }

def setPrev (s : Sklist K O) (p v : NodeId) : Sklist K O :=
  s.setNode p fun n => { n with prev := some v }

/-- `p->link[i]` can be accessed. -/
def HasLink (s : Sklist K O) (p : NodeId) (i : ℕ) : Prop := p ∈ s.heap ∧ i < (s.node p).level

instance (s : Sklist K O) (p : NodeId) (i : ℕ) : Decidable (s.HasLink p i) :=
  inferInstanceAs (Decidable (_ ∧ _))

/-- Reading `p->link[i]`. -/
def readLink (s : Sklist K O) (p : NodeId) (i : ℕ) : Option NodeId :=
  if s.HasLink p i then (s.node p).link i else none

/-- Reading `p->prev`. -/
def readPrev (s : Sklist K O) (p : NodeId) : Option NodeId :=
  if p ∈ s.heap then (s.node p).prev else none

/-- `p->link[i] = v`. -/
def writeLink (s : Sklist K O) (p : NodeId) (i : ℕ) (v : NodeId) : Option (Sklist K O) :=
  if s.HasLink p i then some (s.setLink p i v) else none

/-- `p->prev = v`. -/
def writePrev (s : Sklist K O) (p v : NodeId) : Option (Sklist K O) :=
  if p ∈ s.heap then some (s.setPrev p v) else none

/-- `get_key(p->obj)`. -/
def readKey (s : Sklist K O) (getKey : O → K) (p : NodeId) : Option K :=
  if p ∈ s.heap then (s.node p).obj.map getKey else none

/-- `new_node`, given the address that `malloc` answers, which is not in use, or `none`. -/
def newNode (s : Sklist K O) (malloc : Option NodeId) (obj : Option O) (n : ℕ) :
    Option (NodeId × Sklist K O) :=
  match malloc with
  | none => none
  | some p =>
      if p ∈ s.heap then none
      else some (p,
        { s with
          node := Function.update s.node p { link := fun _ => none, prev := none, level := n, obj }
          heap := p :: s.heap })

/-- `destroy_node` for a node that is not null. -/
def destroyNode (s : Sklist K O) (p : NodeId) : Sklist K O :=
  { s with
    heap := s.heap.erase p
    destroyed := s.destroyed ++ if s.destroy then (s.node p).obj.toList else [] }

/-! ### Creating a list -/

/-- `sklist_init`, given whether the first `malloc` succeeds and the address that `new_node`
gets for the head. -/
def sklistInit (maxLevel : ℤ) (mallocList : Bool) (head : Option NodeId) :
    Option (Sklist K O) :=
  if maxLevel ≤ 0 then none
  else if !mallocList then none
  else
    match head with
    | none => none
    | some h => some
        { head := h
          maxLevel := maxLevel.toNat
          level := 0
          size := 0
          cmpKey := none
          getKey := none
          destroy := false
          node := fun _ =>
            { link := fun i => if i < maxLevel.toNat then some h else none
              prev := some h
              level := maxLevel.toNat
              obj := none }
          heap := [h]
          destroyed := [] }

/-- Setting the function pointers of a list, as its user does after `sklist_init`. -/
def setFunctions (s : Sklist K O) (cmpKey : K → K → ℤ) (getKey : O → K) (destroy : Bool) :
    Sklist K O :=
  { s with cmpKey := some cmpKey, getKey := some getKey, destroy := destroy }

/-! ### Loops -/

/-- The inner loop of `search_node`, `sklist_insert` and `sklist_delete`: on the list of level
`i`, from the node `node` on, go to the last node before the head or before a key at which
the loop breaks. -/
def walkLevel (s : Sklist K O) (getKey : O → K) (stop : K → Bool) (i : ℕ) :
    ℕ → NodeId → Option NodeId
  | 0, _ => none
  | fuel + 1, node => do
      let next ← s.readLink node i
      if next = s.head then
        some node
      else
        let nodeKey ← s.readKey getKey next
        if stop nodeKey then some node else walkLevel s getKey stop i fuel next

/-- The part of the loop of `sklist_insert` that links the new node into the list of level `i`,
behind `node`. -/
def insertLink (s : Sklist K O) (new : NodeId) (i : ℕ) (node : NodeId) : Option (Sklist K O) :=
  if i < (s.node new).level then do
    let next ← s.readLink node i
    let s ← s.writeLink new i next
    let s ← s.writeLink node i new
    if i = 0 then
      let s ← s.writePrev new node
      let next ← s.readLink new i
      s.writePrev next new
    else
      some s
  else
    some s

/-- The loop of `sklist_insert`, for the levels below the first argument. -/
def insertLoop (getKey : O → K) (stop : K → Bool) (new : NodeId) :
    ℕ → NodeId → Sklist K O → Option (Sklist K O)
  | 0, _, s => some s
  | i + 1, node, s => do
      let node ← s.walkLevel getKey stop i s.heap.length node
      let s ← s.insertLink new i node
      insertLoop getKey stop new i node s

/-- The end of `rand_level`, which has drawn the height `i`. -/
def raiseLevel (s : Sklist K O) (i : ℕ) : Sklist K O :=
  if i > s.level then { s with level := i } else s

/-- `sklist_insert`: the return value and the list. -/
def sklistInsert (s : Sklist K O) (obj : Option O) (height : ℕ) (malloc : Option NodeId) :
    Option (ℤ × Sklist K O) :=
  match obj, s.getKey, s.cmpKey with
  | some o, some getKey, some cmpKey =>
      let s := s.raiseLevel height
      match s.newNode malloc (some o) height with
      | none => some (-1, s)
      | some (new, s) => do
          let s ← insertLoop getKey (fun k => cmpKey (getKey o) k < 0) new s.level s.head s
          some (0, { s with size := s.size + 1 })
  | _, _, _ => some (-1, s)

/-- The part of the loop of `sklist_delete` that unlinks the node behind `node` from the list of
level `i`, if it has the key. The level that is decremented is positive, because the loop
decrements it at most once for each level below it. -/
def deleteLink (s : Sklist K O) (getKey : O → K) (found : K → Bool) (i : ℕ) (node : NodeId) :
    Option (Sklist K O) := do
  let next ← s.readLink node i
  if next = s.head then
    some s
  else
    let nodeKey ← s.readKey getKey next
    if found nodeKey then
      let rest ← s.readLink next i
      let s ← s.writeLink node i rest
      let after ← s.readLink node i
      let s := if node = after then { s with level := s.level - 1 } else s
      if i = 0 then
        let rest ← s.readLink next i
        let s ← s.writePrev rest node
        let s := s.destroyNode next
        some { s with size := s.size - 1 }
      else
        some s
    else
      some s

/-- The loop of `sklist_delete`, for the levels below the first argument. -/
def deleteLoop (getKey : O → K) (stop found : K → Bool) :
    ℕ → NodeId → Sklist K O → Option (Sklist K O)
  | 0, _, s => some s
  | i + 1, node, s => do
      let node ← s.walkLevel getKey stop i s.heap.length node
      let s ← s.deleteLink getKey found i node
      deleteLoop getKey stop found i node s

/-- `sklist_delete`: the return value and the list. -/
def sklistDelete (s : Sklist K O) (key : Option K) : Option (ℤ × Sklist K O) :=
  match key, s.getKey, s.cmpKey with
  | some key, some getKey, some cmpKey => do
      let s ← deleteLoop getKey (fun k => cmpKey key k ≤ 0) (fun k => cmpKey key k = 0) s.level
        s.head s
      some (0, s)
  | _, _, _ => some (-1, s)

/-! ### Iterating -/

/-- The nodes that the loop of the `sklist_foreach` macros visits from `node` on, where `next`
reads the field the loop follows. -/
def foreachLoop (s : Sklist K O) (next : NodeId → Option NodeId) :
    ℕ → Option NodeId → Option (List NodeId)
  | 0, _ => none
  | fuel + 1, node => do
      let node ← node
      if node = s.head then
        some []
      else
        let nodes ← foreachLoop s next fuel (next node)
        some (node :: nodes)

def sklistForeach (s : Sklist K O) : Option (List NodeId) :=
  s.foreachLoop (fun p => s.readLink p 0) s.heap.length (s.readLink s.head 0)

def sklistForeachReverse (s : Sklist K O) : Option (List NodeId) :=
  s.foreachLoop s.readPrev s.heap.length (s.readPrev s.head)

/-- The objects of nodes. -/
def objs (s : Sklist K O) (nodes : List NodeId) : List O :=
  nodes.filterMap fun p => (s.node p).obj

/-- The objects that `sklist_foreach` visits. -/
def contents (s : Sklist K O) : Option (List O) := s.sklistForeach.map s.objs

end Sklist

end Miscellany
