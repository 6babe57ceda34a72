import Miscellany.EventLoop.RbTree

/-!
# The pointers of `rbtree.c`

The functions of `rbtree.c` and `rbtree.h` on the memory they work on: a node is
a place with a parent, a colour and two children, and a root is a pointer to a
node. `A` is the type of addresses and `none` is the null pointer. The parent and
the colour of a node share the word `rb_parent_color` in the source, whose two
low bits are free because nodes are aligned; here they are two fields.

Following a null pointer is a fault, and a function that does so returns `none`.
The loops take a bound on their rounds, and running out of it is `none` as well.
-/

namespace Miscellany

/-- `struct rb_node`. -/
structure RbNode (A : Type*) where
  rbParent : Option A
  rbColor : RbColor
  rbRight : Option A
  rbLeft : Option A
deriving DecidableEq

/-- The nodes in memory, and `root->rb_node`. -/
structure RbMemory (A : Type*) where
  node : A → RbNode A
  rbNode : Option A

namespace RbMemory

open RbColor

variable {A : Type*} [DecidableEq A]

def modify (m : RbMemory A) (a : A) (f : RbNode A → RbNode A) : RbMemory A :=
  { m with node := Function.update m.node a (f (m.node a)) }

def rbSetParent (m : RbMemory A) (a : A) (p : Option A) : RbMemory A :=
  m.modify a fun v => { v with rbParent := p }

def rbSetColor (m : RbMemory A) (a : A) (c : RbColor) : RbMemory A :=
  m.modify a fun v => { v with rbColor := c }

def setRight (m : RbMemory A) (a : A) (p : Option A) : RbMemory A :=
  m.modify a fun v => { v with rbRight := p }

def setLeft (m : RbMemory A) (a : A) (p : Option A) : RbMemory A :=
  m.modify a fun v => { v with rbLeft := p }

def setRoot (m : RbMemory A) (p : Option A) : RbMemory A := { m with rbNode := p }

/-- `if (child) rb_set_parent(child, parent)`. -/
def setParentOf (m : RbMemory A) (child parent : Option A) : RbMemory A :=
  match child with
  | some c => m.rbSetParent c parent
  | none => m

/-- The test `node && rb_is_red(node)`, and the negation of `!node || rb_is_black(node)`. -/
def isRed (m : RbMemory A) : Option A → Bool
  | some a => (m.node a).rbColor = red
  | none => false

/-- The pointer that leads to `node`, in its parent or in the root, is set to `child`. -/
def relink (m : RbMemory A) (parent : Option A) (node : A) (child : Option A) : RbMemory A :=
  match parent with
  | some p =>
      if (m.node p).rbLeft = some node then m.setLeft p child else m.setRight p child
  | none => m.setRoot child

/-- `relink` with the right child tested first. -/
def relinkRight (m : RbMemory A) (parent : Option A) (node : A) (child : Option A) : RbMemory A :=
  match parent with
  | some p =>
      if (m.node p).rbRight = some node then m.setRight p child else m.setLeft p child
  | none => m.setRoot child

/-! ### Rotations -/

def rbRotateLeft (m : RbMemory A) (node : A) : Option (RbMemory A) := do
  let right ← (m.node node).rbRight
  let parent := (m.node node).rbParent
  let below := (m.node right).rbLeft
  let m := m.setRight node below
  let m := m.setParentOf below (some node)
  let m := m.setLeft right (some node)
  let m := m.rbSetParent right parent
  let m := m.relink parent node (some right)
  return m.rbSetParent node (some right)

def rbRotateRight (m : RbMemory A) (node : A) : Option (RbMemory A) := do
  let left ← (m.node node).rbLeft
  let parent := (m.node node).rbParent
  let below := (m.node left).rbRight
  let m := m.setLeft node below
  let m := m.setParentOf below (some node)
  let m := m.setRight left (some node)
  let m := m.rbSetParent left parent
  let m := m.relinkRight parent node (some left)
  return m.rbSetParent node (some left)

/-! ### Insertion -/

/-- The write through `link`, which leads to the left or the right child of `parent` or, without
a parent, is the root. -/
def setLink (m : RbMemory A) (parent : Option A) (left : Bool) (child : Option A) : RbMemory A :=
  match parent with
  | some p => if left then m.setLeft p child else m.setRight p child
  | none => m.setRoot child

def rbLinkNode (m : RbMemory A) (node : A) (parent : Option A) (left : Bool) : RbMemory A :=
  let m := m.modify node fun _ => ⟨parent, red, none, none⟩
  m.setLink parent left (some node)

/-- The loop of `rb_insert_color`. -/
def insertColorLoop : ℕ → RbMemory A → A → Option (RbMemory A)
  | 0, _, _ => none
  | fuel + 1, m, node =>
      match (m.node node).rbParent with
      | none => some m
      | some parent =>
          if (m.node parent).rbColor = black then some m
          else do
            let gparent ← (m.node parent).rbParent
            if some parent = (m.node gparent).rbLeft then
              let uncle := (m.node gparent).rbRight
              if m.isRed uncle then
                let m := ((m.rbSetColor (← uncle) black).rbSetColor parent black).rbSetColor
                  gparent red
                insertColorLoop fuel m gparent
              else if (m.node parent).rbRight = some node then
                let m ← m.rbRotateLeft parent
                let m := (m.rbSetColor node black).rbSetColor gparent red
                insertColorLoop fuel (← m.rbRotateRight gparent) parent
              else
                let m := (m.rbSetColor parent black).rbSetColor gparent red
                insertColorLoop fuel (← m.rbRotateRight gparent) node
            else
              let uncle := (m.node gparent).rbLeft
              if m.isRed uncle then
                let m := ((m.rbSetColor (← uncle) black).rbSetColor parent black).rbSetColor
                  gparent red
                insertColorLoop fuel m gparent
              else if (m.node parent).rbLeft = some node then
                let m ← m.rbRotateRight parent
                let m := (m.rbSetColor node black).rbSetColor gparent red
                insertColorLoop fuel (← m.rbRotateLeft gparent) parent
              else
                let m := (m.rbSetColor parent black).rbSetColor gparent red
                insertColorLoop fuel (← m.rbRotateLeft gparent) node

def rbInsertColor (fuel : ℕ) (m : RbMemory A) (node : A) : Option (RbMemory A) := do
  let m ← insertColorLoop fuel m node
  return m.rbSetColor (← m.rbNode) black

/-! ### Removal -/

/-- The sibling of a left child in `__rb_erase_color`, after a red one has been rotated above the
parent. -/
def blackSiblingRight (m : RbMemory A) (parent : A) : Option (RbMemory A × A) := do
  let other ← (m.node parent).rbRight
  if (m.node other).rbColor = red then
    let m := (m.rbSetColor other black).rbSetColor parent red
    let m ← m.rbRotateLeft parent
    return (m, ← (m.node parent).rbRight)
  else return (m, other)

def blackSiblingLeft (m : RbMemory A) (parent : A) : Option (RbMemory A × A) := do
  let other ← (m.node parent).rbLeft
  if (m.node other).rbColor = red then
    let m := (m.rbSetColor other black).rbSetColor parent red
    let m ← m.rbRotateRight parent
    return (m, ← (m.node parent).rbLeft)
  else return (m, other)

/-- The rest of the round of `__rb_erase_color` at a left child with the sibling `other`, and
whether the loop goes on at the parent. -/
def eraseColorLeft (m : RbMemory A) (parent other : A) : Option (RbMemory A × Bool) :=
  if !m.isRed (m.node other).rbLeft && !m.isRed (m.node other).rbRight then
    some (m.rbSetColor other red, true)
  else do
    let (m, other) ←
      if !m.isRed (m.node other).rbRight then do
        let m := (m.rbSetColor (← (m.node other).rbLeft) black).rbSetColor other red
        let m ← m.rbRotateRight other
        pure (m, ← (m.node parent).rbRight)
      else pure (m, other)
    let m := (m.rbSetColor other (m.node parent).rbColor).rbSetColor parent black
    let m := m.rbSetColor (← (m.node other).rbRight) black
    return (← m.rbRotateLeft parent, false)

def eraseColorRight (m : RbMemory A) (parent other : A) : Option (RbMemory A × Bool) :=
  if !m.isRed (m.node other).rbLeft && !m.isRed (m.node other).rbRight then
    some (m.rbSetColor other red, true)
  else do
    let (m, other) ←
      if !m.isRed (m.node other).rbLeft then do
        let m := (m.rbSetColor (← (m.node other).rbRight) black).rbSetColor other red
        let m ← m.rbRotateLeft other
        pure (m, ← (m.node parent).rbLeft)
      else pure (m, other)
    let m := (m.rbSetColor other (m.node parent).rbColor).rbSetColor parent black
    let m := m.rbSetColor (← (m.node other).rbLeft) black
    return (← m.rbRotateRight parent, false)

/-- The loop of `__rb_erase_color`, and the node it ends with. -/
def eraseColorLoop : ℕ → RbMemory A → Option A → Option A → Option (RbMemory A × Option A)
  | 0, _, _, _ => none
  | fuel + 1, m, node, parent =>
      if !m.isRed node && node ≠ m.rbNode then do
        let parent ← parent
        let (m, goesOn) ←
          if (m.node parent).rbLeft = node then do
            let (m, other) ← m.blackSiblingRight parent
            m.eraseColorLeft parent other
          else do
            let (m, other) ← m.blackSiblingLeft parent
            m.eraseColorRight parent other
        if goesOn then eraseColorLoop fuel m (some parent) (m.node parent).rbParent
        else some (m, m.rbNode)
      else some (m, node)

def rbEraseColor (fuel : ℕ) (m : RbMemory A) (node parent : Option A) : Option (RbMemory A) := do
  let (m, node) ← eraseColorLoop fuel m node parent
  match node with
  | some a => return m.rbSetColor a black
  | none => return m

/-- The loop `while (node->rb_left) node = node->rb_left`. -/
def descendLeft : ℕ → RbMemory A → A → Option A
  | 0, _, _ => none
  | fuel + 1, m, node =>
      match (m.node node).rbLeft with
      | some left => descendLeft fuel m left
      | none => some node

def descendRight : ℕ → RbMemory A → A → Option A
  | 0, _, _ => none
  | fuel + 1, m, node =>
      match (m.node node).rbRight with
      | some right => descendRight fuel m right
      | none => some node

/-- The part of `rb_erase` that takes the successor `node` of `old` out of its place, and the parent
of the child that stays there. -/
def unlinkSuccessor (m : RbMemory A) (old node : A) : Option (RbMemory A × Option A) :=
  let child := (m.node node).rbRight
  let parent := (m.node node).rbParent
  if parent = some old then some (m, some node)
  else do
    let m := m.setParentOf child parent
    let m := m.setLeft (← parent) child
    let m := m.setRight node (m.node old).rbRight
    return (m.rbSetParent (← (m.node old).rbRight) (some node), parent)

/-- The part of `rb_erase` that gives `node` the parent, the colour and the left child of `old`. -/
def takePlace (m : RbMemory A) (old node : A) : Option (RbMemory A) := do
  let m := m.rbSetParent node (m.node old).rbParent
  let m := m.rbSetColor node (m.node old).rbColor
  let m := m.setLeft node (m.node old).rbLeft
  return m.rbSetParent (← (m.node old).rbLeft) (some node)

def rbErase (fuel : ℕ) (m : RbMemory A) (node : A) : Option (RbMemory A) :=
  match (m.node node).rbLeft, (m.node node).rbRight with
  | some _, some right => do
      let old := node
      let node ← descendLeft fuel m right
      let m := m.relink (m.node old).rbParent old (some node)
      let child := (m.node node).rbRight
      let color := (m.node node).rbColor
      let (m, parent) ← m.unlinkSuccessor old node
      let m ← m.takePlace old node
      if color = black then rbEraseColor fuel m child parent else some m
  | left, right =>
      let child := if left = none then right else left
      let parent := (m.node node).rbParent
      let color := (m.node node).rbColor
      let m := m.setParentOf child parent
      let m := m.relink parent node child
      if color = black then rbEraseColor fuel m child parent else some m

/-! ### Traversal -/

/-- `rb_first`; the outer `none` is a fault or a walk that does not end. -/
def rbFirst (fuel : ℕ) (m : RbMemory A) : Option (Option A) :=
  match m.rbNode with
  | none => some none
  | some n => (descendLeft fuel m n).map some

def rbLast (fuel : ℕ) (m : RbMemory A) : Option (Option A) :=
  match m.rbNode with
  | none => some none
  | some n => (descendRight fuel m n).map some

/-- The climb of `rb_next`. -/
def climbNext : ℕ → RbMemory A → A → Option (Option A)
  | 0, _, _ => none
  | fuel + 1, m, node =>
      match (m.node node).rbParent with
      | none => some none
      | some parent =>
          if some node = (m.node parent).rbRight then climbNext fuel m parent
          else some (some parent)

/-- The climb of `rb_prev`. -/
def climbPrev : ℕ → RbMemory A → A → Option (Option A)
  | 0, _, _ => none
  | fuel + 1, m, node =>
      match (m.node node).rbParent with
      | none => some none
      | some parent =>
          if some node = (m.node parent).rbLeft then climbPrev fuel m parent
          else some (some parent)

def rbNext (fuel : ℕ) (m : RbMemory A) (node : A) : Option (Option A) :=
  if (m.node node).rbParent = some node then some none
  else
    match (m.node node).rbRight with
    | some right => (descendLeft fuel m right).map some
    | none => climbNext fuel m node

def rbPrev (fuel : ℕ) (m : RbMemory A) (node : A) : Option (Option A) :=
  if (m.node node).rbParent = some node then some none
  else
    match (m.node node).rbLeft with
    | some left => (descendRight fuel m left).map some
    | none => climbPrev fuel m node

/-! ### Replacement -/

def rbReplaceNode (m : RbMemory A) (victim new : A) : RbMemory A :=
  let v := m.node victim
  let m := m.relink v.rbParent victim (some new)
  let m := m.setParentOf (m.node victim).rbLeft (some new)
  let m := m.setParentOf (m.node victim).rbRight (some new)
  { m with node := Function.update m.node new (m.node victim) }

end RbMemory

end Miscellany
