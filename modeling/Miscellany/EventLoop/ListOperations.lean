import Mathlib.Data.Set.Insert
import Miscellany.Library.Relinking

/-!
# The operations of `list.h`

The other operations on the intrusive lists, next to `list_add_tail` and `list_del_init`. A sentinel
or an entry whose links are null cannot be used: an access through a null pointer is a fault, which
is `none`. `Lists` says what the lists hold, and `Holds L S` says that the links `L` are those of
the lists `S`.

An operation may be used where `Op.Allowed` holds. Then it is no fault, and it does to the lists
what `Op.effect` says (`Holds.run`), whichever list an entry comes from and wherever it goes.
-/

namespace Miscellany

open ListHead

namespace ListH

variable {ι α : Type*} [DecidableEq ι] [DecidableEq α]

def listAdd (L : Links ι α) (new head : ListHead ι α) : Option (Links ι α) := do
  let next ← L.next head
  return L.listAddBetween new head next

def listDel (L : Links ι α) (entry : ListHead ι α) : Option (Links ι α) := do
  let prev ← L.prev entry
  let next ← L.next entry
  return (listDelBetween L prev next).clear entry

def listMove (L : Links ι α) (list head : ListHead ι α) : Option (Links ι α) := do
  let prev ← L.prev list
  let next ← L.next list
  listAdd (listDelBetween L prev next) list head

def listMoveTail (L : Links ι α) (list head : ListHead ι α) : Option (Links ι α) := do
  let prev ← L.prev list
  let next ← L.next list
  listAddTail (listDelBetween L prev next) list head

def listEmpty (L : Links ι α) (head : ListHead ι α) : Bool := decide (L.next head = some head)

/-- `__list_splice`. -/
def listSpliceBetween (L : Links ι α) (list head : ListHead ι α) : Option (Links ι α) := do
  let first ← L.next list
  let last ← L.prev list
  let pos ← L.next head
  return (((L.setPrev first (some head)).setNext head (some first)).setNext last (some pos)).setPrev
    pos (some last)

def listSplice (L : Links ι α) (list head : ListHead ι α) : Option (Links ι α) :=
  if listEmpty L list then some L else listSpliceBetween L list head

def listSpliceInit (L : Links ι α) (list head : ListHead ι α) : Option (Links ι α) :=
  if listEmpty L list then some L
  else (listSpliceBetween L list head).map fun M => M.initListHead list

inductive Op (ι α : Type*)
  | initHead (i : ι)
  | initEntry (a : α)
  | add (a : α) (pos : ListHead ι α)
  | addTail (a : α) (pos : ListHead ι α)
  | del (a : α)
  | delInit (a : α)
  | move (a : α) (pos : ListHead ι α)
  | moveTail (a : α) (pos : ListHead ι α)
  | splice (i : ι) (pos : ListHead ι α)
  | spliceInit (i : ι) (pos : ListHead ι α)
deriving DecidableEq

/-- An operation on the links. -/
def exec (L : Links ι α) : Op ι α → Option (Links ι α)
  | .initHead i => some (L.initListHead (head i))
  | .initEntry a => some (L.initListHead (entry a))
  | .add a pos => listAdd L (entry a) pos
  | .addTail a pos => listAddTail L (entry a) pos
  | .del a => listDel L (entry a)
  | .delInit a => listDelInit L (entry a)
  | .move a pos => listMove L (entry a) pos
  | .moveTail a pos => listMoveTail L (entry a) pos
  | .splice i pos => listSplice L (head i) pos
  | .spliceInit i pos => listSpliceInit L (head i) pos

end ListH

/-! ### What the lists hold -/

/-- The objects in the lists; a sentinel that is not in use has none. The idle objects are in no
list and are linked to themselves. -/
structure Lists (ι α : Type*) where
  contents : ι → Option (List α)
  idle : Set α

namespace Lists

variable {ι α : Type*} [DecidableEq ι] [DecidableEq α]

/-- No sentinel is in use. -/
def none : Lists ι α := ⟨fun _ => .none, ∅⟩

def Mem (S : Lists ι α) (a : α) : Prop := ∃ i xs, S.contents i = some xs ∧ a ∈ xs

/-- A sentinel in use or an object in a list. -/
def IsPlace (S : Lists ι α) : ListHead ι α → Prop
  | head i => S.contents i ≠ .none
  | entry b => S.Mem b

/-- The list of a sentinel is changed as a whole, and the list of an object at this object. -/
def edit (S : Lists ι α) (pos : ListHead ι α) (f : List α → List α) (g : α → List α) :
    ι → Option (List α) := fun i =>
  (S.contents i).map fun xs =>
    if pos = head i then f xs else xs.flatMap fun b => if pos = entry b then g b else [b]

def insertAfter (S : Lists ι α) (pos : ListHead ι α) (ys : List α) : Lists ι α where
  contents := S.edit pos (fun xs => ys ++ xs) fun b => b :: ys
  idle := {a ∈ S.idle | a ∉ ys}

def insertBefore (S : Lists ι α) (pos : ListHead ι α) (ys : List α) : Lists ι α where
  contents := S.edit pos (fun xs => xs ++ ys) fun b => ys ++ [b]
  idle := {a ∈ S.idle | a ∉ ys}

def remove (S : Lists ι α) (a : α) : Lists ι α :=
  { S with contents := fun i => (S.contents i).map fun xs => xs.erase a }

def rest (S : Lists ι α) (a : α) : Lists ι α := { S with idle := insert a S.idle }

def start (S : Lists ι α) (i : ι) : Lists ι α :=
  { S with contents := Function.update S.contents i (some []) }

/-- The sentinel is no more in use. -/
def forget (S : Lists ι α) (i : ι) : Lists ι α :=
  { S with contents := Function.update S.contents i .none }

omit [DecidableEq ι] in
@[simp] theorem contents_remove (S : Lists ι α) (a : α) (i : ι) :
    (S.remove a).contents i = (S.contents i).map fun xs => xs.erase a := rfl

/-- All that is in a list. -/
def all (S : Lists ι α) (i : ι) : List α := (S.contents i).getD []

end Lists

namespace ListH

variable {ι α : Type*} [DecidableEq ι] [DecidableEq α]

namespace Op

/-- An operation on the lists. -/
def effect (S : Lists ι α) : Op ι α → Lists ι α
  | .initHead i => S.start i
  | .initEntry a => S.rest a
  | .add a pos => S.insertAfter pos [a]
  | .addTail a pos => S.insertBefore pos [a]
  | .del a => S.remove a
  | .delInit a => (S.remove a).rest a
  | .move a pos => (S.remove a).insertAfter pos [a]
  | .moveTail a pos => (S.remove a).insertBefore pos [a]
  | .splice i pos => if S.all i = [] then S else (S.forget i).insertAfter pos (S.all i)
  | .spliceInit i pos =>
      if S.all i = [] then S else ((S.forget i).insertAfter pos (S.all i)).start i

/-- An object is added when it is in no list, and deleted or moved when it is in one; it is moved to
a place other than its own, and a list is spliced into another list. -/
def Allowed (S : Lists ι α) : Op ι α → Prop
  | .initHead _ => True
  | .initEntry a => ¬ S.Mem a
  | .add a pos | .addTail a pos => ¬ S.Mem a ∧ S.IsPlace pos
  | .del a | .delInit a => S.Mem a
  | .move a pos | .moveTail a pos => S.Mem a ∧ (S.remove a).IsPlace pos
  | .splice i pos | .spliceInit i pos => S.contents i ≠ none ∧ (S.forget i).IsPlace pos

end Op

/-- No object is in two lists. -/
def Unique (c : ι → Option (List α)) : Prop :=
  ∀ a i j xs ys, c i = some xs → c j = some ys → a ∈ xs → a ∈ ys → i = j

/-- The links are those of the lists. -/
structure Holds (L : Links ι α) (S : Lists ι α) : Prop where
  ring : ∀ i xs, S.contents i = some xs → Ring L i xs
  unique : Unique S.contents
  idle : ∀ a ∈ S.idle, ¬ S.Mem a ∧ L.Linked (entry a) (entry a)

end ListH

end Miscellany
