import Mathlib.Data.List.Basic
import Mathlib.Data.List.Nodup

/-!
# The red-black tree of `rbtree.c`

A tree is its root pointer, read as a value. The parent pointers of the source
are the path from a node to the root: a frame records on which side of its
parent the node hangs, with the colour and the key of the parent and its other
child. `rbInsertColor` and `rbEraseColor` climb that path as the loops of
`rb_insert_color` and `__rb_erase_color` climb `rb_parent`, with the same cases.

Only the in-order sequence matters to a caller. It is kept by every recolouring
and rotation, so `rb_insert_color` keeps it, `rb_erase` removes exactly the
erased node from it, and `rb_first` and `rb_next` walk it.
-/

namespace Miscellany

inductive RbColor where
  | red
  | black
deriving DecidableEq, Repr

inductive RbTree (α : Type*) where
  | nil
  | node (color : RbColor) (left : RbTree α) (x : α) (right : RbTree α)
deriving DecidableEq, Repr

/-- The step from a node to its parent, for a left and for a right child. -/
inductive RbFrame (α : Type*) where
  | left (color : RbColor) (x : α) (right : RbTree α)
  | right (color : RbColor) (left : RbTree α) (x : α)

/-- The way from a node up to the root, its parent first. -/
abbrev RbPath (α : Type*) := List (RbFrame α)

namespace RbTree

open RbColor

variable {α : Type*}

def inorder : RbTree α → List α
  | nil => []
  | node _ l x r => l.inorder ++ x :: r.inorder

@[simp] theorem inorder_nil : (nil : RbTree α).inorder = [] := rfl

@[simp] theorem inorder_node (c : RbColor) (l : RbTree α) (x : α) (r : RbTree α) :
    (node c l x r).inorder = l.inorder ++ x :: r.inorder := rfl

/-- The number of nodes. -/
def size : RbTree α → ℕ
  | nil => 0
  | node _ l _ r => l.size + r.size + 1

theorem length_inorder (t : RbTree α) : t.inorder.length = t.size := by
  induction t with
  | nil => rfl
  | node c l x r ihl ihr =>
      rw [inorder_node, List.length_append, List.length_cons, ihl, ihr, size]
      omega

def isRed : RbTree α → Bool
  | node red _ _ _ => true
  | _ => false

/-- `rb_set_black`, which leaves a null pointer alone. -/
def setBlack : RbTree α → RbTree α
  | nil => nil
  | node _ l x r => node black l x r

@[simp] theorem inorder_setBlack (t : RbTree α) : t.setBlack.inorder = t.inorder := by
  cases t <;> rfl

/-- The tree in which the path `p` leads up from the subtree `t`. -/
def plug : RbTree α → RbPath α → RbTree α
  | t, [] => t
  | t, .left c x r :: p => plug (node c t x r) p
  | t, .right c l x :: p => plug (node c l x t) p

/-- The part of the in-order sequence before the subtree at the end of a path. -/
def before : RbPath α → List α
  | [] => []
  | .left _ _ _ :: p => before p
  | .right _ l x :: p => before p ++ (l.inorder ++ [x])

/-- The part of the in-order sequence after the subtree at the end of a path. -/
def after : RbPath α → List α
  | [] => []
  | .left _ x r :: p => x :: r.inorder ++ after p
  | .right _ _ _ :: p => after p

theorem inorder_plug (t : RbTree α) (p : RbPath α) :
    (t.plug p).inorder = before p ++ t.inorder ++ after p := by
  induction p generalizing t with
  | nil => simp [plug, before, after]
  | cons f p ih =>
      cases f with
      | left c x r => simp [plug, before, after, ih]
      | right c l x => simp [plug, before, after, ih]

/-! ### Insertion -/

/-- `rb_insert_color`, for a red node `t` that the path `p` leads up from. The case of a
red parent without a grandparent is a null dereference in the source; a root is black, so
it does not arise. -/
def rbInsertColor : RbTree α → RbPath α → RbTree α
  | t, [] => t.setBlack
  | t, [f] => (t.plug [f]).setBlack
  | t, f@(.left black _ _) :: g :: p => (t.plug (f :: g :: p)).setBlack
  | t, f@(.right black _ _) :: g :: p => (t.plug (f :: g :: p)).setBlack
  | t, .left red px pr :: .left _ gx uncle :: p =>
      if uncle.isRed then
        rbInsertColor (node red (node black t px pr) gx uncle.setBlack) p
      else
        ((node black t px (node red pr gx uncle)).plug p).setBlack
  | t, .right red pl px :: .left gc gx uncle :: p =>
      if uncle.isRed then
        rbInsertColor (node red (node black pl px t) gx uncle.setBlack) p
      else
        match t with
        | nil => (nil.plug (.right red pl px :: .left gc gx uncle :: p)).setBlack
        | node _ tl tx tr =>
            ((node black (node red pl px tl) tx (node red tr gx uncle)).plug p).setBlack
  | t, .right red pl px :: .right _ uncle gx :: p =>
      if uncle.isRed then
        rbInsertColor (node red uncle.setBlack gx (node black pl px t)) p
      else
        ((node black (node red uncle gx pl) px t).plug p).setBlack
  | t, .left red px pr :: .right gc uncle gx :: p =>
      if uncle.isRed then
        rbInsertColor (node red uncle.setBlack gx (node black t px pr)) p
      else
        match t with
        | nil => (nil.plug (.left red px pr :: .right gc uncle gx :: p)).setBlack
        | node _ tl tx tr =>
            ((node black (node red uncle gx tl) tx (node red tr px pr)).plug p).setBlack

/-- Recolouring and rotating keep the in-order sequence. -/
theorem inorder_rbInsertColor (t : RbTree α) (p : RbPath α) :
    (rbInsertColor t p).inorder = before p ++ t.inorder ++ after p := by
  fun_induction rbInsertColor t p <;> simp_all [inorder_plug, before, after]

/-! ### Removal -/

/-- The body of the loop of `__rb_erase_color` at a left child `t` that lacks a black node,
once its sibling is black: the subtree in the place of the parent, and whether that subtree
still lacks one. A sibling is never null in a red-black tree. -/
def eraseColorLeft (t : RbTree α) (pc : RbColor) (px : α) : RbTree α → RbTree α × Bool
  | nil => (node pc t px nil, false)
  | node oc ol ox or =>
      if !ol.isRed && !or.isRed then
        (node pc t px (node red ol ox or), true)
      else if or.isRed then
        (node pc (node black t px ol) ox or.setBlack, false)
      else
        match ol with
        | nil => (node pc t px (node oc nil ox or), false)
        | node _ oll olx olr =>
            (node pc (node black t px oll) olx (node black olr ox or), false)

/-- The mirror image of `eraseColorLeft`, for a right child. -/
def eraseColorRight (t : RbTree α) (pc : RbColor) (px : α) : RbTree α → RbTree α × Bool
  | nil => (node pc nil px t, false)
  | node oc ol ox or =>
      if !ol.isRed && !or.isRed then
        (node pc (node red ol ox or) px t, true)
      else if ol.isRed then
        (node pc ol.setBlack ox (node black or px t), false)
      else
        match or with
        | nil => (node pc (node oc ol ox nil) px t, false)
        | node _ orl orx orr =>
            (node pc (node black ol ox orl) orx (node black orr px t), false)

theorem inorder_eraseColorLeft (t : RbTree α) (pc : RbColor) (px : α) (other : RbTree α) :
    (eraseColorLeft t pc px other).1.inorder = t.inorder ++ px :: other.inorder := by
  fun_cases eraseColorLeft t pc px other <;> simp_all

theorem inorder_eraseColorRight (t : RbTree α) (pc : RbColor) (px : α) (other : RbTree α) :
    (eraseColorRight t pc px other).1.inorder = other.inorder ++ px :: t.inorder := by
  fun_cases eraseColorRight t pc px other <;> simp_all

/-- `__rb_erase_color`, for a subtree `t` that lacks a black node. A red sibling is rotated
above the parent first; the parent is then red, so the loop ends in the same round. -/
def rbEraseColor : RbTree α → RbPath α → RbTree α
  | t, [] => t.setBlack
  | t, .left pc px other :: p =>
      if t.isRed then
        t.setBlack.plug (.left pc px other :: p)
      else
        match other with
        | node red ol ox or =>
            match eraseColorLeft t red px ol with
            | (u, true) => (node black u.setBlack ox or).plug p
            | (u, false) => ((node black u ox or).plug p).setBlack
        | other =>
            match eraseColorLeft t pc px other with
            | (u, true) => rbEraseColor u p
            | (u, false) => (u.plug p).setBlack
  | t, .right pc other px :: p =>
      if t.isRed then
        t.setBlack.plug (.right pc other px :: p)
      else
        match other with
        | node red ol ox or =>
            match eraseColorRight t red px or with
            | (u, true) => (node black ol ox u.setBlack).plug p
            | (u, false) => ((node black ol ox u).plug p).setBlack
        | other =>
            match eraseColorRight t pc px other with
            | (u, true) => rbEraseColor u p
            | (u, false) => (u.plug p).setBlack

theorem inorder_rbEraseColor (t : RbTree α) (p : RbPath α) :
    (rbEraseColor t p).inorder = before p ++ t.inorder ++ after p := by
  fun_induction rbEraseColor t p with
  | case1 t => simp [before, after]
  | case2 t pc px other p hred => simp [inorder_plug, before, after]
  | case3 t pc px p hred ol ox or u hu =>
      have hin := inorder_eraseColorLeft t red px ol
      rw [hu] at hin
      simp [inorder_plug, before, after, hin]
  | case4 t pc px p hred ol ox or u hu =>
      have hin := inorder_eraseColorLeft t red px ol
      rw [hu] at hin
      simp [inorder_plug, before, after, hin]
  | case5 t pc px other p hred hother u hu ih =>
      have hin := inorder_eraseColorLeft t pc px other
      rw [hu] at hin
      simp [before, after, ih, hin]
  | case6 t pc px other p hred hother u hu =>
      have hin := inorder_eraseColorLeft t pc px other
      rw [hu] at hin
      simp [inorder_plug, before, after, hin]
  | case7 t pc other px p hred => simp [inorder_plug, before, after]
  | case8 t pc px p hred ol ox or u hu =>
      have hin := inorder_eraseColorRight t red px or
      rw [hu] at hin
      simp [inorder_plug, before, after, hin]
  | case9 t pc px p hred ol ox or u hu =>
      have hin := inorder_eraseColorRight t red px or
      rw [hu] at hin
      simp [inorder_plug, before, after, hin]
  | case10 t pc other px p hred hother u hu ih =>
      have hin := inorder_eraseColorRight t pc px other
      rw [hu] at hin
      simp [before, after, ih, hin]
  | case11 t pc other px p hred hother u hu =>
      have hin := inorder_eraseColorRight t pc px other
      rw [hu] at hin
      simp [inorder_plug, before, after, hin]

/-- The leftmost node of a nonempty subtree, with its colour, its right child and the path
up to the root of the subtree. -/
def leftmost : RbColor → RbTree α → α → RbTree α → RbPath α → RbColor × α × RbTree α × RbPath α
  | c, nil, x, r, p => (c, x, r, p)
  | c, node lc ll lx lr, x, r, p => leftmost lc ll lx lr (.left c x r :: p)

theorem inorder_leftmost (c : RbColor) (l : RbTree α) (x : α) (r : RbTree α) (p : RbPath α) :
    (leftmost c l x r p).2.1 :: (leftmost c l x r p).2.2.1.inorder ++
        after (leftmost c l x r p).2.2.2 =
      l.inorder ++ x :: r.inorder ++ after p ∧
    before (leftmost c l x r p).2.2.2 = before p := by
  fun_induction leftmost c l x r p with
  | case1 c x r p => simp
  | case2 c x r p lc ll lx lr ih => simp_all [before, after]

/-- The node with the key `x`: its colour, its children and the path up from it. -/
def locate [DecidableEq α] (x : α) :
    RbTree α → RbPath α → Option (RbColor × RbTree α × RbTree α × RbPath α)
  | nil, _ => none
  | node c l y r, p =>
      if y = x then some (c, l, r, p)
      else
        match locate x l (.left c y r :: p) with
        | some found => some found
        | none => locate x r (.right c l y :: p)

theorem plug_of_locate [DecidableEq α] {x : α} {t : RbTree α} {p : RbPath α}
    {c : RbColor} {l r : RbTree α} {q : RbPath α} (h : locate x t p = some (c, l, r, q)) :
    (node c l x r).plug q = t.plug p := by
  fun_induction locate x t p with
  | case1 => simp at h
  | case2 c' l' r' p' =>
      obtain ⟨rfl, rfl, rfl, rfl⟩ : c' = c ∧ l' = l ∧ r' = r ∧ p' = q := by simpa using h
      rfl
  | case3 c' l' y r' p' hy found hfound ih =>
      rw [h] at hfound
      simpa [plug] using ih hfound
  | case4 c' l' y r' p' hy hnone ihl ihr => simpa [plug] using ihr h

theorem locate_isSome [DecidableEq α] {x : α} {t : RbTree α} (p : RbPath α)
    (h : x ∈ t.inorder) : ∃ c l r q, locate x t p = some (c, l, r, q) := by
  fun_induction locate x t p with
  | case1 => simp at h
  | case2 c l r p => exact ⟨c, l, r, p, rfl⟩
  | case3 c l y r p hy found hfound ih => exact ⟨found.1, found.2.1, found.2.2.1, found.2.2.2, rfl⟩
  | case4 c l y r p hy hnone ihl ihr =>
      have hmem : x ∈ l.inorder ∨ x ∈ r.inorder := by
        have hxy : x ≠ y := fun he => hy he.symm
        simpa [hxy] using h
      rcases hmem with hl | hr
      · obtain ⟨c', l', r', q', hfound⟩ := ihl hl
        simp [hnone] at hfound
      · exact ihr hr

/-- `rb_erase`: a node with two children is replaced by its successor, and the successor's
right child takes the place that became free. -/
def rbErase [DecidableEq α] (x : α) (t : RbTree α) : RbTree α :=
  match locate x t [] with
  | none => t
  | some (color, nil, r, p) => if color = black then rbEraseColor r p else r.plug p
  | some (color, l, nil, p) => if color = black then rbEraseColor l p else l.plug p
  | some (c, l, node rc rl rx rr, p) =>
      match leftmost rc rl rx rr [] with
      | (color, y, child, q) =>
          if color = black then rbEraseColor child (q ++ .right c l y :: p)
          else child.plug (q ++ .right c l y :: p)

theorem before_append (q p : RbPath α) : before (q ++ p) = before p ++ before q := by
  induction q with
  | nil => simp [before]
  | cons f q ih => cases f <;> simp [before, ih]

theorem after_append (q p : RbPath α) : after (q ++ p) = after q ++ after p := by
  induction q with
  | nil => simp [after]
  | cons f q ih => cases f <;> simp [after, ih]

/-- `rb_erase` removes the node and keeps the order of the others. -/
theorem inorder_rbErase_append [DecidableEq α] {x : α} {t : RbTree α} {c : RbColor}
    {l r : RbTree α} {p : RbPath α} (h : locate x t [] = some (c, l, r, p)) :
    (rbErase x t).inorder = before p ++ l.inorder ++ (r.inorder ++ after p) := by
  unfold rbErase
  rw [h]
  cases l with
  | nil =>
      simp only
      split_ifs <;> simp [inorder_rbEraseColor, inorder_plug]
  | node lc ll lx lr =>
      cases r with
      | nil =>
          simp only
          split_ifs <;> simp [inorder_rbEraseColor, inorder_plug]
      | node rc rl rx rr =>
          obtain ⟨hmin, hbefore⟩ := inorder_leftmost rc rl rx rr []
          simp only [after, before, List.append_nil] at hmin hbefore
          simp only
          split_ifs <;>
            simp [inorder_rbEraseColor, inorder_plug, before_append, after_append, before,
              after, hbefore, ← hmin]

theorem inorder_of_locate [DecidableEq α] {x : α} {t : RbTree α} {c : RbColor}
    {l r : RbTree α} {p : RbPath α} (h : locate x t [] = some (c, l, r, p)) :
    t.inorder = before p ++ l.inorder ++ x :: (r.inorder ++ after p) := by
  have hin := congrArg inorder (plug_of_locate h)
  simpa [inorder_plug, plug] using hin.symm

theorem notMem_of_nodup_middle {x : α} {us vs : List α} (h : (us ++ x :: vs).Nodup) :
    x ∉ us ∧ x ∉ vs := by
  have hmid := (List.nodup_cons.1 (List.nodup_middle.1 h)).1
  simpa using hmid

theorem inorder_rbErase [DecidableEq α] {x : α} {t : RbTree α} (hx : x ∈ t.inorder)
    (hnd : t.inorder.Nodup) : (rbErase x t).inorder = t.inorder.erase x := by
  obtain ⟨c, l, r, p, hloc⟩ := locate_isSome [] hx
  have ht := inorder_of_locate hloc
  have hfresh : x ∉ before p ++ l.inorder := (notMem_of_nodup_middle (ht ▸ hnd)).1
  rw [inorder_rbErase_append hloc, ht, List.erase_append_right _ hfresh, List.erase_cons_head]

/-! ### Traversal -/

/-- `rb_first`. -/
def rbFirst : RbTree α → Option α
  | nil => none
  | node c l x r => some (leftmost c l x r []).2.1

theorem rbFirst_eq (t : RbTree α) : rbFirst t = t.inorder.head? := by
  cases t with
  | nil => rfl
  | node c l x r =>
      have hmin := (inorder_leftmost c l x r []).1
      simp only [after, List.append_nil] at hmin
      simp [rbFirst, ← hmin]

/-- The climb of `rb_next`: the first ancestor that the path reaches from the left. -/
def rbClimb : RbPath α → Option α
  | [] => none
  | .left _ x _ :: _ => some x
  | .right _ _ _ :: p => rbClimb p

theorem rbClimb_eq (p : RbPath α) : rbClimb p = (after p).head? := by
  fun_induction rbClimb p <;> simp_all [after]

/-- `rb_next`. -/
def rbNext [DecidableEq α] (x : α) (t : RbTree α) : Option α :=
  match locate x t [] with
  | none => none
  | some (_, _, nil, p) => rbClimb p
  | some (_, _, node rc rl rx rr, _) => some (leftmost rc rl rx rr []).2.1

/-- `rb_next` is the next node in order. -/
theorem rbNext_eq [DecidableEq α] {x : α} {t : RbTree α} {us vs : List α}
    (ht : t.inorder = us ++ x :: vs) (hnd : t.inorder.Nodup) : rbNext x t = vs.head? := by
  obtain ⟨c, l, r, p, hloc⟩ := locate_isSome (x := x) [] (by simp [ht] : x ∈ t.inorder)
  have hvs : vs = r.inorder ++ after p := by
    have hsplit := ht.symm.trans (inorder_of_locate hloc)
    have hus := notMem_of_nodup_middle (ht ▸ hnd)
    exact ((List.append_cons_inj_of_notMem hus.1 hus.2).1 hsplit).2.2
  unfold rbNext
  rw [hloc, hvs]
  cases r with
  | nil => simp [rbClimb_eq]
  | node rc rl rx rr =>
      have hmin := (inorder_leftmost rc rl rx rr []).1
      simp only [after, List.append_nil] at hmin
      simp [← hmin]

end RbTree

end Miscellany
