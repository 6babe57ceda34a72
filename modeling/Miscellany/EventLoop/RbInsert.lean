import Miscellany.EventLoop.RbShape

/-!
# `rb_insert_color` in memory

`rb_link_node` and `rb_insert_color`, run on a memory that holds a tree, do to it
what `RbTree.rbInsertColor` does to the tree as a value. The loop takes one round
for each case of the function on trees, so the result follows its recursion. That
the rest of the tree is a red-black tree is needed as well: it is why a red parent
has a parent of its own.
-/

namespace Miscellany

open RbColor

variable {A : Type*}

def RbFrame.color : RbFrame A → RbColor
  | .left c _ _ => c
  | .right c _ _ => c

namespace RbTree

/-- Whether a path starts at a left child. -/
def hangsLeft : RbPath A → Bool
  | .left _ _ _ :: _ => true
  | _ => false

@[simp] theorem hangsLeft_nil : hangsLeft ([] : RbPath A) = false := rfl

theorem length_add_height_le (t : RbTree A) (p : RbPath A) :
    p.length + t.height ≤ (t.plug p).height := by
  induction p generalizing t with
  | nil => simp [plug]
  | cons f p ih =>
      cases f with
      | left c x r =>
          have hp := ih (node c t x r)
          simp only [height] at hp
          simp only [List.length_cons, plug]
          omega
      | right c l x =>
          have hp := ih (node c l x t)
          simp only [height] at hp
          simp only [List.length_cons, plug]
          omega

end RbTree

namespace RbMemory

open RbTree

variable {m : RbMemory A} {t l r : RbTree A} {p : RbPath A} {c d : RbColor} {x : A} {n fuel : ℕ}

/-! ### Reading a held tree -/

theorem Holds.node (h : m.Holds ((RbTree.node c l x r).plug p)) :
    m.node x = ⟨parentOf none p, c, r.ptr, l.ptr⟩ :=
  (holds_plug_iff.1 h).2.1.1

theorem Holds.left (h : m.Holds (t.plug (.left c x r :: p))) :
    m.node x = ⟨parentOf none p, c, r.ptr, t.ptr⟩ :=
  Holds.node (l := t) (r := r) (p := p) h

theorem Holds.right (h : m.Holds (t.plug (.right c l x :: p))) :
    m.node x = ⟨parentOf none p, c, t.ptr, l.ptr⟩ :=
  Holds.node (l := l) (r := t) (p := p) h

theorem exists_of_isRed (h : t.isRed = true) : ∃ l x r, t = RbTree.node red l x r := by
  cases t with
  | nil => cases h
  | node c l x r =>
      cases c with
      | red => exact ⟨l, x, r, rfl⟩
      | black => cases h

theorem exists_of_balanced (h : Balanced t black (n + 1)) :
    ∃ l x r, t = RbTree.node black l x r := by
  cases h with
  | blackNode hl hr => exact ⟨_, _, _, rfl⟩

theorem Holds.parent (h : m.Holds (t.plug p)) (hx : t.ptr = some x) :
    (m.node x).rbParent = parentOf none p := by
  cases t with
  | nil => cases hx
  | node c l y r =>
      cases hx
      rw [h.node]

theorem Holds.isRed (h : m.Holds (t.plug p)) : m.isRed t.ptr = t.isRed := by
  cases t with
  | nil => rfl
  | node c l y r =>
      have hc : (m.node y).rbColor = c := by rw [h.node]
      cases c <;> simp [RbMemory.isRed, hc]

/-- The two children of a node are different. -/
theorem Holds.ptr_ne (h : m.Holds ((RbTree.node c l x r).plug p)) {a : A}
    (hl : l.ptr = some a) : r.ptr ≠ some a := by
  obtain ⟨htnd, -, -⟩ := nodup_plug_iff.1 h.nodup
  rw [inorder_node, List.nodup_append'] at htnd
  intro hr
  exact htnd.2.2 (mem_of_ptr hl) (List.mem_cons_of_mem x (mem_of_ptr hr))

variable [DecidableEq A]

theorem Holds.recolor (h : m.Holds ((RbTree.node c l x r).plug p)) (d : RbColor) :
    (m.rbSetColor x d).Holds ((RbTree.node d l x r).plug p) := by
  obtain ⟨hroot, ht, hp, hnd⟩ := holds_plug_iff.1 h
  obtain ⟨htnd, -, htp⟩ := nodup_plug_iff.1 hnd
  have hxp : x ∉ around p := htp x (by simp)
  refine holds_plug_iff.2 ⟨?_, ht.recolor htnd, (context_modify hxp).2 hp, ?_⟩
  · rw [rbSetColor, modify_rbNode, hroot]
    cases p with
    | nil => rfl
    | cons f p => exact ptr_plug _ _ f p
  · rw [inorder_plug] at hnd ⊢
    exact hnd

/-- `rb_set_black` at the root. -/
theorem Holds.recolor_root (h : m.Holds t) (hx : t.ptr = some x) :
    (m.rbSetColor x black).Holds t.setBlack := by
  cases t with
  | nil => cases hx
  | node c l y r =>
      cases hx
      exact Holds.recolor (p := []) h black

/-! ### Insertion -/

/-- The link at the end of a path leads to another subtree. -/
theorem Context.setLink {top child : Option A} (h : m.Context top p child)
    (hnd : (around p).Nodup) (w : Option A) :
    (m.setLink (parentOf none p) (hangsLeft p) w).Context top p w := by
  cases p with
  | nil => trivial
  | cons f p =>
      cases f with
      | left c y r =>
          simp only [around, before, after] at hnd
          obtain ⟨hy, hr, hp⟩ := h
          have hyr : y ∉ r.inorder := by grind
          have hyp : y ∉ around p := by grind [around]
          simp only [RbMemory.setLink, parentOf_left, hangsLeft, if_true]
          exact ⟨by simp [setLeft, hy], (subtree_modify hyr).2 hr, (context_modify hyp).2 hp⟩
      | right c l y =>
          simp only [around, before, after] at hnd
          obtain ⟨hy, hl, hp⟩ := h
          have hyl : y ∉ l.inorder := by grind
          have hyp : y ∉ around p := by grind [around]
          simp only [RbMemory.setLink, parentOf_right, hangsLeft, Bool.false_eq_true, if_false]
          exact ⟨by simp [setRight, hy], (subtree_modify hyl).2 hl, (context_modify hyp).2 hp⟩

theorem setLink_node_of_ne (m : RbMemory A) {v : Option A} {a : A} (hv : v ≠ some a) (b : Bool)
    (w : Option A) : (m.setLink v b w).node a = m.node a := by
  cases v with
  | none => rfl
  | some y =>
      have hne : a ≠ y := fun hay => hv (hay ▸ rfl)
      cases b with
      | false => exact modify_node_of_ne m (fun n => { n with rbRight := w }) hne
      | true => exact modify_node_of_ne m (fun n => { n with rbLeft := w }) hne

theorem setLink_rbNode {u : RbTree A} (h : m.rbNode = (t.plug p).ptr) (b : Bool) :
    (m.setLink (parentOf none p) b u.ptr).rbNode = (u.plug p).ptr := by
  cases p with
  | nil => rfl
  | cons f p =>
      have hroot : m.rbNode = (u.plug (f :: p)).ptr := h.trans (ptr_plug t u f p)
      cases f <;> cases b <;> exact hroot

/-- `rb_link_node` hangs a red node at a free place. -/
theorem rbLinkNode_holds (h : m.Holds (nil.plug p)) (hx : x ∉ (nil.plug p).inorder) :
    (m.rbLinkNode x (parentOf none p) (hangsLeft p)).Holds
      ((RbTree.node red nil x nil).plug p) := by
  obtain ⟨hroot, -, hp, hnd⟩ := holds_plug_iff.1 h
  obtain ⟨-, hpnd, -⟩ := nodup_plug_iff.1 hnd
  have hxp : x ∉ around p := by simpa [inorder_plug, around] using hx
  have hq : parentOf none p ≠ some x := fun hq => hxp (mem_around_of_parentOf hq)
  have hp' := (context_modify (f := fun _ => ⟨parentOf none p, red, none, none⟩) hxp).2 hp
  refine holds_plug_iff.2 ⟨?_, ⟨?_, trivial, trivial⟩, hp'.setLink hpnd (some x), ?_⟩
  · rw [rbLinkNode]
    exact setLink_rbNode (u := .node red nil x nil) (by simpa using hroot) _
  · rw [rbLinkNode, setLink_node_of_ne _ hq, modify_node_self]
    rfl
  · refine nodup_plug_iff.2 ⟨by simp, hpnd, ?_⟩
    simpa using hxp

/-- The loop of `rb_insert_color` ends at the root and below a black parent. -/
theorem insertColorLoop_stop (h : m.Holds (t.plug p)) (hx : t.ptr = some x) (hf : 0 < fuel)
    (hp : ∀ f ∈ p.head?, f.color = black) : insertColorLoop fuel m x = some m := by
  obtain ⟨fuel, rfl⟩ := Nat.exists_eq_add_of_lt hf
  have hparent := h.parent hx
  rw [Nat.zero_add, insertColorLoop]
  cases p with
  | nil => simp [hparent]
  | cons f p =>
      cases f with
      | left c y r =>
          obtain rfl : c = black := hp _ rfl
          simp [hparent, h.left]
      | right c l y =>
          obtain rfl : c = black := hp _ rfl
          simp [hparent, h.right]

/-- A round with a red uncle on the right passes the red node on to the grandparent. -/
theorem insertColorLoop_uncle_right {ul ur : RbTree A} {px gx ux : A}
    (h : m.Holds ((RbTree.node red l px r).plug (.left c gx (.node red ul ux ur) :: p)))
    (hx : (m.node x).rbParent = some px) :
    ∃ m', insertColorLoop (fuel + 1) m x = insertColorLoop fuel m' gx ∧
      m'.Holds ((RbTree.node red (.node black l px r) gx (.node black ul ux ur)).plug p) := by
  have hg := h.left
  have hu : m.isRed (some ux) = true :=
    Holds.isRed (t := .node red ul ux ur) (p := .right c (.node red l px r) gx :: p) h
  have h₁ := Holds.recolor (p := .right c (.node red l px r) gx :: p) h black
  have h₂ := Holds.recolor (p := .left c gx (.node black ul ux ur) :: p) h₁ black
  have h₃ := Holds.recolor (p := p) h₂ red
  refine ⟨_, ?_, h₃⟩
  rw [insertColorLoop]
  simp [hx, h.node, hg, hu]

/-- The mirror image of `insertColorLoop_uncle_right`. -/
theorem insertColorLoop_uncle_left {ul ur : RbTree A} {px gx ux : A}
    (h : m.Holds ((RbTree.node red l px r).plug (.right c (.node red ul ux ur) gx :: p)))
    (hx : (m.node x).rbParent = some px) :
    ∃ m', insertColorLoop (fuel + 1) m x = insertColorLoop fuel m' gx ∧
      m'.Holds ((RbTree.node red (.node black ul ux ur) gx (.node black l px r)).plug p) := by
  have hg := h.right
  have hu : m.isRed (some ux) = true :=
    Holds.isRed (t := .node red ul ux ur) (p := .left c gx (.node red l px r) :: p) h
  have hne : ux ≠ px := by
    rintro rfl
    exact Holds.ptr_ne (p := p) h rfl rfl
  have h₁ := Holds.recolor (p := .left c gx (.node red l px r) :: p) h black
  have h₂ := Holds.recolor (p := .right c (.node black ul ux ur) gx :: p) h₁ black
  have h₃ := Holds.recolor (p := p) h₂ red
  refine ⟨_, ?_, h₃⟩
  rw [insertColorLoop]
  simp [hx, h.node, hg, hu, hne.symm]

/-- A round with a black uncle on the right, at a left child. -/
theorem insertColorLoop_left_left {pr uncle : RbTree A} {px gx : A}
    (h : m.Holds (t.plug (.left red px pr :: .left c gx uncle :: p))) (hx : t.ptr = some x)
    (hu : ¬uncle.isRed = true) :
    ∃ m', insertColorLoop (fuel + 1) m x = insertColorLoop fuel m' x ∧
      m'.Holds (t.plug (.left black px (.node red pr gx uncle) :: p)) := by
  have hg := Holds.left (t := .node red t px pr) h
  have hright : pr.ptr ≠ some x := Holds.ptr_ne (p := .left c gx uncle :: p) h hx
  have huncle := Holds.isRed (t := uncle) (p := .right c (.node red t px pr) gx :: p) h
  have h₁ := Holds.recolor (l := t) (p := .left c gx uncle :: p) h black
  have h₂ := Holds.recolor (p := p) h₁ red
  obtain ⟨m', hrot, h'⟩ := rbRotateRight_holds h₂
  refine ⟨m', ?_, h'⟩
  rw [insertColorLoop]
  simp [h.parent hx, h.left, hg, huncle, hu, hright, hrot]

/-- A round with a black uncle on the right, at a right child. -/
theorem insertColorLoop_left_right {tl tr pl uncle : RbTree A} {px gx : A}
    (h : m.Holds ((RbTree.node d tl x tr).plug (.right red pl px :: .left c gx uncle :: p)))
    (hu : ¬uncle.isRed = true) :
    ∃ m', insertColorLoop (fuel + 1) m x = insertColorLoop fuel m' px ∧
      m'.Holds ((RbTree.node red pl px tl).plug (.left black x (.node red tr gx uncle) :: p)) := by
  have hg := Holds.left (t := .node red pl px (.node d tl x tr)) h
  have huncle := Holds.isRed (t := uncle)
    (p := .right c (.node red pl px (.node d tl x tr)) gx :: p) h
  obtain ⟨m₁, hrot, h₁⟩ := rbRotateLeft_holds (p := .left c gx uncle :: p) h
  have h₂ := Holds.recolor (p := .left c gx uncle :: p) h₁ black
  have h₃ := Holds.recolor (p := p) h₂ red
  obtain ⟨m', hrot', h'⟩ := rbRotateRight_holds h₃
  refine ⟨m', ?_, h'⟩
  rw [insertColorLoop]
  simp [h.parent rfl, h.right, hg, huncle, hu, hrot, hrot']

/-- A round with a black uncle on the left, at a right child. -/
theorem insertColorLoop_right_right {pl uncle : RbTree A} {px gx : A}
    (h : m.Holds (t.plug (.right red pl px :: .right c uncle gx :: p))) (hx : t.ptr = some x)
    (hu : ¬uncle.isRed = true) :
    ∃ m', insertColorLoop (fuel + 1) m x = insertColorLoop fuel m' x ∧
      m'.Holds (t.plug (.right black (.node red uncle gx pl) px :: p)) := by
  have hg := Holds.right (t := .node red pl px t) h
  have hleft : pl.ptr ≠ some x := fun hl => Holds.ptr_ne (p := .right c uncle gx :: p) h hl hx
  have hne : uncle.ptr ≠ some px := fun hl => Holds.ptr_ne (p := p) h hl rfl
  have huncle := Holds.isRed (t := uncle) (p := .left c gx (.node red pl px t) :: p) h
  have h₁ := Holds.recolor (r := t) (p := .right c uncle gx :: p) h black
  have h₂ := Holds.recolor (p := p) h₁ red
  obtain ⟨m', hrot, h'⟩ := rbRotateLeft_holds h₂
  refine ⟨m', ?_, h'⟩
  rw [insertColorLoop]
  simp [h.parent hx, h.right, hg, huncle, hu, hleft, hne.symm, hrot]

/-- A round with a black uncle on the left, at a left child. -/
theorem insertColorLoop_right_left {tl tr pr uncle : RbTree A} {px gx : A}
    (h : m.Holds ((RbTree.node d tl x tr).plug (.left red px pr :: .right c uncle gx :: p)))
    (hu : ¬uncle.isRed = true) :
    ∃ m', insertColorLoop (fuel + 1) m x = insertColorLoop fuel m' px ∧
      m'.Holds ((RbTree.node red tr px pr).plug (.right black (.node red uncle gx tl) x :: p)) := by
  have hg := Holds.right (t := .node red (.node d tl x tr) px pr) h
  have hne : uncle.ptr ≠ some px := fun hl => Holds.ptr_ne (p := p) h hl rfl
  have huncle := Holds.isRed (t := uncle)
    (p := .left c gx (.node red (.node d tl x tr) px pr) :: p) h
  obtain ⟨m₁, hrot, h₁⟩ := rbRotateRight_holds (p := .right c uncle gx :: p) h
  have h₂ := Holds.recolor (p := .right c uncle gx :: p) h₁ black
  have h₃ := Holds.recolor (p := p) h₂ red
  obtain ⟨m', hrot', h'⟩ := rbRotateLeft_holds h₃
  refine ⟨m', ?_, h'⟩
  rw [insertColorLoop]
  simp [h.parent rfl, h.left, hg, huncle, hu, hne.symm, hrot, hrot']

/-- The loop of `rb_insert_color` leaves the tree that `RbTree.rbInsertColor` gives, but for the
colour of the root. -/
theorem insertColorLoop_holds (h : m.Holds (t.plug p)) (hx : t.ptr = some x)
    (hp : Fits p black n) (hf : p.length < fuel) :
    ∃ m' u, insertColorLoop fuel m x = some m' ∧ m'.Holds u ∧
      u.setBlack = RbTree.rbInsertColor t p := by
  fun_induction RbTree.rbInsertColor t p generalizing m x n fuel with
  | case1 t =>
      exact ⟨m, t, insertColorLoop_stop (p := []) h hx hf (by simp), h, rfl⟩
  | case2 t f =>
      have hblack : f.color = black := by
        cases hp with
        | leftRed hr hp => cases hp
        | leftBlack hr hp => rfl
        | rightRed hl hp => cases hp
        | rightBlack hl hp => rfl
      have hstop := insertColorLoop_stop h hx (Nat.zero_lt_of_lt hf) (by simpa using hblack)
      exact ⟨m, _, hstop, h, rfl⟩
  | case3 t y r g p =>
      have hstop := insertColorLoop_stop h hx (Nat.zero_lt_of_lt hf) (by simp [RbFrame.color])
      exact ⟨m, _, hstop, h, rfl⟩
  | case4 t l y g p =>
      have hstop := insertColorLoop_stop h hx (Nat.zero_lt_of_lt hf) (by simp [RbFrame.color])
      exact ⟨m, _, hstop, h, rfl⟩
  | case5 t px pr gc gx uncle p hred ih =>
      obtain ⟨ul, ux, ur, rfl⟩ := exists_of_isRed hred
      obtain ⟨fuel, rfl⟩ := Nat.exists_eq_add_of_lt hf
      obtain ⟨m', hm', h'⟩ := insertColorLoop_uncle_right h (h.parent hx)
      rw [hm']
      cases hp with
      | leftRed hsib hp =>
          cases hp with
          | leftBlack hu hp => exact ih h' rfl hp (by simp only [List.length_cons] at hf ⊢; omega)
  | case6 t px pr gc gx uncle p hred =>
      obtain ⟨fuel, rfl⟩ := Nat.exists_eq_add_of_lt hf
      obtain ⟨m', hm', h'⟩ := insertColorLoop_left_left h hx hred
      refine ⟨m', _, hm'.trans ?_, h', rfl⟩
      refine insertColorLoop_stop h' hx ?_ (by simp [RbFrame.color])
      simp only [List.length_cons]
      omega
  | case7 t pl px gc gx uncle p hred ih =>
      obtain ⟨ul, ux, ur, rfl⟩ := exists_of_isRed hred
      obtain ⟨fuel, rfl⟩ := Nat.exists_eq_add_of_lt hf
      obtain ⟨m', hm', h'⟩ := insertColorLoop_uncle_right h (h.parent hx)
      rw [hm']
      cases hp with
      | rightRed hsib hp =>
          cases hp with
          | leftBlack hu hp => exact ih h' rfl hp (by simp only [List.length_cons] at hf ⊢; omega)
  | case8 pl px gc gx uncle p hred => cases hx
  | case9 pl px gc gx uncle p hred tc tl tx tr =>
      cases hx
      obtain ⟨fuel, rfl⟩ := Nat.exists_eq_add_of_lt hf
      obtain ⟨m', hm', h'⟩ := insertColorLoop_left_right h hred
      refine ⟨m', _, hm'.trans ?_, h', rfl⟩
      refine insertColorLoop_stop h' rfl ?_ (by simp [RbFrame.color])
      simp only [List.length_cons]
      omega
  | case10 t pl px gc uncle gx p hred ih =>
      obtain ⟨ul, ux, ur, rfl⟩ := exists_of_isRed hred
      obtain ⟨fuel, rfl⟩ := Nat.exists_eq_add_of_lt hf
      obtain ⟨m', hm', h'⟩ := insertColorLoop_uncle_left h (h.parent hx)
      rw [hm']
      cases hp with
      | rightRed hsib hp =>
          cases hp with
          | rightBlack hu hp => exact ih h' rfl hp (by simp only [List.length_cons] at hf ⊢; omega)
  | case11 t pl px gc uncle gx p hred =>
      obtain ⟨fuel, rfl⟩ := Nat.exists_eq_add_of_lt hf
      obtain ⟨m', hm', h'⟩ := insertColorLoop_right_right h hx hred
      refine ⟨m', _, hm'.trans ?_, h', rfl⟩
      refine insertColorLoop_stop h' hx ?_ (by simp [RbFrame.color])
      simp only [List.length_cons]
      omega
  | case12 t px pr gc uncle gx p hred ih =>
      obtain ⟨ul, ux, ur, rfl⟩ := exists_of_isRed hred
      obtain ⟨fuel, rfl⟩ := Nat.exists_eq_add_of_lt hf
      obtain ⟨m', hm', h'⟩ := insertColorLoop_uncle_left h (h.parent hx)
      rw [hm']
      cases hp with
      | leftRed hsib hp =>
          cases hp with
          | rightBlack hu hp => exact ih h' rfl hp (by simp only [List.length_cons] at hf ⊢; omega)
  | case13 px pr gc uncle gx p hred => cases hx
  | case14 px pr gc uncle gx p hred tc tl tx tr =>
      cases hx
      obtain ⟨fuel, rfl⟩ := Nat.exists_eq_add_of_lt hf
      obtain ⟨m', hm', h'⟩ := insertColorLoop_right_left h hred
      refine ⟨m', _, hm'.trans ?_, h', rfl⟩
      refine insertColorLoop_stop h' rfl ?_ (by simp [RbFrame.color])
      simp only [List.length_cons]
      omega

theorem rbInsertColor_holds (h : m.Holds (t.plug p)) (hx : t.ptr = some x)
    (hp : Fits p black n) (hf : p.length < fuel) :
    ∃ m', m.rbInsertColor fuel x = some m' ∧ m'.Holds (RbTree.rbInsertColor t p) := by
  obtain ⟨m₁, u, hloop, hu, heq⟩ := insertColorLoop_holds h hx hp hf
  have hmem : x ∈ u.inorder := by
    rw [← inorder_setBlack, heq, inorder_rbInsertColor]
    simp [mem_of_ptr hx]
  obtain ⟨a, ha⟩ : ∃ a, u.ptr = some a := by
    cases u with
    | nil => cases hmem
    | node c l a r => exact ⟨a, rfl⟩
  refine ⟨m₁.rbSetColor a black, ?_, ?_⟩
  · simp [RbMemory.rbInsertColor, hloop, hu.root, ha]
  · rw [← heq]
    exact hu.recolor_root ha

end RbMemory

end Miscellany
