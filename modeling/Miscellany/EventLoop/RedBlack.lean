import Miscellany.EventLoop.RbTree
import Mathlib.Algebra.Ring.Nat
import Mathlib.Data.Nat.Log

/-!
# The balance of the red-black tree

A tree is balanced when no red node has a red child and every way down to a null
pointer meets the same number of black nodes (`Balanced`). A subtree fits at the
end of a path when the whole tree is balanced with it (`Fits`). The loops of
`rb_insert_color` and `__rb_erase_color` climb the path with a subtree that is
balanced but red below a red parent, or that lacks a black node, and repair the
tree on their way up.

A balanced tree with `n` nodes has at most `2 log₂ (n + 1)` levels, so this
bounds the descent of `event_add_timeout`.
-/

namespace Miscellany

namespace RbTree

open RbColor

variable {α : Type*} {t l r : RbTree α} {p : RbPath α} {x : α} {c d : RbColor} {n : ℕ}

/-- A subtree with a root of the given colour and `n` black nodes on every way down. A null
pointer counts as black. -/
inductive Balanced : RbTree α → RbColor → ℕ → Prop where
  | leaf : Balanced nil black 0
  | redNode {l r : RbTree α} {x : α} {n : ℕ} (hl : Balanced l black n) (hr : Balanced r black n) :
      Balanced (node red l x r) red n
  | blackNode {l r : RbTree α} {x : α} {c d : RbColor} {n : ℕ} (hl : Balanced l c n)
      (hr : Balanced r d n) : Balanced (node black l x r) black (n + 1)

/-- A red-black tree: its root is black. -/
def IsRedBlack (t : RbTree α) : Prop := ∃ n, Balanced t black n

/-- The place at the end of a path takes a subtree with a root of the colour `c` and `n` black
nodes on every way down. -/
inductive Fits : RbPath α → RbColor → ℕ → Prop where
  | root {n : ℕ} : Fits [] black n
  | leftRed {p : RbPath α} {x : α} {r : RbTree α} {n : ℕ} (hr : Balanced r black n)
      (hp : Fits p red n) : Fits (.left red x r :: p) black n
  | leftBlack {p : RbPath α} {x : α} {r : RbTree α} {c d : RbColor} {n : ℕ}
      (hr : Balanced r d n) (hp : Fits p black (n + 1)) : Fits (.left black x r :: p) c n
  | rightRed {p : RbPath α} {x : α} {l : RbTree α} {n : ℕ} (hl : Balanced l black n)
      (hp : Fits p red n) : Fits (.right red l x :: p) black n
  | rightBlack {p : RbPath α} {x : α} {l : RbTree α} {c d : RbColor} {n : ℕ}
      (hl : Balanced l d n) (hp : Fits p black (n + 1)) : Fits (.right black l x :: p) c n

/-! ### Trees and paths -/

@[simp] theorem isRed_nil : (nil : RbTree α).isRed = false := rfl

@[simp] theorem isRed_node_red : (node red l x r).isRed = true := rfl

@[simp] theorem isRed_node_black : (node black l x r).isRed = false := rfl

theorem isRedBlack_nil : (nil : RbTree α).IsRedBlack := ⟨0, .leaf⟩

theorem Balanced.of_isRed (h : Balanced t c n) (ht : t.isRed = true) : Balanced t red n := by
  cases h with
  | leaf => cases ht
  | redNode hl hr => exact .redNode hl hr
  | blackNode hl hr => cases ht

theorem Balanced.of_not_isRed (h : Balanced t c n) (ht : ¬t.isRed = true) :
    Balanced t black n := by
  cases h with
  | leaf => exact .leaf
  | redNode hl hr => exact absurd rfl ht
  | blackNode hl hr => exact .blackNode hl hr

theorem Balanced.setBlack (h : Balanced t c n) : t.setBlack.IsRedBlack := by
  cases h with
  | leaf => exact isRedBlack_nil
  | redNode hl hr => exact ⟨_, .blackNode hl hr⟩
  | blackNode hl hr => exact ⟨_, .blackNode hl hr⟩

theorem Balanced.setBlack_red (h : Balanced t red n) : Balanced t.setBlack black (n + 1) := by
  cases h with
  | redNode hl hr => exact .blackNode hl hr

theorem IsRedBlack.setBlack (h : t.IsRedBlack) : t.setBlack.IsRedBlack := by
  obtain ⟨n, h⟩ := h
  exact h.setBlack

/-- Where a red root fits, a black one does. -/
theorem Fits.black_of_red (h : Fits p red n) : Fits p black n := by
  cases h with
  | leftBlack hr hp => exact .leftBlack hr hp
  | rightBlack hl hp => exact .rightBlack hl hp

theorem Fits.toBlack (h : Fits p c n) : Fits p black n := by
  cases c with
  | red => exact h.black_of_red
  | black => exact h

theorem Balanced.plug (ht : Balanced t c n) (hp : Fits p c n) : (t.plug p).IsRedBlack := by
  induction p generalizing t c n with
  | nil =>
      cases hp
      exact ⟨n, ht⟩
  | cons f p ih =>
      cases hp with
      | leftRed hr hp => exact ih (.redNode ht hr) hp
      | leftBlack hr hp => exact ih (.blackNode ht hr) hp
      | rightRed hl hp => exact ih (.redNode hl ht) hp
      | rightBlack hl hp => exact ih (.blackNode hl ht) hp

/-- Every subtree of a red-black tree is balanced and fits where it is. -/
theorem IsRedBlack.fits (h : (t.plug p).IsRedBlack) : ∃ c n, Balanced t c n ∧ Fits p c n := by
  induction p generalizing t with
  | nil =>
      obtain ⟨n, h⟩ := h
      exact ⟨black, n, h, .root⟩
  | cons f p ih =>
      cases f with
      | left c x r =>
          obtain ⟨c', n, ht, hp⟩ := ih h
          cases ht with
          | redNode hl hr => exact ⟨_, _, hl, .leftRed hr hp⟩
          | blackNode hl hr => exact ⟨_, _, hl, .leftBlack hr hp⟩
      | right c l x =>
          obtain ⟨c', n, ht, hp⟩ := ih h
          cases ht with
          | redNode hl hr => exact ⟨_, _, hr, .rightRed hl hp⟩
          | blackNode hl hr => exact ⟨_, _, hr, .rightBlack hl hp⟩

/-! ### Insertion -/

/-- `rb_insert_color` repairs a tree in which a red node has been put in the place of a black
subtree. -/
theorem isRedBlack_rbInsertColor (ht : Balanced t red n) (hp : Fits p black n) :
    (rbInsertColor t p).IsRedBlack := by
  fun_induction rbInsertColor t p generalizing n with
  | case1 t => exact ht.setBlack
  | case2 t f =>
      cases hp with
      | leftRed hr hp => cases hp
      | leftBlack hr hp => exact (ht.plug (.leftBlack hr hp)).setBlack
      | rightRed hl hp => cases hp
      | rightBlack hl hp => exact (ht.plug (.rightBlack hl hp)).setBlack
  | case3 t x r g p =>
      cases hp with
      | leftBlack hr hp => exact (ht.plug (.leftBlack hr hp)).setBlack
  | case4 t l x g p =>
      cases hp with
      | rightBlack hl hp => exact (ht.plug (.rightBlack hl hp)).setBlack
  | case5 t px pr gc gx uncle p hred ih =>
      cases hp with
      | leftRed hpr hp =>
          cases hp with
          | leftBlack hu hp =>
              exact ih (.redNode (.blackNode ht hpr) (hu.of_isRed hred).setBlack_red) hp
  | case6 t px pr gc gx uncle p hred =>
      cases hp with
      | leftRed hpr hp =>
          cases hp with
          | leftBlack hu hp =>
              have hgp := Balanced.redNode (x := gx) hpr (hu.of_not_isRed hred)
              exact ((Balanced.blackNode ht hgp).plug hp).setBlack
  | case7 t pl px gc gx uncle p hred ih =>
      cases hp with
      | rightRed hpl hp =>
          cases hp with
          | leftBlack hu hp =>
              exact ih (.redNode (.blackNode hpl ht) (hu.of_isRed hred).setBlack_red) hp
  | case8 pl px gc gx uncle p hred => cases ht
  | case9 pl px gc gx uncle p hred tc tl tx tr =>
      cases ht with
      | redNode htl htr =>
          cases hp with
          | rightRed hpl hp =>
              cases hp with
              | leftBlack hu hp =>
                  have hgp := Balanced.redNode (x := gx) htr (hu.of_not_isRed hred)
                  exact ((Balanced.blackNode (.redNode hpl htl) hgp).plug hp).setBlack
  | case10 t pl px gc uncle gx p hred ih =>
      cases hp with
      | rightRed hpl hp =>
          cases hp with
          | rightBlack hu hp =>
              exact ih (.redNode (hu.of_isRed hred).setBlack_red (.blackNode hpl ht)) hp
  | case11 t pl px gc uncle gx p hred =>
      cases hp with
      | rightRed hpl hp =>
          cases hp with
          | rightBlack hu hp =>
              have hgp := Balanced.redNode (x := gx) (hu.of_not_isRed hred) hpl
              exact ((Balanced.blackNode hgp ht).plug hp).setBlack
  | case12 t px pr gc uncle gx p hred ih =>
      cases hp with
      | leftRed hpr hp =>
          cases hp with
          | rightBlack hu hp =>
              exact ih (.redNode (hu.of_isRed hred).setBlack_red (.blackNode ht hpr)) hp
  | case13 px pr gc uncle gx p hred => cases ht
  | case14 px pr gc uncle gx p hred tc tl tx tr =>
      cases ht with
      | redNode htl htr =>
          cases hp with
          | leftRed hpr hp =>
              cases hp with
              | rightBlack hu hp =>
                  have hgp := Balanced.redNode (x := gx) (hu.of_not_isRed hred) htl
                  exact ((Balanced.blackNode hgp (.redNode htr hpr)).plug hp).setBlack

/-! ### Removal -/

/-- The number of black nodes that a node of the colour `c` adds to the ways through it. -/
def weight : RbColor → ℕ
  | red => 0
  | black => 1

theorem Balanced.join (hl : Balanced l black n) (hr : Balanced r black n) :
    Balanced (node c l x r) c (n + weight c) := by
  cases c with
  | red => exact .redNode hl hr
  | black => exact .blackNode hl hr

/-- A subtree that lacks a black node: with a black root there would be `n + 1` black nodes on
every way down, or its root is black already and there are `n`. -/
def Lacks (t : RbTree α) (n : ℕ) : Prop :=
  (t.isRed = true ∧ Balanced t.setBlack black (n + 1)) ∨ Balanced t black n

theorem Balanced.lacks (h : Balanced t c n) : t.Lacks n := by
  cases c with
  | red =>
      refine .inl ⟨?_, h.setBlack_red⟩
      cases h
      rfl
  | black => exact .inr h

theorem Lacks.setBlack (h : t.Lacks n) (ht : t.isRed = true) :
    Balanced t.setBlack black (n + 1) := by
  cases h with
  | inl h => exact h.2
  | inr h => exact (h.of_isRed ht).setBlack_red

theorem Lacks.of_not_isRed (h : t.Lacks n) (ht : ¬t.isRed = true) : Balanced t black n := by
  cases h with
  | inl h => exact absurd h.1 ht
  | inr h => exact h

/-- A black node with a red child, in the place of a parent of the colour `c`. -/
theorem lacks_join (hl : Balanced l black n) (hr : Balanced r red n) :
    Lacks (node c l x r) (n + weight c) := by
  cases c with
  | red => exact .inl ⟨rfl, .blackNode hl hr⟩
  | black => exact .inr (.blackNode hl hr)

theorem lacks_join_left (hl : Balanced l red n) (hr : Balanced r black n) :
    Lacks (node c l x r) (n + weight c) := by
  cases c with
  | red => exact .inl ⟨rfl, .blackNode hl hr⟩
  | black => exact .inr (.blackNode hl hr)

/-- The body of the loop of `__rb_erase_color` with a black sibling: the subtree in the place of
the parent is whole, or it lacks a black node itself. -/
theorem eraseColorLeft_spec {other : RbTree α} (ht : Balanced t black n)
    (ho : Balanced other black (n + 1)) :
    if (eraseColorLeft t c x other).2 then
      (eraseColorLeft t c x other).1.Lacks (n + weight c) ∧
        (c = red → (eraseColorLeft t c x other).1.isRed = true)
    else Balanced (eraseColorLeft t c x other).1 c (n + 1 + weight c) := by
  fun_cases eraseColorLeft t c x other with
  | case1 => cases ho
  | case2 oc ol ox or hblack =>
      cases ho with
      | blackNode hol hor =>
          simp only [Bool.and_eq_true, Bool.not_eq_true'] at hblack
          have hnode := Balanced.redNode (x := ox) (hol.of_not_isRed (by simp [hblack.1]))
            (hor.of_not_isRed (by simp [hblack.2]))
          refine ⟨lacks_join ht hnode, ?_⟩
          rintro rfl
          rfl
  | case3 oc ol ox or hblack hred =>
      cases ho with
      | blackNode hol hor =>
          exact (Balanced.blackNode ht hol).join (hor.of_isRed hred).setBlack_red
  | case4 oc ox or hblack hboth =>
      simp [hblack] at hboth
  | case5 oc ox or hblack olc oll olx olr hboth =>
      cases ho with
      | blackNode hol hor =>
          cases hol with
          | redNode holl holr => exact (Balanced.blackNode ht holl).join (.blackNode holr hor)
          | blackNode holl holr =>
              simp [hblack] at hboth

/-- The mirror image of `eraseColorLeft_spec`. -/
theorem eraseColorRight_spec {other : RbTree α} (ht : Balanced t black n)
    (ho : Balanced other black (n + 1)) :
    if (eraseColorRight t c x other).2 then
      (eraseColorRight t c x other).1.Lacks (n + weight c) ∧
        (c = red → (eraseColorRight t c x other).1.isRed = true)
    else Balanced (eraseColorRight t c x other).1 c (n + 1 + weight c) := by
  fun_cases eraseColorRight t c x other with
  | case1 => cases ho
  | case2 oc ol ox or hblack =>
      cases ho with
      | blackNode hol hor =>
          simp only [Bool.and_eq_true, Bool.not_eq_true'] at hblack
          have hnode := Balanced.redNode (x := ox) (hol.of_not_isRed (by simp [hblack.1]))
            (hor.of_not_isRed (by simp [hblack.2]))
          refine ⟨lacks_join_left hnode ht, ?_⟩
          rintro rfl
          rfl
  | case3 oc ol ox or hblack hred =>
      cases ho with
      | blackNode hol hor =>
          exact (hol.of_isRed hred).setBlack_red.join (.blackNode hor ht)
  | case4 oc ol ox hblack hboth =>
      simp [hblack] at hboth
  | case5 oc ol ox hblack orc orl orx orr hboth =>
      cases ho with
      | blackNode hol hor =>
          cases hor with
          | redNode horl horr => exact (Balanced.blackNode hol horl).join (.blackNode horr ht)
          | blackNode horl horr =>
              simp [hblack] at hboth

theorem Fits.left_sibling {other : RbTree α} (hp : Fits (.left c x other :: p) black n)
    (ho : ¬other.isRed = true) : Balanced other black n ∧ Fits p c (n + weight c) := by
  cases hp with
  | leftRed hr hp => exact ⟨hr, hp⟩
  | leftBlack hr hp => exact ⟨hr.of_not_isRed ho, hp⟩

theorem Fits.right_sibling {other : RbTree α} (hp : Fits (.right c other x :: p) black n)
    (ho : ¬other.isRed = true) : Balanced other black n ∧ Fits p c (n + weight c) := by
  cases hp with
  | rightRed hl hp => exact ⟨hl, hp⟩
  | rightBlack hl hp => exact ⟨hl.of_not_isRed ho, hp⟩

theorem not_isRed_of_forall {other : RbTree α}
    (h : ∀ (l : RbTree α) (x : α) (r : RbTree α), other = node red l x r → False) :
    ¬other.isRed = true := by
  fun_cases isRed other with
  | case1 l x r => exact (h l x r rfl).elim
  | case2 => exact Bool.false_ne_true

/-- `__rb_erase_color` repairs a tree in which the subtree `t` lacks a black node. -/
theorem isRedBlack_rbEraseColor (ht : t.Lacks n) (hp : Fits p black (n + 1)) :
    (rbEraseColor t p).IsRedBlack := by
  fun_induction rbEraseColor t p generalizing n with
  | case1 t =>
      by_cases hred : t.isRed = true
      · exact ⟨n + 1, ht.setBlack hred⟩
      · exact (ht.of_not_isRed hred).setBlack
  | case2 t c x other p hred => exact (ht.setBlack hred).plug hp
  | case3 t c x p hred ol ox or u hu =>
      cases hp with
      | leftRed ho hp => cases ho
      | leftBlack ho hp =>
          cases ho with
          | redNode hol hor =>
              have hspec := eraseColorLeft_spec (c := red) (x := x) (ht.of_not_isRed hred) hol
              rw [hu] at hspec
              have hu' := hspec.1.setBlack (hspec.2 rfl)
              exact (Balanced.blackNode hu' hor).plug hp
  | case4 t c x p hred ol ox or u hu =>
      cases hp with
      | leftRed ho hp => cases ho
      | leftBlack ho hp =>
          cases ho with
          | redNode hol hor =>
              have hspec := eraseColorLeft_spec (c := red) (x := x) (ht.of_not_isRed hred) hol
              rw [hu] at hspec
              exact ((Balanced.blackNode hspec hor).plug hp).setBlack
  | case5 t c x other p hred u hother hu ih =>
      obtain ⟨ho, hp⟩ := hp.left_sibling (not_isRed_of_forall hother)
      have hspec := eraseColorLeft_spec (c := c) (x := x) (ht.of_not_isRed hred) ho
      rw [hu] at hspec
      refine ih hspec.1 ?_
      rw [Nat.add_right_comm]
      exact hp.toBlack
  | case6 t c x other p hred u hother hu =>
      obtain ⟨ho, hp⟩ := hp.left_sibling (not_isRed_of_forall hother)
      have hspec := eraseColorLeft_spec (c := c) (x := x) (ht.of_not_isRed hred) ho
      rw [hu] at hspec
      exact (Balanced.plug hspec hp).setBlack
  | case7 t c other x p hred => exact (ht.setBlack hred).plug hp
  | case8 t c x p hred ol ox or u hu =>
      cases hp with
      | rightRed ho hp => cases ho
      | rightBlack ho hp =>
          cases ho with
          | redNode hol hor =>
              have hspec := eraseColorRight_spec (c := red) (x := x) (ht.of_not_isRed hred) hor
              rw [hu] at hspec
              have hu' := hspec.1.setBlack (hspec.2 rfl)
              exact (Balanced.blackNode hol hu').plug hp
  | case9 t c x p hred ol ox or u hu =>
      cases hp with
      | rightRed ho hp => cases ho
      | rightBlack ho hp =>
          cases ho with
          | redNode hol hor =>
              have hspec := eraseColorRight_spec (c := red) (x := x) (ht.of_not_isRed hred) hor
              rw [hu] at hspec
              exact ((Balanced.blackNode hol hspec).plug hp).setBlack
  | case10 t c other x p hred u hother hu ih =>
      obtain ⟨ho, hp⟩ := hp.right_sibling (not_isRed_of_forall hother)
      have hspec := eraseColorRight_spec (c := c) (x := x) (ht.of_not_isRed hred) ho
      rw [hu] at hspec
      refine ih hspec.1 ?_
      rw [Nat.add_right_comm]
      exact hp.toBlack
  | case11 t c other x p hred u hother hu =>
      obtain ⟨ho, hp⟩ := hp.right_sibling (not_isRed_of_forall hother)
      have hspec := eraseColorRight_spec (c := c) (x := x) (ht.of_not_isRed hred) ho
      rw [hu] at hspec
      exact (Balanced.plug hspec hp).setBlack

theorem plug_append (t : RbTree α) (q p : RbPath α) : t.plug (q ++ p) = (t.plug q).plug p := by
  induction q generalizing t with
  | nil => rfl
  | cons f q ih => cases f <;> exact ih _

theorem plug_leftmost (c : RbColor) (l : RbTree α) (x : α) (r : RbTree α) (p : RbPath α) :
    (node (leftmost c l x r p).1 nil (leftmost c l x r p).2.1 (leftmost c l x r p).2.2.1).plug
      (leftmost c l x r p).2.2.2 = (node c l x r).plug p := by
  fun_induction leftmost c l x r p with
  | case1 c x r p => rfl
  | case2 c x r p lc ll lx lr ih => exact ih

/-- Which subtrees fit does not depend on the keys of the path. -/
theorem Fits.rekey {q : RbPath α} {y : α} (h : Fits (q ++ .right c l x :: p) d n) :
    Fits (q ++ .right c l y :: p) d n := by
  induction q generalizing d n with
  | nil =>
      cases h with
      | rightRed hl hp => exact .rightRed hl hp
      | rightBlack hl hp => exact .rightBlack hl hp
  | cons f q ih =>
      cases h with
      | leftRed hr hp => exact .leftRed hr (ih hp)
      | leftBlack hr hp => exact .leftBlack hr (ih hp)
      | rightRed hl hp => exact .rightRed hl (ih hp)
      | rightBlack hl hp => exact .rightBlack hl (ih hp)

/-- Taking out a node with at most one child, which takes its place. -/
theorem isRedBlack_unlink {child : RbTree α} (ht : Balanced (node c l x r) d n) (hp : Fits p d n)
    (hc : l = nil ∧ child = r ∨ r = nil ∧ child = l) :
    (if c = black then rbEraseColor child p else child.plug p).IsRedBlack := by
  cases ht with
  | redNode hl hr =>
      rw [if_neg RbColor.noConfusion]
      rcases hc with ⟨-, rfl⟩ | ⟨-, rfl⟩
      · exact hr.plug hp.toBlack
      · exact hl.plug hp.toBlack
  | blackNode hl hr =>
      rw [if_pos rfl]
      rcases hc with ⟨-, rfl⟩ | ⟨-, rfl⟩
      · exact isRedBlack_rbEraseColor hr.lacks hp
      · exact isRedBlack_rbEraseColor hl.lacks hp

/-- `rb_erase` keeps a red-black tree. -/
theorem IsRedBlack.rbErase [DecidableEq α] (h : t.IsRedBlack) (x : α) :
    (t.rbErase x).IsRedBlack := by
  unfold RbTree.rbErase
  cases hloc : locate x t [] with
  | none => exact h
  | some found =>
      obtain ⟨c, l, r, p⟩ := found
      have hplug : ((node c l x r).plug p).IsRedBlack := by
        rw [plug_of_locate hloc]
        exact h
      obtain ⟨d, n, ht, hp⟩ := hplug.fits
      cases l with
      | nil => exact isRedBlack_unlink ht hp (.inl ⟨rfl, rfl⟩)
      | node lc ll lx lr =>
          cases r with
          | nil => exact isRedBlack_unlink ht hp (.inr ⟨rfl, rfl⟩)
          | node rc rl rx rr =>
              rcases hmin : leftmost rc rl rx rr [] with ⟨color, y, child, q⟩
              have hright : (node color nil y child).plug q = node rc rl rx rr := by
                have hq := plug_leftmost rc rl rx rr []
                rwa [hmin] at hq
              have hwhole : ((node color nil y child).plug
                  (q ++ .right c (node lc ll lx lr) x :: p)).IsRedBlack := by
                rw [plug_append, hright]
                exact hplug
              obtain ⟨d', m, ht', hp'⟩ := hwhole.fits
              simp only [hmin]
              exact isRedBlack_unlink ht' hp'.rekey (.inl ⟨rfl, rfl⟩)

/-! ### The number of levels -/

def height : RbTree α → ℕ
  | nil => 0
  | node _ l _ r => max l.height r.height + 1

/-- A way down meets at most one red node for each black one, and one more under a black node. -/
theorem Balanced.height_add_weight_le (h : Balanced t c n) :
    t.height + weight c ≤ 2 * n + 1 := by
  induction h with
  | leaf => simp [height, weight]
  | redNode hl hr ihl ihr =>
      simp only [height, weight] at *
      omega
  | blackNode hl hr ihl ihr =>
      simp only [height, weight] at *
      omega

theorem Balanced.two_pow_le (h : Balanced t c n) : 2 ^ n ≤ t.size + 1 := by
  induction h with
  | leaf => simp [size]
  | redNode hl hr ihl ihr =>
      simp only [size]
      omega
  | blackNode hl hr ihl ihr =>
      simp only [size, Nat.pow_succ]
      omega

/-- A red-black tree with `n` nodes has at most `2 log₂ (n + 1)` levels. -/
theorem IsRedBlack.height_le (h : t.IsRedBlack) : t.height ≤ 2 * Nat.log 2 (t.size + 1) := by
  obtain ⟨n, h⟩ := h
  have hheight := h.height_add_weight_le
  have hlog : n ≤ Nat.log 2 (t.size + 1) :=
    Nat.le_log_of_pow_le Nat.one_lt_two h.two_pow_le
  simp only [weight] at hheight
  omega

end RbTree

end Miscellany
