import Miscellany.EventLoop.RbInsert

/-!
# `rb_erase` in memory

`rb_erase` and `__rb_erase_color`, run on a memory that holds a red-black tree, do
to it what `RbTree.rbErase` does to the tree as a value. The invariant of the loop
is `Lacks`: a subtree that lacks a black node has a sibling with at least one, so
the sibling is not a null pointer.
-/

namespace Miscellany

open RbColor

variable {A : Type*}

namespace RbMemory

open RbTree

variable {m : RbMemory A} {t l r : RbTree A} {p : RbPath A} {c d : RbColor} {x : A} {n fuel : ℕ}

variable [DecidableEq A]

/-! ### Rebalancing -/


theorem blackSiblingRight_red {ol or : RbTree A} {px ox : A}
    (h : m.Holds (t.plug (.left c px (.node red ol ox or) :: p))) {a : A}
    (ha : ol.ptr = some a) :
    ∃ m', m.blackSiblingRight px = some (m', a) ∧
      m'.Holds (t.plug (.left red px ol :: .left black ox or :: p)) := by
  have ho := Holds.node (c := red) (l := ol) (x := ox) (r := or) (p := .right c t px :: p) h
  have h₁ := Holds.recolor (p := .right c t px :: p) h black
  have h₂ := Holds.recolor (p := p) h₁ red
  obtain ⟨m', hrot, h'⟩ := rbRotateLeft_holds h₂
  have hpx := Holds.left (t := t) (r := ol) (x := px) (c := red) (p := .left black ox or :: p) h'
  refine ⟨m', ?_, h'⟩
  simp [blackSiblingRight, h.left, ho, hrot, hpx, ha]

theorem blackSiblingRight_black {ol or : RbTree A} {px ox : A}
    (h : m.Holds (t.plug (.left c px (.node black ol ox or) :: p))) :
    m.blackSiblingRight px = some (m, ox) := by
  have ho := Holds.node (c := black) (l := ol) (x := ox) (r := or) (p := .right c t px :: p) h
  simp [blackSiblingRight, h.left, ho]

theorem eraseColorLeft_holds {ol or : RbTree A} {px ox : A}
    (h : m.Holds (t.plug (.left c px (.node black ol ox or) :: p))) :
    ∃ m', m.eraseColorLeft px ox =
        some (m', (RbTree.eraseColorLeft t c px (.node black ol ox or)).2) ∧
      m'.Holds ((RbTree.eraseColorLeft t c px (.node black ol ox or)).1.plug p) := by
  have ho := Holds.node (c := black) (l := ol) (x := ox) (r := or) (p := .right c t px :: p) h
  have hol := Holds.isRed (t := ol) (p := .left black ox or :: .right c t px :: p) h
  have hor := Holds.isRed (t := or) (p := .right black ol ox :: .right c t px :: p) h
  by_cases hright : or.isRed = true
  · obtain ⟨orl, orx, orr, rfl⟩ := exists_of_isRed hright
    have hred : m.isRed (some orx) = true := hor
    have h₁ := Holds.recolor (p := .right c t px :: p) h c
    have h₂ := Holds.recolor (p := p) h₁ black
    have h₃ := Holds.recolor (p := .right c ol ox :: .right black t px :: p) h₂ black
    obtain ⟨m', hrot, h'⟩ := rbRotateLeft_holds (p := p) h₃
    have ho' := Holds.node (p := .right black t px :: p) h₂
    refine ⟨m', ?_, by simpa [RbTree.eraseColorLeft, RbTree.setBlack] using h'⟩
    simp [eraseColorLeft, RbTree.eraseColorLeft, ho, hred, h.left, ho', hrot]
  · by_cases hleft : ol.isRed = true
    · obtain ⟨oll, olx, olr, rfl⟩ := exists_of_isRed hleft
      have hred : m.isRed (some olx) = true := hol
      have h₁ := Holds.recolor (p := .left black ox or :: .right c t px :: p) h black
      have h₂ := Holds.recolor (p := .right c t px :: p) h₁ red
      obtain ⟨m₃, hrot, h₃⟩ := rbRotateRight_holds (p := .right c t px :: p) h₂
      have hpx := Holds.node (p := p) h₃
      have h₄ := Holds.recolor (p := .right c t px :: p) h₃ c
      have h₅ := Holds.recolor (p := p) h₄ black
      have ho' := Holds.node (p := .right black t px :: p) h₅
      have h₆ := Holds.recolor (p := .right c oll olx :: .right black t px :: p) h₅ black
      obtain ⟨m', hrot', h'⟩ := rbRotateLeft_holds (p := p) h₆
      refine ⟨m', ?_, by simpa [RbTree.eraseColorLeft, hright] using h'⟩
      simp [eraseColorLeft, RbTree.eraseColorLeft, ho, hred, hor, hright, hrot, hpx, ho', hrot']
    · have h₁ : (m.rbSetColor ox red).Holds
          ((RbTree.node c t px (.node red ol ox or)).plug p) :=
        Holds.recolor (p := .right c t px :: p) h red
      refine ⟨_, ?_, by simpa [RbTree.eraseColorLeft, hright, hleft] using h₁⟩
      simp [eraseColorLeft, RbTree.eraseColorLeft, ho, hol, hor, hright, hleft]

theorem blackSiblingLeft_red {ol or : RbTree A} {px ox : A}
    (h : m.Holds (t.plug (.right c (.node red ol ox or) px :: p))) {a : A}
    (ha : or.ptr = some a) :
    ∃ m', m.blackSiblingLeft px = some (m', a) ∧
      m'.Holds (t.plug (.right red or px :: .right black ol ox :: p)) := by
  have ho := Holds.node (c := red) (l := ol) (x := ox) (r := or) (p := .left c px t :: p) h
  have h₁ := Holds.recolor (p := .left c px t :: p) h black
  have h₂ := Holds.recolor (p := p) h₁ red
  obtain ⟨m', hrot, h'⟩ := rbRotateRight_holds h₂
  have hpx := Holds.right (t := t) (l := or) (x := px) (c := red) (p := .right black ol ox :: p) h'
  refine ⟨m', ?_, h'⟩
  simp [blackSiblingLeft, h.right, ho, hrot, hpx, ha]

theorem blackSiblingLeft_black {ol or : RbTree A} {px ox : A}
    (h : m.Holds (t.plug (.right c (.node black ol ox or) px :: p))) :
    m.blackSiblingLeft px = some (m, ox) := by
  have ho := Holds.node (c := black) (l := ol) (x := ox) (r := or) (p := .left c px t :: p) h
  simp [blackSiblingLeft, h.right, ho]

/-- The mirror image of `eraseColorLeft_holds`. -/
theorem eraseColorRight_holds {ol or : RbTree A} {px ox : A}
    (h : m.Holds (t.plug (.right c (.node black ol ox or) px :: p))) :
    ∃ m', m.eraseColorRight px ox =
        some (m', (RbTree.eraseColorRight t c px (.node black ol ox or)).2) ∧
      m'.Holds ((RbTree.eraseColorRight t c px (.node black ol ox or)).1.plug p) := by
  have ho := Holds.node (c := black) (l := ol) (x := ox) (r := or) (p := .left c px t :: p) h
  have hol := Holds.isRed (t := ol) (p := .left black ox or :: .left c px t :: p) h
  have hor := Holds.isRed (t := or) (p := .right black ol ox :: .left c px t :: p) h
  by_cases hleft : ol.isRed = true
  · obtain ⟨oll, olx, olr, rfl⟩ := exists_of_isRed hleft
    have hred : m.isRed (some olx) = true := hol
    have h₁ := Holds.recolor (p := .left c px t :: p) h c
    have h₂ := Holds.recolor (p := p) h₁ black
    have h₃ := Holds.recolor (p := .left c ox or :: .left black px t :: p) h₂ black
    obtain ⟨m', hrot, h'⟩ := rbRotateRight_holds (p := p) h₃
    have ho' := Holds.node (p := .left black px t :: p) h₂
    refine ⟨m', ?_, by simpa [RbTree.eraseColorRight, RbTree.setBlack] using h'⟩
    simp [eraseColorRight, RbTree.eraseColorRight, ho, hred, h.right, ho', hrot]
  · by_cases hright : or.isRed = true
    · obtain ⟨orl, orx, orr, rfl⟩ := exists_of_isRed hright
      have hred : m.isRed (some orx) = true := hor
      have h₁ := Holds.recolor (p := .right black ol ox :: .left c px t :: p) h black
      have h₂ := Holds.recolor (p := .left c px t :: p) h₁ red
      obtain ⟨m₃, hrot, h₃⟩ := rbRotateLeft_holds (p := .left c px t :: p) h₂
      have hpx := Holds.node (p := p) h₃
      have h₄ := Holds.recolor (p := .left c px t :: p) h₃ c
      have h₅ := Holds.recolor (p := p) h₄ black
      have ho' := Holds.node (p := .left black px t :: p) h₅
      have h₆ := Holds.recolor (p := .left c orx orr :: .left black px t :: p) h₅ black
      obtain ⟨m', hrot', h'⟩ := rbRotateRight_holds (p := p) h₆
      refine ⟨m', ?_, by simpa [RbTree.eraseColorRight, hleft] using h'⟩
      simp [eraseColorRight, RbTree.eraseColorRight, ho, hred, hol, hleft, hrot, hpx, ho', hrot']
    · have h₁ : (m.rbSetColor ox red).Holds
          ((RbTree.node c (.node red ol ox or) px t).plug p) :=
        Holds.recolor (p := .left c px t :: p) h red
      refine ⟨_, ?_, by simpa [RbTree.eraseColorRight, hright, hleft] using h₁⟩
      simp [eraseColorRight, RbTree.eraseColorRight, ho, hol, hor, hright, hleft]

/-- The loop of `__rb_erase_color` ends at a red node and at the root. -/
theorem eraseColorLoop_stop {q : Option A} (h : m.Holds (t.plug p)) (hf : 0 < fuel)
    (ht : t.isRed = true ∨ p = []) : eraseColorLoop fuel m t.ptr q = some (m, t.ptr) := by
  obtain ⟨fuel, rfl⟩ := Nat.exists_eq_add_of_lt hf
  rw [Nat.zero_add, eraseColorLoop]
  rcases ht with ht | rfl
  · simp [h.isRed, ht]
  · have hroot : m.rbNode = t.ptr := h.root
    simp [hroot]

omit [DecidableEq A] in
theorem Holds.ptr_ne_root {f : RbFrame A} (h : m.Holds (t.plug (f :: p))) :
    t.ptr ≠ m.rbNode := by
  obtain ⟨a, ha, hroot⟩ := exists_ptr_plug f p
  obtain ⟨-, -, htp⟩ := nodup_plug_iff.1 h.nodup
  rw [h.root, hroot]
  exact fun ht => htp a (mem_of_ptr ht) ha

omit [DecidableEq A] in
theorem ptr_eraseColorLeft {other : RbTree A}
    (h : (RbTree.eraseColorLeft t c x other).2 = true) :
    (RbTree.eraseColorLeft t c x other).1.ptr = some x := by
  fun_cases RbTree.eraseColorLeft t c x other <;> simp_all [RbTree.eraseColorLeft]

omit [DecidableEq A] in
theorem ptr_eraseColorRight {other : RbTree A}
    (h : (RbTree.eraseColorRight t c x other).2 = true) :
    (RbTree.eraseColorRight t c x other).1.ptr = some x := by
  fun_cases RbTree.eraseColorRight t c x other <;> simp_all [RbTree.eraseColorRight]

/-- A round of `__rb_erase_color` at a left child: the loop goes on at the parent, or it ends
with the root. -/
theorem eraseColorLoop_left {m₁ : RbMemory A} {px ox : A} {other ol or u : RbTree A}
    {p' : RbPath A} {b : Bool} (h : m.Holds (t.plug (.left c px other :: p)))
    (hred : ¬t.isRed = true) (hsib : m.blackSiblingRight px = some (m₁, ox))
    (h₁ : m₁.Holds (t.plug (.left d px (.node black ol ox or) :: p')))
    (hu : RbTree.eraseColorLeft t d px (.node black ol ox or) = (u, b)) :
    ∃ m', m'.Holds (u.plug p') ∧ eraseColorLoop (fuel + 1) m t.ptr (some px) =
      if b then eraseColorLoop fuel m' u.ptr (parentOf none p')
      else some (m', (u.plug p').ptr) := by
  obtain ⟨m', hround, h'⟩ := eraseColorLeft_holds h₁
  rw [hu] at hround h'
  refine ⟨m', h', ?_⟩
  rw [eraseColorLoop]
  cases b with
  | true =>
      have hptr : u.ptr = some px := by simpa [hu] using ptr_eraseColorLeft (congrArg Prod.snd hu)
      simp [h.isRed, hred, h.ptr_ne_root, h.left, hsib, hround, hptr, h'.parent hptr]
  | false => simp [h.isRed, hred, h.ptr_ne_root, h.left, hsib, hround, h'.root]

/-- The mirror image of `eraseColorLoop_left`. -/
theorem eraseColorLoop_right {m₁ : RbMemory A} {px ox : A} {other ol or u : RbTree A}
    {p' : RbPath A} {b : Bool} (h : m.Holds (t.plug (.right c other px :: p)))
    (hother : other ≠ nil) (hred : ¬t.isRed = true)
    (hsib : m.blackSiblingLeft px = some (m₁, ox))
    (h₁ : m₁.Holds (t.plug (.right d (.node black ol ox or) px :: p')))
    (hu : RbTree.eraseColorRight t d px (.node black ol ox or) = (u, b)) :
    ∃ m', m'.Holds (u.plug p') ∧ eraseColorLoop (fuel + 1) m t.ptr (some px) =
      if b then eraseColorLoop fuel m' u.ptr (parentOf none p')
      else some (m', (u.plug p').ptr) := by
  obtain ⟨m', hround, h'⟩ := eraseColorRight_holds h₁
  rw [hu] at hround h'
  have hne : other.ptr ≠ t.ptr := by
    obtain ⟨oc, ol', ox', or', rfl⟩ : ∃ c l x r, other = RbTree.node c l x r := by
      cases other with
      | nil => exact absurd rfl hother
      | node c l x r => exact ⟨c, l, x, r, rfl⟩
    exact fun heq => Holds.ptr_ne (p := p) h rfl heq.symm
  refine ⟨m', h', ?_⟩
  rw [eraseColorLoop]
  cases b with
  | true =>
      have hptr : u.ptr = some px := by simpa [hu] using ptr_eraseColorRight (congrArg Prod.snd hu)
      simp [h.isRed, hred, h.ptr_ne_root, h.right, hne, hsib, hround, hptr, h'.parent hptr]
  | false => simp [h.isRed, hred, h.ptr_ne_root, h.right, hne, hsib, hround, h'.root]

/-- The loop of `__rb_erase_color` leaves the tree that `RbTree.rbEraseColor` gives, but for the
colour of the node it ends with. -/
theorem eraseColorLoop_holds (h : m.Holds (t.plug p)) (ht : t.Lacks n)
    (hp : Fits p black (n + 1)) (hf : p.length < fuel) :
    ∃ (m' : RbMemory A) (u : RbTree A) (q : RbPath A),
      eraseColorLoop fuel m t.ptr (parentOf none p) = some (m', u.ptr) ∧
        m'.Holds (u.plug q) ∧ u.setBlack.plug q = RbTree.rbEraseColor t p := by
  fun_induction RbTree.rbEraseColor t p generalizing m n fuel with
  | case1 t => exact ⟨m, t, [], eraseColorLoop_stop (p := []) h hf (.inr rfl), h, rfl⟩
  | case2 t c x other p hred =>
      exact ⟨m, t, _, eraseColorLoop_stop h (Nat.zero_lt_of_lt hf) (.inl hred), h, rfl⟩
  | case3 t c x p hred ol ox or u hu =>
      obtain ⟨fuel, rfl⟩ := Nat.exists_eq_add_of_lt hf
      cases hp with
      | leftRed ho hp => cases ho
      | leftBlack ho hp =>
          cases ho with
          | redNode hol hor =>
              have hspec := eraseColorLeft_spec (c := red) (x := x) (ht.of_not_isRed hred) hol
              rw [hu] at hspec
              obtain ⟨il, ix, ir, rfl⟩ := exists_of_balanced hol
              obtain ⟨m₁, hsib, h₁⟩ := blackSiblingRight_red h rfl
              obtain ⟨m', h', hround⟩ := eraseColorLoop_left h hred hsib h₁ hu
              refine ⟨m', u, _, ?_, h', rfl⟩
              refine hround.trans (eraseColorLoop_stop h' ?_ (.inl (hspec.2 rfl)))
              simp only [List.length_cons]
              omega
  | case4 t c x p hred ol ox or u hu =>
      obtain ⟨fuel, rfl⟩ := Nat.exists_eq_add_of_lt hf
      cases hp with
      | leftRed ho hp => cases ho
      | leftBlack ho hp =>
          cases ho with
          | redNode hol hor =>
              obtain ⟨il, ix, ir, rfl⟩ := exists_of_balanced hol
              obtain ⟨m₁, hsib, h₁⟩ := blackSiblingRight_red h rfl
              obtain ⟨m', h', hround⟩ := eraseColorLoop_left h hred hsib h₁ hu
              exact ⟨m', _, [], hround, h', rfl⟩
  | case5 t c x other p hred u hother hu ih =>
      obtain ⟨fuel, rfl⟩ := Nat.exists_eq_add_of_lt hf
      obtain ⟨ho, hp'⟩ := hp.left_sibling (not_isRed_of_forall hother)
      have hspec := eraseColorLeft_spec (c := c) (x := x) (ht.of_not_isRed hred) ho
      rw [hu] at hspec
      obtain ⟨ol, ox, or, rfl⟩ := exists_of_balanced ho
      obtain ⟨m', h', hround⟩ := eraseColorLoop_left h hred (blackSiblingRight_black h) h hu
      rw [parentOf_left, hround]
      refine ih h' hspec.1 ?_ (by simp only [List.length_cons]; omega)
      rw [Nat.add_right_comm]
      exact hp'.toBlack
  | case6 t c x other p hred u hother hu =>
      obtain ⟨fuel, rfl⟩ := Nat.exists_eq_add_of_lt hf
      obtain ⟨ho, -⟩ := hp.left_sibling (not_isRed_of_forall hother)
      obtain ⟨ol, ox, or, rfl⟩ := exists_of_balanced ho
      obtain ⟨m', h', hround⟩ := eraseColorLoop_left h hred (blackSiblingRight_black h) h hu
      exact ⟨m', _, [], hround, h', rfl⟩
  | case7 t c other x p hred =>
      exact ⟨m, t, _, eraseColorLoop_stop h (Nat.zero_lt_of_lt hf) (.inl hred), h, rfl⟩
  | case8 t c x p hred ol ox or u hu =>
      obtain ⟨fuel, rfl⟩ := Nat.exists_eq_add_of_lt hf
      cases hp with
      | rightRed ho hp => cases ho
      | rightBlack ho hp =>
          cases ho with
          | redNode hol hor =>
              have hspec := eraseColorRight_spec (c := red) (x := x) (ht.of_not_isRed hred) hor
              rw [hu] at hspec
              obtain ⟨il, ix, ir, rfl⟩ := exists_of_balanced hor
              obtain ⟨m₁, hsib, h₁⟩ := blackSiblingLeft_red h rfl
              obtain ⟨m', h', hround⟩ := eraseColorLoop_right h (by simp) hred hsib h₁ hu
              refine ⟨m', u, _, ?_, h', rfl⟩
              refine hround.trans (eraseColorLoop_stop h' ?_ (.inl (hspec.2 rfl)))
              simp only [List.length_cons]
              omega
  | case9 t c x p hred ol ox or u hu =>
      obtain ⟨fuel, rfl⟩ := Nat.exists_eq_add_of_lt hf
      cases hp with
      | rightRed ho hp => cases ho
      | rightBlack ho hp =>
          cases ho with
          | redNode hol hor =>
              obtain ⟨il, ix, ir, rfl⟩ := exists_of_balanced hor
              obtain ⟨m₁, hsib, h₁⟩ := blackSiblingLeft_red h rfl
              obtain ⟨m', h', hround⟩ := eraseColorLoop_right h (by simp) hred hsib h₁ hu
              exact ⟨m', _, [], hround, h', rfl⟩
  | case10 t c other x p hred u hother hu ih =>
      obtain ⟨fuel, rfl⟩ := Nat.exists_eq_add_of_lt hf
      obtain ⟨ho, hp'⟩ := hp.right_sibling (not_isRed_of_forall hother)
      have hspec := eraseColorRight_spec (c := c) (x := x) (ht.of_not_isRed hred) ho
      rw [hu] at hspec
      obtain ⟨ol, ox, or, rfl⟩ := exists_of_balanced ho
      have hsib := blackSiblingLeft_black h
      obtain ⟨m', h', hround⟩ := eraseColorLoop_right h (by simp) hred hsib h hu
      rw [parentOf_right, hround]
      refine ih h' hspec.1 ?_ (by simp only [List.length_cons]; omega)
      rw [Nat.add_right_comm]
      exact hp'.toBlack
  | case11 t c other x p hred u hother hu =>
      obtain ⟨fuel, rfl⟩ := Nat.exists_eq_add_of_lt hf
      obtain ⟨ho, -⟩ := hp.right_sibling (not_isRed_of_forall hother)
      obtain ⟨ol, ox, or, rfl⟩ := exists_of_balanced ho
      have hsib := blackSiblingLeft_black h
      obtain ⟨m', h', hround⟩ := eraseColorLoop_right h (by simp) hred hsib h hu
      exact ⟨m', _, [], hround, h', rfl⟩

theorem rbEraseColor_holds (h : m.Holds (t.plug p)) (ht : t.Lacks n)
    (hp : Fits p black (n + 1)) (hf : p.length < fuel) :
    ∃ m', m.rbEraseColor fuel t.ptr (parentOf none p) = some m' ∧
      m'.Holds (RbTree.rbEraseColor t p) := by
  obtain ⟨m₁, u, q, hloop, hu, heq⟩ := eraseColorLoop_holds h ht hp hf
  rw [← heq]
  cases u with
  | nil => exact ⟨m₁, by simp [RbMemory.rbEraseColor, hloop], hu⟩
  | node c l x r =>
      exact ⟨m₁.rbSetColor x black, by simp [RbMemory.rbEraseColor, hloop], hu.recolor black⟩

/-! ### Taking a node out -/

/-- The only child of a node takes its place. -/
theorem unlink_holds {child : RbTree A} (h : m.Holds ((RbTree.node c l x r).plug p))
    (hc : l = nil ∧ child = r ∨ r = nil ∧ child = l) :
    ((m.setParentOf child.ptr (parentOf none p)).relink (parentOf none p) x child.ptr).Holds
      (child.plug p) := by
  obtain ⟨hroot, ⟨-, hl, hr⟩, hp, hnd⟩ := holds_plug_iff.1 h
  obtain ⟨htnd, hpnd, htp⟩ := nodup_plug_iff.1 hnd
  have hxp : x ∉ around p := htp x (by simp)
  obtain ⟨hchild, hcnd, hcp⟩ : m.Subtree (some x) child ∧ child.inorder.Nodup ∧
      ∀ a ∈ child.inorder, a ∉ around p := by
    rw [inorder_node, List.nodup_append', List.nodup_cons] at htnd
    rcases hc with ⟨-, rfl⟩ | ⟨-, rfl⟩
    · exact ⟨hr, htnd.2.1.2, fun a ha => htp a (by simp [ha])⟩
    · exact ⟨hl, htnd.1, fun a ha => htp a (by simp [ha])⟩
  refine holds_plug_iff.2 ⟨relink_rbNode (t := .node c l x r) (by simpa using hroot), ?_, ?_,
    nodup_plug_iff.2 ⟨hcnd, hpnd, hcp⟩⟩
  · rw [subtree_relink fun a ha hac => hcp a hac (mem_around_of_parentOf ha)]
    exact hchild.setParentOf hcnd _
  · refine Context.relink ?_ hxp hpnd
    rw [context_setParentOf fun a ha => hcp a (mem_of_ptr ha)]
    exact hp

theorem takePlace_holds {y : A} {v : Option A} (hx : m.node x = ⟨parentOf none p, c, v, l.ptr⟩)
    (hxy : x ≠ y) (hy : (m.node y).rbRight = r.ptr) (hl : m.Subtree (some x) l)
    (hr : m.Subtree (some y) r) (hp : m.Context none p (some y)) (hlnil : l ≠ nil)
    (hroot : m.rbNode = ((RbTree.node c l y r).plug p).ptr)
    (hnd : ((RbTree.node c l y r).plug p).inorder.Nodup) :
    ∃ m', m.takePlace x y = some m' ∧ m'.Holds ((RbTree.node c l y r).plug p) := by
  obtain ⟨htnd, -, htp⟩ := nodup_plug_iff.1 hnd
  have hyp : y ∉ around p := htp y (by simp)
  obtain ⟨hyl, hyr⟩ := notMem_of_nodup_middle htnd
  rw [inorder_node, List.nodup_append'] at htnd
  cases l with
  | nil => exact absurd rfl hlnil
  | node lc ll lx lr =>
      have hlxy : lx ≠ y := by
        rintro rfl
        exact hyl (by simp)
      have hlxr : lx ∉ r.inorder := by
        intro hmem
        exact htnd.2.2 (by simp : lx ∈ (RbTree.node lc ll lx lr).inorder)
          (List.mem_cons_of_mem y hmem)
      have hlxp : lx ∉ around p := htp lx (by simp)
      refine ⟨((((m.rbSetParent y (parentOf none p)).rbSetColor y c).setLeft y
        (some lx)).rbSetParent lx (some y)), ?_, holds_plug_iff.2 ⟨hroot, ⟨?_, ?_, ?_⟩, ?_, hnd⟩⟩
      · simp [takePlace, rbSetParent, rbSetColor, setLeft, modify_node_of_ne _ _ hxy, hx]
      · simp [rbSetParent, rbSetColor, setLeft, modify_node_of_ne _ _ hlxy.symm, hy]
      · refine Subtree.reparent (q := some x) ?_ htnd.1 _
        exact (subtree_modify hyl).2 ((subtree_modify hyl).2 ((subtree_modify hyl).2 hl))
      · refine (subtree_modify hlxr).2 ?_
        exact (subtree_modify hyr).2 ((subtree_modify hyr).2 ((subtree_modify hyr).2 hr))
      · refine (context_modify hlxp).2 ?_
        exact (context_modify hyp).2 ((context_modify hyp).2 ((context_modify hyp).2 hp))

omit [DecidableEq A] in
theorem nodup_successor {u : RbTree A} {y : A}
    (h : ((RbTree.node c l x r).plug p).inorder.Nodup)
    (hperm : (y :: u.inorder).Perm r.inorder) :
    ((RbTree.node c l y u).plug p).inorder.Nodup := by
  obtain ⟨htnd, hpnd, htp⟩ := nodup_plug_iff.1 h
  simp only [inorder_node, List.nodup_append', List.nodup_cons, List.mem_append,
    List.mem_cons] at htnd htp
  refine nodup_plug_iff.2 ⟨?_, hpnd, ?_⟩
  · rw [inorder_node, List.nodup_append', hperm.nodup_iff]
    refine ⟨htnd.1, htnd.2.1.2, fun a hal hau => ?_⟩
    exact htnd.2.2 hal (List.mem_cons_of_mem x (hperm.mem_iff.1 hau))
  · intro a ha
    rw [inorder_node, List.mem_append, hperm.mem_iff] at ha
    exact htp a (ha.imp_right .inr)

/-- The child of the successor `y` takes its place in the right subtree of `x`, which is then the
right subtree of `y`. Other nodes stay as they are. -/
theorem unlinkSuccessor_spec {y : A} {child : RbTree A} {q : RbPath A}
    (hr : m.Subtree (some x) ((RbTree.node d nil y child).plug q))
    (hnd : ((RbTree.node d nil y child).plug q).inorder.Nodup)
    (hx : x ∉ ((RbTree.node d nil y child).plug q).inorder)
    (hright : (m.node x).rbRight = ((RbTree.node d nil y child).plug q).ptr)
    (hq : ∀ f ∈ q.head?, hangsLeft [f] = true) :
    ∃ m', m.unlinkSuccessor x y = some (m', parentOf (some y) q) ∧
      (m'.node y).rbRight = (child.plug q).ptr ∧ m'.Subtree (some y) (child.plug q) ∧
      m'.rbNode = m.rbNode ∧
      ∀ a, a ∉ ((RbTree.node d nil y child).plug q).inorder → m'.node a = m.node a := by
  obtain ⟨⟨hy, -, hchild⟩, hctx⟩ := (subtree_plug m (some x) _ _).1 hr
  cases q with
  | nil => exact ⟨m, by simp [unlinkSuccessor, hy], by rw [hy]; rfl, hchild, rfl, fun a _ => rfl⟩
  | cons f q =>
      obtain ⟨rx, hrx, hptr⟩ := exists_ptr_plug f q
      cases f with
      | right zc zl z => simp [hangsLeft] at hq
      | left zc z zr =>
          obtain ⟨hsnd, hqnd, hsq⟩ := nodup_plug_iff.1 hnd
          simp only [inorder_node, inorder_nil, List.nil_append, List.nodup_cons,
            List.mem_cons] at hsnd hsq
          have hmem : ∀ a, a ∈ ((RbTree.node d nil y child).plug (.left zc z zr :: q)).inorder ↔
              a = y ∨ a ∈ child.inorder ∨ a ∈ around (.left zc z zr :: q) := by
            intro a
            simp only [inorder_plug, around, inorder_node, inorder_nil, List.mem_append,
              List.mem_cons, List.nil_append]
            tauto
          simp only [hmem, not_or] at hx ⊢
          have hzq : z ∈ around (.left zc z zr :: q) := by simp [around, before, after]
          have hxz : x ≠ z := fun hxz => hx.2.2 (hxz ▸ hzq)
          have hxc : child.ptr ≠ some x := fun hxc => hx.2.1 (mem_of_ptr hxc)
          have hzc : z ∉ child.inorder := fun hzc => hsq z (.inr hzc) hzq
          have hyR : y ∉ (child.plug (.left zc z zr :: q)).inorder := by
            have hyq := hsq y (.inl rfl)
            simp only [around, List.mem_append, not_or] at hyq
            simp [inorder_plug, hsnd.1, hyq]
          have hrxy : y ≠ rx := fun hrxy => hsq y (.inl rfl) (hrxy ▸ hrx)
          rw [hptr] at hright
          refine ⟨(((m.setParentOf child.ptr (some z)).setLeft z child.ptr).setRight y
            (some rx)).rbSetParent rx (some y), ?_, ?_, ?_, ?_, ?_⟩
          · simp [unlinkSuccessor, hy, hxz.symm, setLeft, setRight, modify_node_of_ne _ _ hxz,
              modify_node_of_ne _ _ hx.1, setParentOf_node_of_ne _ hxc, hright]
          · rw [rbSetParent, modify_node_of_ne _ _ hrxy, setRight, modify_node_self, hptr]
          · have hctx' := Context.setLink ((context_setParentOf
              (fun a ha => hsq a (.inr (mem_of_ptr ha))) (some z)).2 hctx) hqnd child.ptr
            have hR := (subtree_plug ((m.setParentOf child.ptr (some z)).setLeft z child.ptr)
              (some x) child (.left zc z zr :: q)).2
                ⟨(subtree_modify hzc).2 (hchild.setParentOf hsnd.2 (some z)), hctx'⟩
            have hRnd := nodup_plug_iff.2 ⟨hsnd.2, hqnd, fun a ha => hsq a (.inr ha)⟩
            have hR' := Subtree.setParentOf ((subtree_modify
              (f := fun v => { v with rbRight := some rx }) hyR).2 hR) hRnd (some y)
            rwa [hptr] at hR'
          · simp [rbSetParent, setRight, setLeft]
          · rintro a ⟨hay, hac, haq⟩
            have haz : a ≠ z := fun haz => haq (haz ▸ hzq)
            have harx : a ≠ rx := fun harx => haq (harx ▸ hrx)
            rw [rbSetParent, modify_node_of_ne _ _ harx, setRight, modify_node_of_ne _ _ hay,
              setLeft, modify_node_of_ne _ _ haz,
              setParentOf_node_of_ne _ fun hca => hac (mem_of_ptr hca)]

/-- The successor of a node with two children takes its place. -/
theorem rbErase_successor {y : A} {child : RbTree A} {q : RbPath A}
    (h : m.Holds ((RbTree.node c l x ((RbTree.node d nil y child).plug q)).plug p))
    (hq : ∀ f ∈ q.head?, hangsLeft [f] = true) (hl : l ≠ nil) :
    ∃ m₁ m', (m.relink (parentOf none p) x (some y)).unlinkSuccessor x y =
        some (m₁, parentOf none (q ++ .right c l y :: p)) ∧
      m₁.takePlace x y = some m' ∧ m'.Holds (child.plug (q ++ .right c l y :: p)) := by
  obtain ⟨hroot, ⟨hx, hlt, hrt⟩, hp, hnd⟩ := holds_plug_iff.1 h
  have hperm : (y :: (child.plug q).inorder).Perm
      ((RbTree.node d nil y child).plug q).inorder := by
    simp only [inorder_plug, inorder_node, inorder_nil, List.nil_append, List.append_assoc]
    exact List.perm_middle.symm
  obtain ⟨htnd, hpnd, htp⟩ := nodup_plug_iff.1 hnd
  simp only [inorder_node, List.nodup_append', List.nodup_cons, List.mem_append,
    List.mem_cons] at htnd htp
  obtain ⟨hlnd, ⟨hxr, hrnd⟩, hlr⟩ := htnd
  have hxp : x ∉ around p := htp x (.inr (.inl rfl))
  have hrp : ∀ a ∈ ((RbTree.node d nil y child).plug q).inorder, a ∉ around p :=
    fun a ha => htp a (.inr (.inr ha))
  have hpx : parentOf none p ≠ some x := fun hpx => hxp (mem_around_of_parentOf hpx)
  have hx₀ := (relink_node_of_ne m hpx x (some y)).trans hx
  have hl₀ := (subtree_relink (fun a ha hal => htp a (.inl hal) (mem_around_of_parentOf ha)) x
    (some y)).2 hlt
  have hr₀ := (subtree_relink (fun a ha har => hrp a har (mem_around_of_parentOf ha)) x
    (some y)).2 hrt
  have hp₀ : (m.relink (parentOf none p) x (some y)).Context none p (some y) :=
    Context.relink hp hxp hpnd
  obtain ⟨m₁, hunlink, hy, hR, hroot₁, hframe⟩ :=
    unlinkSuccessor_spec hr₀ hrnd hxr (by rw [hx₀]) hq
  have hxy : x ≠ y := fun hxy => hxr (hperm.mem_iff.1 (by simp [hxy]))
  obtain ⟨m', hplace, h'⟩ := takePlace_holds ((hframe x hxr).trans hx₀) hxy hy
    (hl₀.congr fun a ha => hframe a fun har => hlr ha (List.mem_cons_of_mem x har)) hR
    (hp₀.congr fun a ha => hframe a fun har => hrp a har ha) hl
    (hroot₁.trans (relink_rbNode (u := .node c l y (child.plug q)) hroot))
    (nodup_successor hnd hperm)
  have hparent : parentOf none (q ++ .right c l y :: p) = parentOf (some y) q := by
    cases q with
    | nil => rfl
    | cons f q => cases f <;> rfl
  rw [hparent, plug_append]
  exact ⟨m₁, m', hunlink, hplace, h'⟩

omit [DecidableEq A] in
theorem descendLeft_eq (q : RbPath A) (h : m.Holds ((RbTree.node c l x r).plug p))
    (hf : l.height < fuel) : descendLeft fuel m x = some (leftmost c l x r q).2.1 := by
  fun_induction leftmost c l x r q generalizing p fuel with
  | case1 c x r q =>
      obtain ⟨fuel, rfl⟩ := Nat.exists_eq_add_of_lt hf
      simp [descendLeft, h.node]
  | case2 c lc ll lx lr x r q ih =>
      obtain ⟨fuel, rfl⟩ := Nat.exists_eq_add_of_lt hf
      have hx : (m.node x).rbLeft = some lx := by rw [h.node, ptr_node]
      rw [descendLeft, hx]
      refine ih (p := .left c x r :: p) h ?_
      simp only [height]
      omega

/-- The end of `rb_erase`: a black node that has been taken out is missed. -/
theorem eraseColor_holds {child : RbTree A} (hb : Balanced (RbTree.node c l x r) d n)
    (hfit : Fits p d n) (hc : l = nil ∧ child = r ∨ r = nil ∧ child = l)
    (h : m.Holds (child.plug p)) (hf : p.length < fuel) :
    ∃ m', (if c = black then m.rbEraseColor fuel child.ptr (parentOf none p) else some m) =
        some m' ∧
      m'.Holds (if c = black then RbTree.rbEraseColor child p else child.plug p) := by
  cases hb with
  | redNode hl hr => exact ⟨m, by simp, by simpa using h⟩
  | blackNode hl hr =>
      simp only [if_true]
      rcases hc with ⟨-, rfl⟩ | ⟨-, rfl⟩
      · exact rbEraseColor_holds h hr.lacks hfit hf
      · exact rbEraseColor_holds h hl.lacks hfit hf

theorem rbErase_one_child {child : RbTree A} (h : m.Holds ((RbTree.node c l x r).plug p))
    (hrb : ((RbTree.node c l x r).plug p).IsRedBlack)
    (hc : l = nil ∧ child = r ∨ r = nil ∧ child = l) (hf : p.length < fuel) :
    ∃ m', m.rbErase fuel x = some m' ∧
      m'.Holds (if c = black then RbTree.rbEraseColor child p else child.plug p) := by
  obtain ⟨d, n, hb, hfit⟩ := hrb.fits
  obtain ⟨m', hm', h'⟩ := eraseColor_holds hb hfit hc (unlink_holds h hc) hf
  refine ⟨m', ?_, h'⟩
  rw [← hm', RbMemory.rbErase, h.node]
  rcases hc with ⟨rfl, rfl⟩ | ⟨rfl, rfl⟩
  · simp
  · cases child with
    | nil => simp
    | node lc ll lx lr => simp

omit [DecidableEq A] in
theorem hangsLeft_leftmost (c : RbColor) (l : RbTree A) (x : A) (r : RbTree A) (q : RbPath A)
    (hq : ∀ f ∈ q.head?, hangsLeft [f] = true) :
    ∀ f ∈ (leftmost c l x r q).2.2.2.head?, hangsLeft [f] = true := by
  fun_induction leftmost c l x r q with
  | case1 => exact hq
  | case2 c lc ll lx lr x r q ih => exact ih (by simp [hangsLeft])

/-- `rb_erase` never faults on a red-black tree, and leaves the tree that `RbTree.rbErase` gives. -/
theorem rbErase_holds (h : m.Holds t) (hrb : t.IsRedBlack) (hx : x ∈ t.inorder)
    (hf : t.height < fuel) : ∃ m', m.rbErase fuel x = some m' ∧ m'.Holds (t.rbErase x) := by
  obtain ⟨c, l, r, p, hloc⟩ := locate_isSome [] hx
  obtain rfl : (RbTree.node c l x r).plug p = t := plug_of_locate hloc
  have hplen := length_add_height_le (RbTree.node c l x r) p
  unfold RbTree.rbErase
  rw [hloc]
  cases l with
  | nil => exact rbErase_one_child h hrb (.inl ⟨rfl, rfl⟩) (by omega)
  | node lc ll lx lr =>
      cases r with
      | nil => exact rbErase_one_child h hrb (.inr ⟨rfl, rfl⟩) (by omega)
      | node rc rl rx rr =>
          have hright := plug_leftmost rc rl rx rr []
          have hq := hangsLeft_leftmost rc rl rx rr [] (by simp)
          have hlt : rl.height < fuel := by
            simp only [height] at hplen
            omega
          have hdescend := descendLeft_eq (c := rc) (l := rl) (x := rx) (r := rr)
            (p := .right c (.node lc ll lx lr) x :: p) [] h hlt
          have hnode := h.node
          rcases hmin : leftmost rc rl rx rr [] with ⟨color, y, child, q⟩
          simp only [hmin, plug] at hright hq hdescend
          rw [← hright] at h hrb hplen
          obtain ⟨m₁, m₂, hunlink, hplace, h₂⟩ := rbErase_successor h hq (by simp)
          have hwhole := plug_append (RbTree.node color nil y child) q
            (.right c (.node lc ll lx lr) x :: p)
          have hlen := length_add_height_le (RbTree.node color nil y child)
            (q ++ .right c (.node lc ll lx lr) x :: p)
          have hnd := h.nodup
          have hy : m.node y = _ := Holds.node (p := q ++ .right c (.node lc ll lx lr) x :: p)
            (hwhole ▸ h)
          have hpy : parentOf none p ≠ some y := by
            intro hpy
            refine (nodup_plug_iff.1 hnd).2.2 y ?_ (mem_around_of_parentOf hpy)
            simp [inorder_plug]
          have hy₀ := (relink_node_of_ne m hpy x (some y)).trans hy
          rw [hwhole, hright, plug, List.length_append, List.length_cons] at hlen
          obtain ⟨d, n, hb, hfit⟩ := IsRedBlack.fits (hwhole ▸ hrb)
          have hlen' : (q ++ .right c (.node lc ll lx lr) y :: p).length < fuel := by
            rw [List.length_append, List.length_cons]
            omega
          obtain ⟨m', hm', h'⟩ := eraseColor_holds hb hfit.rekey (.inl ⟨rfl, rfl⟩) h₂ hlen'
          simp only [hmin]
          refine ⟨m', ?_, h'⟩
          rw [← hm']
          simp [RbMemory.rbErase, hnode, hdescend, hy₀, hunlink, hplace]

end RbMemory

end Miscellany
