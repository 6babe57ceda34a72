import Miscellany.EventLoop.RbMemory
import Miscellany.EventLoop.RedBlack

/-!
# Trees in memory

`Subtree m q t` says that the nodes of the tree `t`, whose labels are addresses,
are in the memory `m` with the children and colours they have in `t`, below a node
`q`. `Context m top p child` says the same of the nodes of a path, above a subtree
with the root `child`. Writing to an address outside of them changes neither, so
the effect of a function of `rbtree.c` on a tree follows from what it writes to
the few nodes around a place of the tree.
-/

namespace Miscellany

open RbColor

variable {A : Type*}

namespace RbTree

/-- The pointer to the root. -/
def ptr : RbTree A → Option A
  | nil => none
  | node _ _ x _ => some x

@[simp] theorem ptr_nil : (nil : RbTree A).ptr = none := rfl

@[simp] theorem ptr_node (c : RbColor) (l : RbTree A) (x : A) (r : RbTree A) :
    (node c l x r).ptr = some x := rfl

/-- The node that a path leads to first, or `top` where it leads nowhere. -/
def parentOf (top : Option A) : RbPath A → Option A
  | [] => top
  | .left _ x _ :: _ => some x
  | .right _ _ x :: _ => some x

@[simp] theorem parentOf_nil (top : Option A) : parentOf top [] = top := rfl

@[simp] theorem parentOf_left (top : Option A) (c : RbColor) (x : A) (r : RbTree A)
    (p : RbPath A) : parentOf top (.left c x r :: p) = some x := rfl

@[simp] theorem parentOf_right (top : Option A) (c : RbColor) (l : RbTree A) (x : A)
    (p : RbPath A) : parentOf top (.right c l x :: p) = some x := rfl

/-- The keys of a path and of the subtrees beside it. -/
def around (p : RbPath A) : List A := before p ++ after p

theorem nodup_plug_iff {t : RbTree A} {p : RbPath A} :
    (t.plug p).inorder.Nodup ↔
      t.inorder.Nodup ∧ (around p).Nodup ∧ ∀ a ∈ t.inorder, a ∉ around p := by
  have hperm : ((t.plug p).inorder).Perm (t.inorder ++ around p) := by
    rw [inorder_plug, around, ← List.append_assoc]
    exact List.perm_append_comm.append_right (after p)
  rw [hperm.nodup_iff, List.nodup_append']
  rfl

/-- The addresses of a node with its right child are different. -/
theorem nodup_two {c d : RbColor} {l b r : RbTree A} {x y : A}
    (h : (node c l x (node d b y r)).inorder.Nodup) :
    x ≠ y ∧ x ∉ l.inorder ∧ x ∉ b.inorder ∧ x ∉ r.inorder ∧ y ∉ l.inorder ∧ y ∉ b.inorder ∧
      y ∉ r.inorder ∧ b.inorder.Nodup ∧ (∀ a ∈ b.inorder, a ∉ l.inorder) ∧
      ∀ a ∈ b.inorder, a ∉ r.inorder := by
  simp only [inorder_node] at h
  grind

/-! ### The mirror image -/

def mirror : RbTree A → RbTree A
  | nil => nil
  | node c l x r => node c r.mirror x l.mirror

/-- The mirror image of a path. -/
def mirrorPath : RbPath A → RbPath A
  | [] => []
  | .left c x r :: p => .right c r.mirror x :: mirrorPath p
  | .right c l x :: p => .left c x l.mirror :: mirrorPath p

@[simp] theorem mirror_mirror (t : RbTree A) : t.mirror.mirror = t := by
  induction t with
  | nil => rfl
  | node c l x r ihl ihr => simp [mirror, ihl, ihr]

@[simp] theorem mirrorPath_mirrorPath (p : RbPath A) : mirrorPath (mirrorPath p) = p := by
  induction p with
  | nil => rfl
  | cons f p ih => cases f <;> simp [mirrorPath, ih]

@[simp] theorem ptr_mirror (t : RbTree A) : t.mirror.ptr = t.ptr := by
  cases t <;> rfl

theorem inorder_mirror (t : RbTree A) : t.mirror.inorder = t.inorder.reverse := by
  induction t with
  | nil => rfl
  | node c l x r ihl ihr => simp [mirror, ihl, ihr]

theorem mirror_plug (t : RbTree A) (p : RbPath A) :
    (t.plug p).mirror = t.mirror.plug (mirrorPath p) := by
  induction p generalizing t with
  | nil => rfl
  | cons f p ih => cases f <;> exact ih _

end RbTree

namespace RbMemory

open RbTree

def Subtree (m : RbMemory A) : Option A → RbTree A → Prop
  | _, nil => True
  | q, .node c l x r =>
      m.node x = ⟨q, c, r.ptr, l.ptr⟩ ∧ Subtree m (some x) l ∧ Subtree m (some x) r

def Context (m : RbMemory A) (top : Option A) : RbPath A → Option A → Prop
  | [], _ => True
  | .left c x r :: p, child =>
      m.node x = ⟨parentOf top p, c, r.ptr, child⟩ ∧ Subtree m (some x) r ∧
        Context m top p (some x)
  | .right c l x :: p, child =>
      m.node x = ⟨parentOf top p, c, child, l.ptr⟩ ∧ Subtree m (some x) l ∧
        Context m top p (some x)

/-- The memory holds the tree `t`. -/
structure Holds (m : RbMemory A) (t : RbTree A) : Prop where
  root : m.rbNode = t.ptr
  tree : m.Subtree none t
  nodup : t.inorder.Nodup

variable {m m' : RbMemory A} {t u : RbTree A} {p : RbPath A} {q top : Option A} {a b : A}

theorem subtree_plug (m : RbMemory A) (top : Option A) (t : RbTree A) (p : RbPath A) :
    m.Subtree top (t.plug p) ↔ m.Subtree (parentOf top p) t ∧ m.Context top p t.ptr := by
  induction p generalizing t with
  | nil => simp [plug, Context]
  | cons f p ih =>
      cases f with
      | left c x r =>
          simp only [plug, ih, Subtree, Context, ptr_node, parentOf_left]
          tauto
      | right c l x =>
          simp only [plug, ih, Subtree, Context, ptr_node, parentOf_right]
          tauto

/-- A subtree only depends on its own nodes. -/
theorem Subtree.congr (h : m.Subtree q t) (hm : ∀ x ∈ t.inorder, m'.node x = m.node x) :
    m'.Subtree q t := by
  induction t generalizing q with
  | nil => trivial
  | node c l x r ihl ihr =>
      obtain ⟨hx, hl, hr⟩ := h
      refine ⟨(hm x (by simp)).trans hx, ihl hl fun y hy => hm y ?_, ihr hr fun y hy => hm y ?_⟩
      · simp [hy]
      · simp [hy]

theorem Context.congr {child : Option A} (h : m.Context top p child)
    (hm : ∀ x ∈ around p, m'.node x = m.node x) : m'.Context top p child := by
  induction p generalizing child with
  | nil => trivial
  | cons f p ih =>
      cases f with
      | left c x r =>
          simp only [around, before, after, List.mem_append, List.mem_cons] at hm
          obtain ⟨hx, hr, hp⟩ := h
          refine ⟨(hm x (by simp)).trans hx, hr.congr fun y hy => hm y (by simp [hy]),
            ih hp fun y hy => hm y ?_⟩
          rcases List.mem_append.1 hy with hy | hy
          · simp [hy]
          · simp [hy]
      | right c l x =>
          simp only [around, before, after, List.mem_append, List.mem_singleton] at hm
          obtain ⟨hx, hl, hp⟩ := h
          refine ⟨(hm x (by simp)).trans hx, hl.congr fun y hy => hm y (by simp [hy]),
            ih hp fun y hy => hm y ?_⟩
          rcases List.mem_append.1 hy with hy | hy
          · simp [hy]
          · simp [hy]

/-- The root of a tree in which a path leads up from a subtree is on the path. -/
theorem exists_ptr_plug (f : RbFrame A) (p : RbPath A) :
    ∃ a ∈ around (f :: p), ∀ t : RbTree A, (t.plug (f :: p)).ptr = some a := by
  induction p generalizing f with
  | nil =>
      cases f with
      | left c x r => exact ⟨x, by simp [around, before, after], fun t => rfl⟩
      | right c l x => exact ⟨x, by simp [around, before, after], fun t => rfl⟩
  | cons g p ih =>
      obtain ⟨a, ha, hroot⟩ := ih g
      refine ⟨a, ?_, fun t => ?_⟩
      · rcases List.mem_append.1 ha with ha | ha
        · cases f <;> simp [around, before, after, ha]
        · cases f <;> simp [around, before, after, ha]
      · cases f <;> exact hroot _

theorem ptr_plug (t u : RbTree A) (f : RbFrame A) (p : RbPath A) :
    (t.plug (f :: p)).ptr = (u.plug (f :: p)).ptr := by
  obtain ⟨a, -, hroot⟩ := exists_ptr_plug f p
  rw [hroot, hroot]

theorem mem_of_ptr (h : t.ptr = some a) : a ∈ t.inorder := by
  cases t with
  | nil => cases h
  | node c l x r =>
      cases h
      simp

theorem mem_around_of_parentOf (h : parentOf none p = some a) : a ∈ around p := by
  cases p with
  | nil => cases h
  | cons f p => cases f <;> cases h <;> simp [around, before, after]

theorem holds_plug_iff :
    m.Holds (t.plug p) ↔ m.rbNode = (t.plug p).ptr ∧ m.Subtree (parentOf none p) t ∧
      m.Context none p t.ptr ∧ (t.plug p).inorder.Nodup := by
  constructor
  · rintro ⟨hroot, htree, hnd⟩
    obtain ⟨ht, hp⟩ := (subtree_plug m none t p).1 htree
    exact ⟨hroot, ht, hp, hnd⟩
  · rintro ⟨hroot, ht, hp, hnd⟩
    exact ⟨hroot, (subtree_plug m none t p).2 ⟨ht, hp⟩, hnd⟩

/-! ### Writes to single nodes -/

section Writes

variable [DecidableEq A] {f : RbNode A → RbNode A} {c : RbColor} {v : Option A}

@[simp] theorem modify_node_self (m : RbMemory A) (a : A) (f : RbNode A → RbNode A) :
    (m.modify a f).node a = f (m.node a) := by
  simp [modify]

@[simp] theorem modify_rbNode (m : RbMemory A) (a : A) (f : RbNode A → RbNode A) :
    (m.modify a f).rbNode = m.rbNode := rfl

@[simp] theorem setParentOf_rbNode (m : RbMemory A) (v w : Option A) :
    (m.setParentOf v w).rbNode = m.rbNode := by
  cases v <;> rfl

theorem modify_node_of_ne (m : RbMemory A) (f : RbNode A → RbNode A) (h : b ≠ a) :
    (m.modify a f).node b = m.node b := by
  simp [modify, Function.update_of_ne h]

theorem subtree_modify (ha : a ∉ t.inorder) :
    (m.modify a f).Subtree q t ↔ m.Subtree q t := by
  have hm : ∀ x ∈ t.inorder, (m.modify a f).node x = m.node x := by
    intro x hx
    refine modify_node_of_ne m f ?_
    rintro rfl
    exact ha hx
  exact ⟨fun h => h.congr fun x hx => (hm x hx).symm, fun h => h.congr hm⟩

theorem context_modify {child : Option A} (ha : a ∉ around p) :
    (m.modify a f).Context top p child ↔ m.Context top p child := by
  have hm : ∀ x ∈ around p, (m.modify a f).node x = m.node x := by
    intro x hx
    refine modify_node_of_ne m f ?_
    rintro rfl
    exact ha hx
  exact ⟨fun h => h.congr fun x hx => (hm x hx).symm, fun h => h.congr hm⟩

theorem subtree_setParentOf (hv : ∀ a, v = some a → a ∉ t.inorder) (w : Option A) :
    (m.setParentOf v w).Subtree q t ↔ m.Subtree q t := by
  cases v with
  | none => exact Iff.rfl
  | some a =>
      change (m.modify a fun v => { v with rbParent := w }).Subtree q t ↔ _
      exact subtree_modify (hv a rfl)

theorem context_setParentOf {child : Option A} (hv : ∀ a, v = some a → a ∉ around p)
    (w : Option A) : (m.setParentOf v w).Context top p child ↔ m.Context top p child := by
  cases v with
  | none => exact Iff.rfl
  | some a =>
      change (m.modify a fun v => { v with rbParent := w }).Context top p child ↔ _
      exact context_modify (hv a rfl)

theorem setParentOf_node_of_ne (m : RbMemory A) (hv : v ≠ some a) (w : Option A) :
    (m.setParentOf v w).node a = m.node a := by
  cases v with
  | none => rfl
  | some b =>
      change (m.modify b fun v => { v with rbParent := w }).node a = _
      refine modify_node_of_ne m _ ?_
      rintro rfl
      exact hv rfl

theorem subtree_relink (hv : ∀ a, v = some a → a ∉ t.inorder) (x : A) (w : Option A) :
    (m.relink v x w).Subtree q t ↔ m.Subtree q t := by
  unfold relink
  split
  · split_ifs
    · exact subtree_modify (hv _ rfl)
    · exact subtree_modify (hv _ rfl)
  · exact ⟨fun h => h.congr fun _ _ => rfl, fun h => h.congr fun _ _ => rfl⟩

theorem relink_node_of_ne (m : RbMemory A) (hv : v ≠ some a) (x : A) (w : Option A) :
    (m.relink v x w).node a = m.node a := by
  unfold relink
  split
  · rename_i b
    have hne : a ≠ b := fun hab => hv (hab ▸ rfl)
    split_ifs <;> exact modify_node_of_ne m _ hne
  · rfl

/-- Below another node. -/
theorem Subtree.reparent {l r : RbTree A} {x : A} (h : m.Subtree q (.node c l x r))
    (hnd : (RbTree.node c l x r).inorder.Nodup) (q' : Option A) :
    (m.rbSetParent x q').Subtree q' (.node c l x r) := by
  obtain ⟨hx, hl, hr⟩ := h
  obtain ⟨hxl, hxr⟩ := notMem_of_nodup_middle hnd
  refine ⟨?_, (subtree_modify hxl).2 hl, (subtree_modify hxr).2 hr⟩
  simp [rbSetParent, hx]

theorem Subtree.setParentOf (h : m.Subtree q t) (hnd : t.inorder.Nodup) (q' : Option A) :
    (m.setParentOf t.ptr q').Subtree q' t := by
  cases t with
  | nil => trivial
  | node c l x r => exact h.reparent hnd q'

theorem Subtree.recolor {l r : RbTree A} {x : A} {d : RbColor}
    (h : m.Subtree q (.node c l x r)) (hnd : (RbTree.node c l x r).inorder.Nodup) :
    (m.rbSetColor x d).Subtree q (.node d l x r) := by
  obtain ⟨hx, hl, hr⟩ := h
  obtain ⟨hxl, hxr⟩ := notMem_of_nodup_middle hnd
  refine ⟨?_, (subtree_modify hxl).2 hl, (subtree_modify hxr).2 hr⟩
  simp [rbSetColor, hx]

/-- `relink` leads to another subtree. -/
theorem Context.relink {child : Option A} (h : m.Context none p (some a)) (ha : a ∉ around p)
    (hnd : (around p).Nodup) :
    (m.relink (parentOf none p) a child).Context none p child := by
  cases p with
  | nil => trivial
  | cons f p =>
      cases f with
      | left c x r =>
          simp [around, before, after] at ha hnd
          obtain ⟨hx, hr, hp⟩ := h
          have hxr : x ∉ r.inorder := by grind
          have hxp : x ∉ around p := by grind [around]
          simp only [RbMemory.relink, parentOf_left, hx, if_true, setLeft]
          exact ⟨by simp [hx], (subtree_modify hxr).2 hr, (context_modify hxp).2 hp⟩
      | right c l x =>
          simp [around, before, after] at ha hnd
          obtain ⟨hx, hl, hp⟩ := h
          have hxl : x ∉ l.inorder := by grind
          have hxp : x ∉ around p := by grind [around]
          have hla : l.ptr ≠ some a := fun hl => ha.2.1 (mem_of_ptr hl)
          simp only [RbMemory.relink, parentOf_right, hx, if_neg hla, setRight]
          exact ⟨by simp [hx], (subtree_modify hxl).2 hl, (context_modify hxp).2 hp⟩

/-! ### Rotations -/

theorem relink_rbNode {x : A} (h : m.rbNode = (t.plug p).ptr) :
    (m.relink (parentOf none p) x u.ptr).rbNode = (u.plug p).ptr := by
  cases p with
  | nil => rfl
  | cons f p =>
      have hroot : m.rbNode = (u.plug (f :: p)).ptr := h.trans (ptr_plug t u f p)
      cases f <;> simp only [relink, parentOf_left, parentOf_right] <;> split_ifs <;> exact hroot

theorem rbRotateLeft_eq {x y : A} (hx : (m.node x).rbRight = some y) :
    m.rbRotateLeft x = some
      ((((((m.setRight x (m.node y).rbLeft).setParentOf (m.node y).rbLeft (some x)).setLeft y
        (some x)).rbSetParent y (m.node x).rbParent).relink (m.node x).rbParent x
          (some y)).rbSetParent x (some y)) := by
  simp [rbRotateLeft, hx]

theorem rbRotateLeft_holds {c d : RbColor} {l b r : RbTree A} {x y : A}
    (h : m.Holds ((RbTree.node c l x (.node d b y r)).plug p)) :
    ∃ m', m.rbRotateLeft x = some m' ∧ m'.Holds ((RbTree.node d (.node c l x b) y r).plug p) := by
  obtain ⟨hroot, ⟨hx, hl, hy, hb, hr⟩, hp, hnd⟩ := holds_plug_iff.1 h
  obtain ⟨htnd, hpnd, htp⟩ := nodup_plug_iff.1 hnd
  obtain ⟨hxy, hxl, hxb, hxr, hyl, hyb, hyr, hbnd, hbl, hbr⟩ := nodup_two htnd
  have hxp : x ∉ around p := htp x (by simp)
  have hyp : y ∉ around p := htp y (by simp)
  have hq : ∀ {s : RbTree A}, (∀ a ∈ s.inorder, a ∉ around p) →
      ∀ a, parentOf none p = some a → a ∉ s.inorder :=
    fun hs a ha has => hs a has (mem_around_of_parentOf ha)
  have hlp : ∀ a ∈ l.inorder, a ∉ around p := fun a ha => htp a (by simp [ha])
  have hbp : ∀ a ∈ b.inorder, a ∉ around p := fun a ha => htp a (by simp [ha])
  have hrp : ∀ a ∈ r.inorder, a ∉ around p := fun a ha => htp a (by simp [ha])
  have hqx : parentOf none p ≠ some x := fun ha => hxp (mem_around_of_parentOf ha)
  have hqy : parentOf none p ≠ some y := fun ha => hyp (mem_around_of_parentOf ha)
  have hbx : b.ptr ≠ some x := fun ha => hxb (mem_of_ptr ha)
  have hby : b.ptr ≠ some y := fun ha => hyb (mem_of_ptr ha)
  have hnd' : ((RbTree.node d (.node c l x b) y r).plug p).inorder.Nodup := by
    simpa [inorder_plug] using hnd
  refine ⟨_, rbRotateLeft_eq (by rw [hx]; rfl),
    holds_plug_iff.2 ⟨?_, ⟨?_, ⟨?_, ?_, ?_⟩, ?_⟩, ?_, hnd'⟩⟩
  all_goals simp only [hx, hy, rbSetParent, setLeft, setRight, ptr_node]
  · refine relink_rbNode (t := .node c l x (.node d b y r)) (u := .node d (.node c l x b) y r) ?_
    simpa using hroot
  · rw [modify_node_of_ne _ _ hxy.symm, relink_node_of_ne _ hqy, modify_node_self, modify_node_self,
      setParentOf_node_of_ne _ hby, modify_node_of_ne _ _ hxy.symm, hy]
  · rw [modify_node_self, relink_node_of_ne _ hqx, modify_node_of_ne _ _ hxy,
      modify_node_of_ne _ _ hxy, setParentOf_node_of_ne _ hbx, modify_node_self, hx]
  · rw [subtree_modify hxl, subtree_relink (hq hlp), subtree_modify hyl, subtree_modify hyl,
      subtree_setParentOf fun a ha => hbl a (mem_of_ptr ha), subtree_modify hxl]
    exact hl
  · rw [subtree_modify hxb, subtree_relink (hq hbp), subtree_modify hyb, subtree_modify hyb]
    exact ((subtree_modify hxb).2 hb).setParentOf hbnd _
  · rw [subtree_modify hxr, subtree_relink (hq hrp), subtree_modify hyr, subtree_modify hyr,
      subtree_setParentOf fun a ha => hbr a (mem_of_ptr ha), subtree_modify hxr]
    exact hr
  · rw [context_modify hxp]
    refine Context.relink ?_ hxp hpnd
    rw [context_modify hyp, context_modify hyp,
      context_setParentOf fun a ha => hbp a (mem_of_ptr ha), context_modify hxp]
    exact hp

/-! ### The mirror image -/

/-- The memory with the children of every node exchanged. -/
def mirror (m : RbMemory A) : RbMemory A where
  node a := ⟨(m.node a).rbParent, (m.node a).rbColor, (m.node a).rbLeft, (m.node a).rbRight⟩
  rbNode := m.rbNode

omit [DecidableEq A] in
@[simp] theorem mirror_mirror (m : RbMemory A) : m.mirror.mirror = m := rfl

omit [DecidableEq A] in
@[simp] theorem mirror_node (m : RbMemory A) (a : A) : m.mirror.node a =
    ⟨(m.node a).rbParent, (m.node a).rbColor, (m.node a).rbLeft, (m.node a).rbRight⟩ := rfl

theorem mirror_modify (m : RbMemory A) (a : A) (f g : RbNode A → RbNode A)
    (h : ∀ v, g ⟨v.rbParent, v.rbColor, v.rbLeft, v.rbRight⟩ =
      ⟨(f v).rbParent, (f v).rbColor, (f v).rbLeft, (f v).rbRight⟩) :
    (m.modify a f).mirror = m.mirror.modify a g := by
  simp only [modify, mirror, h, RbMemory.mk.injEq, and_true]
  funext b
  by_cases hb : b = a
  · subst hb
    simp
  · simp [Function.update_of_ne hb]

theorem mirror_setLeft (m : RbMemory A) (a : A) (w : Option A) :
    (m.setLeft a w).mirror = m.mirror.setRight a w := mirror_modify m a _ _ fun _ => rfl

theorem mirror_setRight (m : RbMemory A) (a : A) (w : Option A) :
    (m.setRight a w).mirror = m.mirror.setLeft a w := mirror_modify m a _ _ fun _ => rfl

theorem mirror_rbSetParent (m : RbMemory A) (a : A) (w : Option A) :
    (m.rbSetParent a w).mirror = m.mirror.rbSetParent a w := mirror_modify m a _ _ fun _ => rfl

theorem mirror_setParentOf (m : RbMemory A) (v w : Option A) :
    (m.setParentOf v w).mirror = m.mirror.setParentOf v w := by
  cases v with
  | none => rfl
  | some a => exact mirror_rbSetParent m a w

theorem mirror_relinkRight (m : RbMemory A) (v : Option A) (x : A) (w : Option A) :
    (m.relinkRight v x w).mirror = m.mirror.relink v x w := by
  cases v with
  | none => rfl
  | some a =>
      by_cases h : (m.node a).rbRight = some x
      · simp [relinkRight, RbMemory.relink, h, mirror_setRight]
      · simp [relinkRight, RbMemory.relink, h, mirror_setLeft]

theorem mirror_rbRotateRight (m : RbMemory A) (x : A) :
    (m.rbRotateRight x).map mirror = m.mirror.rbRotateLeft x := by
  cases h : (m.node x).rbLeft with
  | none => simp [rbRotateRight, rbRotateLeft, h]
  | some y =>
      simp only [rbRotateRight, rbRotateLeft, mirror_node, h, Option.bind_eq_bind,
        Option.bind_some, Option.pure_def, Option.map_some, mirror_rbSetParent,
        mirror_relinkRight, mirror_setRight, mirror_setParentOf, mirror_setLeft]

omit [DecidableEq A] in
theorem Subtree.mirror (h : m.Subtree q t) : m.mirror.Subtree q t.mirror := by
  induction t generalizing q with
  | nil => trivial
  | node c l x r ihl ihr =>
      obtain ⟨hx, hl, hr⟩ := h
      refine ⟨?_, ihr hr, ihl hl⟩
      simp [RbMemory.mirror, hx]

omit [DecidableEq A] in
theorem Holds.mirror (h : m.Holds t) : m.mirror.Holds t.mirror := by
  refine ⟨?_, h.tree.mirror, ?_⟩
  · rw [ptr_mirror]
    exact h.root
  · rw [inorder_mirror]
    exact List.nodup_reverse.2 h.nodup

theorem rbRotateRight_holds {c d : RbColor} {l b r : RbTree A} {x y : A}
    (h : m.Holds ((RbTree.node c (.node d l y b) x r).plug p)) :
    ∃ m', m.rbRotateRight x = some m' ∧
      m'.Holds ((RbTree.node d l y (.node c b x r)).plug p) := by
  have hmirror := h.mirror
  rw [mirror_plug] at hmirror
  obtain ⟨m', hrot, hm'⟩ := rbRotateLeft_holds hmirror
  rw [← mirror_rbRotateRight] at hrot
  obtain ⟨m₁, hm₁, rfl⟩ := Option.map_eq_some_iff.1 hrot
  refine ⟨m₁, hm₁, ?_⟩
  have hback := hm'.mirror
  rw [mirror_plug, mirrorPath_mirrorPath] at hback
  simpa [RbTree.mirror] using hback

end Writes

end RbMemory

end Miscellany
