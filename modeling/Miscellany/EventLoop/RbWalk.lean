import Miscellany.EventLoop.RbErase

/-!
# Walking a tree in memory

`rb_first`, `rb_next`, `rb_last` and `rb_prev` on a memory that holds a tree. The
first two find the nodes that `RbTree.rbFirst` and `RbTree.rbNext` give, so a loop
over them visits the nodes in order; the other two are the same functions on the
mirror image of the memory, so their loop visits the nodes in the opposite order.
-/

namespace Miscellany

open RbColor

variable {A : Type*}

namespace RbTree

theorem height_mirror (t : RbTree A) : t.mirror.height = t.height := by
  induction t with
  | nil => rfl
  | node c l x r ihl ihr => simp only [mirror, height, ihl, ihr, max_comm]

end RbTree

namespace RbMemory

open RbTree

variable {m : RbMemory A} {t l r : RbTree A} {p : RbPath A} {c : RbColor} {x : A} {fuel : ℕ}

/-! ### Forwards -/

theorem rbFirst_eq (h : m.Holds t) (hf : t.height < fuel) :
    m.rbFirst fuel = some t.inorder.head? := by
  rw [← RbTree.rbFirst_eq]
  cases t with
  | nil => simp [rbFirst, h.root, RbTree.rbFirst]
  | node c l x r =>
      have hl : l.height < fuel := by
        simp only [height] at hf
        omega
      simp [rbFirst, h.root, RbTree.rbFirst, descendLeft_eq (p := []) [] h hl]

variable [DecidableEq A]

theorem climbNext_eq (h : m.Holds (t.plug p)) (hx : t.ptr = some x) (hf : p.length < fuel) :
    climbNext fuel m x = some (rbClimb p) := by
  induction p generalizing t x fuel with
  | nil =>
      obtain ⟨fuel, rfl⟩ := Nat.exists_eq_add_of_lt hf
      simp [climbNext, h.parent hx, rbClimb]
  | cons f p ih =>
      obtain ⟨fuel, rfl⟩ := Nat.exists_eq_add_of_lt hf
      cases f with
      | left c y r =>
          have hne : r.ptr ≠ some x := Holds.ptr_ne (p := p) h hx
          simp [climbNext, h.parent hx, h.left, rbClimb, hne.symm]
      | right c l y =>
          have hlen : p.length < (RbFrame.right c l y :: p).length + fuel := by
            rw [List.length_cons]
            omega
          have hy := ih (t := .node c l y t) h rfl hlen
          simpa [climbNext, h.parent hx, h.right, rbClimb, hx] using hy

omit [DecidableEq A] in
theorem Holds.parent_ne (h : m.Holds (t.plug p)) (hx : t.ptr = some x) :
    (m.node x).rbParent ≠ some x := by
  rw [h.parent hx]
  intro heq
  exact (nodup_plug_iff.1 h.nodup).2.2 x (mem_of_ptr hx) (mem_around_of_parentOf heq)

theorem rbNext_eq_rbNext (h : m.Holds t) (hx : x ∈ t.inorder) (hf : t.height < fuel) :
    m.rbNext fuel x = some (t.rbNext x) := by
  obtain ⟨c, l, r, p, hloc⟩ := locate_isSome [] hx
  obtain rfl : (RbTree.node c l x r).plug p = t := plug_of_locate hloc
  have hlen := length_add_height_le (RbTree.node c l x r) p
  rw [height] at hlen
  have hnode := h.node
  have hparent := h.parent_ne (t := .node c l x r) rfl
  rw [hnode] at hparent
  rw [rbNext, hnode, if_neg hparent, RbTree.rbNext, hloc]
  cases r with
  | nil => exact climbNext_eq h rfl (by omega)
  | node rc rl rx rr =>
      rw [height] at hlen
      have hlt : rl.height < fuel := by omega
      have hright := descendLeft_eq (c := rc) (l := rl) (x := rx) (r := rr)
        (p := .right c l x :: p) [] h hlt
      simp [hright]

/-- `rb_next` is the next node in order. -/
theorem rbNext_eq {us vs : List A} (h : m.Holds t) (ht : t.inorder = us ++ x :: vs)
    (hf : t.height < fuel) : m.rbNext fuel x = some vs.head? := by
  rw [rbNext_eq_rbNext h (by simp [ht]) hf, RbTree.rbNext_eq ht h.nodup]

/-! ### Backwards -/

omit [DecidableEq A] in
theorem descendRight_eq_mirror (fuel : ℕ) (m : RbMemory A) (x : A) :
    descendRight fuel m x = descendLeft fuel m.mirror x := by
  induction fuel generalizing x with
  | zero => rfl
  | succ fuel ih =>
      simp only [descendRight, descendLeft, mirror_node]
      cases (m.node x).rbRight with
      | none => rfl
      | some y => exact ih y

theorem climbPrev_eq_mirror (fuel : ℕ) (m : RbMemory A) (x : A) :
    climbPrev fuel m x = climbNext fuel m.mirror x := by
  induction fuel generalizing x with
  | zero => rfl
  | succ fuel ih =>
      simp only [climbPrev, climbNext, mirror_node]
      cases (m.node x).rbParent with
      | none => rfl
      | some y =>
          simp only [ih y]
          rfl

theorem rbPrev_eq_mirror (fuel : ℕ) (m : RbMemory A) (x : A) :
    m.rbPrev fuel x = m.mirror.rbNext fuel x := by
  simp only [rbPrev, rbNext, mirror_node, descendRight_eq_mirror, climbPrev_eq_mirror]
  rfl

omit [DecidableEq A] in
theorem rbLast_eq_mirror (fuel : ℕ) (m : RbMemory A) :
    m.rbLast fuel = m.mirror.rbFirst fuel := by
  simp only [rbLast, rbFirst, mirror, descendRight_eq_mirror]

omit [DecidableEq A] in
theorem rbLast_eq (h : m.Holds t) (hf : t.height < fuel) :
    m.rbLast fuel = some t.inorder.getLast? := by
  rw [rbLast_eq_mirror, rbFirst_eq h.mirror (by rwa [height_mirror]), inorder_mirror,
    List.head?_reverse]

/-- `rb_prev` is the previous node in order. -/
theorem rbPrev_eq {us vs : List A} (h : m.Holds t) (ht : t.inorder = us ++ x :: vs)
    (hf : t.height < fuel) : m.rbPrev fuel x = some us.getLast? := by
  have hmirror : t.mirror.inorder = vs.reverse ++ x :: us.reverse := by
    rw [inorder_mirror, ht]
    simp
  rw [rbPrev_eq_mirror, rbNext_eq h.mirror hmirror (by rwa [height_mirror]), List.head?_reverse]

/-! ### Loops over a tree -/

/-- The nodes that a loop visits, which goes on from a node to the one that `next` gives. -/
def walk (next : A → Option (Option A)) : ℕ → Option A → Option (List A)
  | _, none => some []
  | 0, some _ => none
  | rounds + 1, some a => do
      let rest ← walk next rounds (← next a)
      return a :: rest

omit [DecidableEq A] in
theorem walk_eq {next : A → Option (Option A)} (us : List A) {xs : List A} {rounds : ℕ}
    (hnext : ∀ vs y ws, us ++ xs = vs ++ y :: ws → next y = some ws.head?)
    (hn : xs.length ≤ rounds) : walk next rounds xs.head? = some xs := by
  induction xs generalizing us rounds with
  | nil => cases rounds <;> rfl
  | cons x xs ih =>
      cases rounds with
      | zero => simp at hn
      | succ rounds =>
          have hrest : walk next rounds xs.head? = some xs :=
            ih (us ++ [x]) (fun vs y ws h => hnext vs y ws (by simpa using h)) (by simpa using hn)
          simp [walk, hnext us x xs rfl, hrest]

/-- The loops from `rb_first` with `rb_next`, and from `rb_last` with `rb_prev`. -/
def forwards (fuel rounds : ℕ) (m : RbMemory A) : Option (List A) := do
  walk (m.rbNext fuel) rounds (← m.rbFirst fuel)

def backwards (fuel rounds : ℕ) (m : RbMemory A) : Option (List A) := do
  walk (m.rbPrev fuel) rounds (← m.rbLast fuel)

theorem forwards_eq {rounds : ℕ} (h : m.Holds t) (hf : t.height < fuel) (hn : t.size ≤ rounds) :
    m.forwards fuel rounds = some t.inorder := by
  rw [forwards, rbFirst_eq h hf]
  refine walk_eq [] (fun vs y ws heq => rbNext_eq h heq hf) ?_
  rwa [length_inorder]

theorem backwards_eq {rounds : ℕ} (h : m.Holds t) (hf : t.height < fuel) (hn : t.size ≤ rounds) :
    m.backwards fuel rounds = some t.inorder.reverse := by
  rw [backwards, rbLast_eq h hf, ← List.head?_reverse]
  refine walk_eq [] (fun vs y ws heq => ?_) ?_
  · have hsplit : t.inorder = ws.reverse ++ y :: vs.reverse := by
      simpa using congrArg List.reverse heq
    rw [rbPrev_eq h hsplit hf, List.getLast?_reverse]
  · rwa [List.length_reverse, length_inorder]

/-! ### Replacement -/

/-- `rb_replace_node` puts a node in the place of another. -/
theorem rbReplaceNode_holds {y : A} (h : m.Holds ((RbTree.node c l x r).plug p))
    (hy : y ∉ ((RbTree.node c l x r).plug p).inorder) :
    (m.rbReplaceNode x y).Holds ((RbTree.node c l y r).plug p) := by
  obtain ⟨hroot, ⟨hx, hl, hr⟩, hp, hnd⟩ := holds_plug_iff.1 h
  obtain ⟨htnd, hpnd, htp⟩ := nodup_plug_iff.1 hnd
  have hxp : x ∉ around p := htp x (by simp)
  obtain ⟨hxl, hxr⟩ := notMem_of_nodup_middle htnd
  simp only [inorder_node, List.nodup_append', List.nodup_cons, List.mem_append,
    List.mem_cons] at htnd htp
  obtain ⟨hlnd, ⟨-, hrnd⟩, hlr⟩ := htnd
  simp only [inorder_plug, inorder_node, List.mem_append, List.mem_cons, not_or] at hy
  have hyp : y ∉ around p := by simp [around, hy]
  have hlx : l.ptr ≠ some x := fun hlx => hxl (mem_of_ptr hlx)
  have hrx : r.ptr ≠ some x := fun hrx => hxr (mem_of_ptr hrx)
  have hpx : parentOf none p ≠ some x := fun hpx => hxp (mem_around_of_parentOf hpx)
  have hrl : ∀ a, r.ptr = some a → a ∉ l.inorder := fun a ha hal =>
    hlr hal (List.mem_cons_of_mem x (mem_of_ptr ha))
  have hlr' : ∀ a, l.ptr = some a → a ∉ r.inorder := fun a ha har =>
    hlr (mem_of_ptr ha) (List.mem_cons_of_mem x har)
  have hpl : ∀ a, parentOf none p = some a → a ∉ l.inorder := fun a ha hal =>
    htp a (.inl hal) (mem_around_of_parentOf ha)
  have hpr : ∀ a, parentOf none p = some a → a ∉ r.inorder := fun a ha har =>
    htp a (.inr (.inr har)) (mem_around_of_parentOf ha)
  have hx₁ := (relink_node_of_ne m hpx x (some y)).trans hx
  have hx₂ := (setParentOf_node_of_ne (m.relink (parentOf none p) x (some y)) hlx
    (some y)).trans hx₁
  have hx₃ := (setParentOf_node_of_ne _ hrx (some y)).trans hx₂
  have heq : m.rbReplaceNode x y =
      (((m.relink (parentOf none p) x (some y)).setParentOf l.ptr (some y)).setParentOf r.ptr
        (some y)).modify y fun _ => ⟨parentOf none p, c, r.ptr, l.ptr⟩ := by
    simp only [rbReplaceNode, hx, hx₁, hx₂, hx₃, modify]
  rw [heq]
  refine holds_plug_iff.2 ⟨?_, ⟨modify_node_self _ _ _, ?_, ?_⟩, ?_,
    nodup_plug_iff.2 ⟨?_, hpnd, ?_⟩⟩
  · rw [modify_rbNode, setParentOf_rbNode, setParentOf_rbNode]
    exact relink_rbNode (u := .node c l y r) hroot
  · rw [subtree_modify hy.1.2.1, subtree_setParentOf hrl]
    exact Subtree.setParentOf ((subtree_relink hpl x (some y)).2 hl) hlnd (some y)
  · rw [subtree_modify hy.1.2.2.2]
    refine Subtree.setParentOf (q := some x) ?_ hrnd (some y)
    rw [subtree_setParentOf hlr']
    exact (subtree_relink hpr x (some y)).2 hr
  · rw [context_modify hyp, context_setParentOf fun a ha => htp a (.inr (.inr (mem_of_ptr ha))),
      context_setParentOf fun a ha => htp a (.inl (mem_of_ptr ha))]
    exact Context.relink hp hxp hpnd
  · rw [inorder_node, List.nodup_append', List.nodup_cons]
    refine ⟨hlnd, ⟨hy.1.2.2.2, hrnd⟩, fun a hal har => ?_⟩
    rcases List.mem_cons.1 har with rfl | har
    · exact hy.1.2.1 hal
    · exact hlr hal (List.mem_cons_of_mem x har)
  · intro a ha
    rw [inorder_node, List.mem_append, List.mem_cons] at ha
    rcases ha with ha | rfl | ha
    · exact htp a (.inl ha)
    · exact hyp
    · exact htp a (.inr (.inr ha))

end RbMemory

end Miscellany
