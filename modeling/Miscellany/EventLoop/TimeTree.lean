import Miscellany.EventLoop.AddDelete
import Miscellany.EventLoop.RbWalk

/-!
# The time tree in memory

The event base only changes its time tree by the descent of `event_add_timeout`
with the insertion after it, and by `rb_erase`. `TreeOp` lists these changes,
with `rb_replace_node`. A run of allowed changes keeps a red-black tree, and the
functions of `rbtree.c` carry it out on any memory that holds the tree, without a
fault and with loops of at most `2 log₂ (n + 1) + 1` rounds (`runMemory_holds`).

The changes that a base makes are recorded beside its functions: `treeOps` follows
the branches that a run takes and lists each call of `event_add_timeout` that gets
as far as the tree and each call of `rb_erase`. They are a run of allowed changes
(`TimeRun`). So the time tree of a reachable base is a red-black tree, and the
pointers of the source hold it when the same calls are made in memory.
-/

namespace Miscellany

open RbColor
open WbaEvtbase (timeoutLink)

/-! ### The descent of `event_add_timeout` -/

namespace RbMemory

open RbTree

variable {m : RbMemory EvtId} {t : RbTree EvtId} {p : RbPath EvtId} {e : EvtId} {fuel : ℕ}

/-- The loop of `event_add_timeout`, which starts below `parent`, on its left or on its right, at
the node that `link` leads to. -/
def linkLoop (less : EvtId → Bool) :
    ℕ → RbMemory EvtId → Option EvtId → Bool → Option EvtId → Option (Option EvtId × Bool)
  | 0, _, _, _, _ => none
  | _ + 1, _, parent, left, none => some (parent, left)
  | fuel + 1, m, _, _, some a =>
      if less a then linkLoop less fuel m (some a) true (m.node a).rbLeft
      else linkLoop less fuel m (some a) false (m.node a).rbRight

/-- The part of `event_add_timeout` that changes the tree. -/
def addTimeout (fuel : ℕ) (less : EvtId → Bool) (m : RbMemory EvtId) (e : EvtId) :
    Option (RbMemory EvtId) := do
  let (parent, left) ← linkLoop less fuel m none false m.rbNode
  rbInsertColor fuel (m.rbLinkNode e parent left) e

theorem linkLoop_eq (less : EvtId → Bool) (h : m.Holds (t.plug p)) (hf : t.height < fuel) :
    linkLoop less fuel m (parentOf none p) (hangsLeft p) t.ptr =
      some (parentOf none (timeoutLink less t p), hangsLeft (timeoutLink less t p)) := by
  induction t generalizing p fuel with
  | nil =>
      obtain ⟨fuel, rfl⟩ := Nat.exists_eq_add_of_lt hf
      simp [linkLoop, timeoutLink]
  | node c l x r ihl ihr =>
      obtain ⟨fuel, rfl⟩ := Nat.exists_eq_add_of_lt hf
      rw [ptr_node, linkLoop, timeoutLink, h.node]
      split_ifs with hless
      · refine ihl (p := .left c x r :: p) h ?_
        simp only [height]
        omega
      · refine ihr (p := .right c l x :: p) h ?_
        simp only [height]
        omega

end RbMemory

theorem RbTree.nil_plug_timeoutLink (less : EvtId → Bool) (t : RbTree EvtId)
    (p : RbPath EvtId) : (RbTree.nil).plug (timeoutLink less t p) = t.plug p := by
  induction t generalizing p with
  | nil => rfl
  | node c l x r ihl ihr =>
      rw [timeoutLink]
      split_ifs
      · exact ihl _
      · exact ihr _

/-! ### Changes of a tree -/

/-- A call that changes a tree: `event_add_timeout` with the comparisons it makes, `rb_erase` or
`rb_replace_node`. -/
inductive TreeOp where
  | add (less : EvtId → Bool) (e : EvtId)
  | erase (e : EvtId)
  | replace (victim new : EvtId)

namespace TreeOp

variable {t : RbTree EvtId} {m : RbMemory EvtId} {fuel : ℕ} {ops : List TreeOp}

def onTree (t : RbTree EvtId) : TreeOp → RbTree EvtId
  | add less e => RbTree.rbInsertColor (.node red .nil e .nil) (timeoutLink less t [])
  | erase e => t.rbErase e
  | replace victim new =>
      match RbTree.locate victim t [] with
      | none => t
      | some (c, l, r, p) => (RbTree.node c l new r).plug p

def onMemory (fuel : ℕ) (m : RbMemory EvtId) : TreeOp → Option (RbMemory EvtId)
  | add less e => m.addTimeout fuel less e
  | erase e => m.rbErase fuel e
  | replace victim new => some (m.rbReplaceNode victim new)

/-- What the callers of `rbtree.c` see to: only new nodes are added, and only nodes of the tree are
erased or replaced. -/
def Allowed (t : RbTree EvtId) : TreeOp → Prop
  | add _ e => e ∉ t.inorder
  | erase e => e ∈ t.inorder
  | replace victim new => victim ∈ t.inorder ∧ new ∉ t.inorder

instance (t : RbTree EvtId) : DecidablePred (Allowed t)
  | add _ e => inferInstanceAs (Decidable (e ∉ t.inorder))
  | erase e => inferInstanceAs (Decidable (e ∈ t.inorder))
  | replace victim new => inferInstanceAs (Decidable (victim ∈ t.inorder ∧ new ∉ t.inorder))

/-- What a change does to the sequence of the nodes. If the comparisons of an insertion agree with
the order of the nodes, the new node is behind those that it is not less than. -/
def Effect (xs ys : List EvtId) : TreeOp → Prop
  | add less e => ∃ us vs, xs = us ++ vs ∧ ys = us ++ e :: vs ∧
      ((xs.Pairwise fun a b => less a = true → less b = true) →
        us = xs.filter (fun a => !less a) ∧ vs = xs.filter less)
  | erase e => ys = xs.erase e
  | replace victim new => ∃ us vs, xs = us ++ victim :: vs ∧ ys = us ++ new :: vs

/-- The tree, or the memory, after a list of changes. -/
def runTree (t : RbTree EvtId) (ops : List TreeOp) : RbTree EvtId := ops.foldl onTree t

def runMemory (fuel : ℕ) (m : RbMemory EvtId) (ops : List TreeOp) : Option (RbMemory EvtId) :=
  ops.foldlM (onMemory fuel) m

/-- Every change is allowed in the tree it is made in. -/
def AllowedRun : RbTree EvtId → List TreeOp → Prop
  | _, [] => True
  | t, op :: ops => op.Allowed t ∧ AllowedRun (op.onTree t) ops

instance decidableAllowedRun : ∀ (t : RbTree EvtId) (ops : List TreeOp),
    Decidable (AllowedRun t ops)
  | _, [] => isTrue trivial
  | t, op :: ops =>
      have := decidableAllowedRun (op.onTree t) ops
      inferInstanceAs (Decidable (op.Allowed t ∧ AllowedRun (op.onTree t) ops))

theorem fits_timeoutLink (less : EvtId → Bool) (h : t.IsRedBlack) :
    RbTree.Fits (timeoutLink less t []) black 0 := by
  have hplug : ((RbTree.nil).plug (timeoutLink less t [])).IsRedBlack := by
    rw [RbTree.nil_plug_timeoutLink]
    exact h
  obtain ⟨c, n, hnil, hp⟩ := hplug.fits
  cases hnil
  exact hp

/-- Every allowed change keeps a red-black tree. -/
theorem isRedBlack_onTree (h : t.IsRedBlack) (op : TreeOp) : (op.onTree t).IsRedBlack := by
  cases op with
  | add less e =>
      exact RbTree.isRedBlack_rbInsertColor (.redNode .leaf .leaf) (fits_timeoutLink less h)
  | erase e => exact h.rbErase e
  | replace victim new =>
      rw [onTree]
      cases hloc : RbTree.locate victim t [] with
      | none => exact h
      | some found =>
          obtain ⟨c, l, r, p⟩ := found
          have hplug : ((RbTree.node c l victim r).plug p).IsRedBlack := by
            rw [RbTree.plug_of_locate hloc]
            exact h
          obtain ⟨d, n, hb, hfit⟩ := hplug.fits
          cases hb with
          | redNode hl hr => exact RbTree.Balanced.plug (.redNode hl hr) hfit
          | blackNode hl hr => exact RbTree.Balanced.plug (.blackNode hl hr) hfit

theorem isRedBlack_runTree (h : t.IsRedBlack) (ops : List TreeOp) :
    (runTree t ops).IsRedBlack := by
  induction ops generalizing t with
  | nil => exact h
  | cons op ops ih => exact ih (isRedBlack_onTree h op)

theorem effect_onTree {op : TreeOp} (h : op.Allowed t) (hnd : t.inorder.Nodup) :
    op.Effect t.inorder (op.onTree t).inorder := by
  cases op with
  | add less e =>
      have hplug := congrArg RbTree.inorder (RbTree.nil_plug_timeoutLink less t [])
      rw [RbTree.inorder_plug, RbTree.inorder_nil, List.append_nil] at hplug
      refine ⟨RbTree.before (timeoutLink less t []), RbTree.after (timeoutLink less t []),
        hplug.symm, ?_, fun hmono => ?_⟩
      · simp [onTree, RbTree.inorder_rbInsertColor]
      · obtain ⟨hbefore, hafter⟩ := WbaEvtbase.timeoutLink_spec less t [] hmono
        simpa [RbTree.before, RbTree.after] using And.intro hbefore hafter
  | erase e => exact RbTree.inorder_rbErase h hnd
  | replace victim new =>
      obtain ⟨c, l, r, p, hloc⟩ := RbTree.locate_isSome [] h.1
      refine ⟨RbTree.before p ++ l.inorder, r.inorder ++ RbTree.after p,
        RbTree.inorder_of_locate hloc, ?_⟩
      simp [onTree, hloc, RbTree.inorder_plug]

/-- The functions of `rbtree.c` carry an allowed change out. -/
theorem onMemory_holds {op : TreeOp} (h : m.Holds t) (hrb : t.IsRedBlack) (hop : op.Allowed t)
    (hf : t.height < fuel) : ∃ m', op.onMemory fuel m = some m' ∧ m'.Holds (op.onTree t) := by
  cases op with
  | add less e =>
      have hlink := RbMemory.linkLoop_eq (p := []) less h hf
      have hplug := RbTree.nil_plug_timeoutLink less t []
      rw [RbTree.plug] at hplug
      have hlen := RbTree.length_add_height_le .nil (timeoutLink less t [])
      rw [hplug] at hlen
      have h' : (m.rbLinkNode e (RbTree.parentOf none (timeoutLink less t []))
          (RbTree.hangsLeft (timeoutLink less t []))).Holds
            ((RbTree.node red .nil e .nil).plug (timeoutLink less t [])) := by
        refine RbMemory.rbLinkNode_holds ?_ ?_
        · rw [hplug]
          exact h
        · rw [hplug]
          exact hop
      have hlt : (timeoutLink less t []).length < fuel := by omega
      obtain ⟨m', hm', hins⟩ :=
        RbMemory.rbInsertColor_holds h' rfl (fits_timeoutLink less hrb) hlt
      refine ⟨m', ?_, hins⟩
      rw [RbTree.parentOf_nil, RbTree.hangsLeft_nil, ← h.root] at hlink
      simpa [onMemory, RbMemory.addTimeout, hlink] using hm'
  | erase e => exact RbMemory.rbErase_holds h hrb hop hf
  | replace victim new =>
      obtain ⟨c, l, r, p, hloc⟩ := RbTree.locate_isSome [] hop.1
      obtain rfl : (RbTree.node c l victim r).plug p = t := RbTree.plug_of_locate hloc
      refine ⟨_, rfl, ?_⟩
      rw [onTree, hloc]
      exact RbMemory.rbReplaceNode_holds h hop.2

theorem nodup_onTree {op : TreeOp} (h : op.Allowed t) (hnd : t.inorder.Nodup) :
    (op.onTree t).inorder.Nodup := by
  have heffect := effect_onTree h hnd
  cases op with
  | add less e =>
      obtain ⟨us, vs, hxs, hys, -⟩ := heffect
      have hfresh : e ∉ us ++ vs := hxs ▸ h
      rw [hys, List.nodup_middle, List.nodup_cons]
      exact ⟨hfresh, hxs ▸ hnd⟩
  | erase e =>
      rw [show (onTree t (.erase e)).inorder = _ from heffect]
      exact hnd.erase e
  | replace victim new =>
      obtain ⟨us, vs, hxs, hys⟩ := heffect
      have hfresh : new ∉ us ++ victim :: vs := hxs ▸ h.2
      rw [hxs, List.nodup_middle, List.nodup_cons] at hnd
      rw [hys, List.nodup_middle, List.nodup_cons]
      simp only [List.mem_append, List.mem_cons, not_or] at hfresh
      exact ⟨by simp [hfresh], hnd.2⟩

theorem size_onTree_le {op : TreeOp} (h : op.Allowed t) (hnd : t.inorder.Nodup) :
    (op.onTree t).size ≤ t.size + 1 := by
  have heffect := effect_onTree h hnd
  rw [← RbTree.length_inorder, ← RbTree.length_inorder]
  cases op with
  | add less e =>
      obtain ⟨us, vs, hxs, hys, -⟩ := heffect
      rw [hxs, hys]
      simp only [List.length_append, List.length_cons]
      omega
  | erase e =>
      rw [show (onTree t (.erase e)).inorder = _ from heffect]
      exact (List.erase_sublist.length_le).trans (Nat.le_succ _)
  | replace victim new =>
      obtain ⟨us, vs, hxs, hys⟩ := heffect
      rw [hxs, hys]
      simp

theorem size_runTree_le (h : AllowedRun t ops) (hnd : t.inorder.Nodup) (k : ℕ) :
    (runTree t (ops.take k)).size ≤ t.size + ops.length := by
  induction ops generalizing t k with
  | nil => simp [runTree]
  | cons op ops ih =>
      obtain ⟨hop, hrest⟩ := h
      cases k with
      | zero => simp [runTree]
      | succ k =>
          have hsize := size_onTree_le hop hnd
          have hrun := ih hrest (nodup_onTree hop hnd) k
          simp only [runTree, List.take_succ_cons, List.foldl_cons, List.length_cons] at hrun ⊢
          omega

/-- A run of allowed changes on a memory that holds a red-black tree, which never has more than
`n` nodes: the functions of `rbtree.c` never fault, and their loops take at most one round more
than such a tree has levels. -/
theorem runMemory_holds {n : ℕ} (h : m.Holds t) (hrb : t.IsRedBlack) (hrun : AllowedRun t ops)
    (hn : ∀ k, (runTree t (ops.take k)).size ≤ n) (hf : 2 * Nat.log 2 (n + 1) < fuel) :
    ∃ m', runMemory fuel m ops = some m' ∧ m'.Holds (runTree t ops) ∧
      (runTree t ops).IsRedBlack := by
  induction ops generalizing m t with
  | nil => exact ⟨m, rfl, h, hrb⟩
  | cons op ops ih =>
      obtain ⟨hop, hrest⟩ := hrun
      have hheight := hrb.height_le
      have hlog : Nat.log 2 (t.size + 1) ≤ Nat.log 2 (n + 1) :=
        Nat.log_mono_right (Nat.succ_le_succ (hn 0))
      obtain ⟨m₁, hm₁, h₁⟩ := onMemory_holds h hrb hop (by omega : t.height < fuel)
      obtain ⟨m', hm', h', hrb'⟩ := ih h₁ (isRedBlack_onTree hrb op) hrest fun k => hn (k + 1)
      refine ⟨m', ?_, h', hrb'⟩
      simpa [runMemory, hm₁] using hm'

/-- The sequences of nodes that a list of changes can lead to. -/
def EffectRun : List EvtId → List TreeOp → List EvtId → Prop
  | xs, [], ys => ys = xs
  | xs, op :: ops, ys => ∃ zs, op.Effect xs zs ∧ EffectRun zs ops ys

theorem effectRun_runTree (h : AllowedRun t ops) (hnd : t.inorder.Nodup) :
    EffectRun t.inorder ops (runTree t ops).inorder := by
  induction ops generalizing t with
  | nil => rfl
  | cons op ops ih =>
      obtain ⟨hop, hrest⟩ := h
      exact ⟨_, effect_onTree hop hnd, ih hrest (nodup_onTree hop hnd)⟩

/-- The tree that the pointers hold is the sequence of nodes that its callers asked for, in both
directions: from the empty root on, any allowed changes end without a fault, and then `rb_first`
with `rb_next` visits this sequence and `rb_last` with `rb_prev` its reverse. -/
theorem runMemory_walks {n : ℕ} (hm : m.rbNode = none) (hrun : AllowedRun .nil ops)
    (hn : ∀ k, (runTree .nil (ops.take k)).size ≤ n) (hf : 2 * Nat.log 2 (n + 1) < fuel) :
    ∃ m' xs, runMemory fuel m ops = some m' ∧ EffectRun [] ops xs ∧ xs.length ≤ n ∧
      m'.forwards fuel n = some xs ∧ m'.backwards fuel n = some xs.reverse := by
  have hempty : m.Holds .nil := ⟨hm, trivial, List.nodup_nil⟩
  obtain ⟨m', hm', h', hrb⟩ := runMemory_holds hempty RbTree.isRedBlack_nil hrun hn hf
  have hsize : (runTree .nil ops).size ≤ n := by simpa using hn ops.length
  have hheight := hrb.height_le
  have hlog : Nat.log 2 ((runTree .nil ops).size + 1) ≤ Nat.log 2 (n + 1) :=
    Nat.log_mono_right (Nat.succ_le_succ hsize)
  have hlt : (runTree .nil ops).height < fuel := by omega
  exact ⟨m', _, hm', effectRun_runTree hrun List.nodup_nil, by rwa [RbTree.length_inorder],
    RbMemory.forwards_eq h' hlt hsize, RbMemory.backwards_eq h' hlt hsize⟩

/-- Three insertions by value, a replacement and an erasure. -/
theorem runMemory_walks_five : ∃ m' xs,
    runMemory 5 ⟨fun _ => ⟨none, red, none, none⟩, none⟩
        [.add (fun d => 4 < d) 4, .add (fun d => 2 < d) 2, .add (fun d => 9 < d) 9, .replace 4 5,
          .erase 2] = some m' ∧
      EffectRun []
        [.add (fun d => 4 < d) 4, .add (fun d => 2 < d) 2, .add (fun d => 9 < d) 9, .replace 4 5,
          .erase 2] xs ∧ xs.length ≤ 5 ∧
      m'.forwards 5 5 = some xs ∧ m'.backwards 5 5 = some xs.reverse := by
  have hrun : AllowedRun .nil [.add (fun d => 4 < d) 4, .add (fun d => 2 < d) 2,
      .add (fun d => 9 < d) 9, .replace 4 5, .erase 2] := by decide
  have hsize := size_runTree_le hrun List.nodup_nil
  exact runMemory_walks rfl hrun hsize (by decide)

end TreeOp

/-! ### The calls of a base

Each function takes the branches of the one that it is named after, and lists the calls that are
made there. -/

namespace WbaEvtbase

variable {κ : Type*} (K : Kernel κ)

def addTimeoutOps (s : WbaEvtbase κ) (e : EvtId) : List TreeOp :=
  if s.hasFlag e wbaEvtlistTimeout then [] else [.add (s.timeLess e) e]

def removeTimeoutOps (s : WbaEvtbase κ) (e : EvtId) : List TreeOp :=
  if s.hasFlag e wbaEvtlistTimeout then [.erase e] else []

def eventAddOps (s : WbaEvtbase κ) (e : EvtId) (tv : Option Timeval) (tvIsAbsolute : Bool) :
    List TreeOp :=
  if e ∉ s.heap then []
  else if s.hasFlag e wbaEvtlistReg && tv.isNone then []
  else
    let r := s.eventAddReg K e
    match tv with
    | some tv =>
        if r.1 ≠ -1 then
          r.2.removeTimeoutOps e ++
            ((r.2.eventRemoveTimeout e).eventSetTimeout K e tv tvIsAbsolute).addTimeoutOps e
        else []
    | none => []

def wbaEventAddOps (s : WbaEvtbase κ) (e : EvtId) (tv : Option Timeval) : List TreeOp :=
  match tv with
  | some t => if t.tvSec < 0 ∨ t.tvUsec < 0 then [] else s.eventAddOps K e tv false
  | none => s.eventAddOps K e tv false

def eventDelOps (s : WbaEvtbase κ) (e : EvtId) : List TreeOp :=
  if e ∉ s.heap then []
  else if !s.hasFlag e (wbaEvtlistReg ||| wbaEvtlistActive) then []
  else s.removeTimeoutOps e

def callOps (s : WbaEvtbase κ) : Call → List TreeOp
  | .new _ _ _ _ _ => []
  | .add e tv => s.wbaEventAddOps K e tv
  | .del e => s.eventDelOps e
  | .free e => s.eventDelOps e

def callsOps (s : WbaEvtbase κ) : List Call → List TreeOp
  | [] => []
  | c :: calls => s.callOps K c ++ callsOps (s.runCall K c) calls

def processTimeoutLoopOps (now : Timeval) : ℕ → Option EvtId → WbaEvtbase κ → List TreeOp
  | _, none, _ => []
  | 0, some _, _ => []
  | fuel + 1, some p, s =>
      if eventTimecmp (s.evt p).evtTimeout now > 0 then []
      else
        s.eventDelOps p ++ processTimeoutLoopOps now fuel (s.evtTimeRoot.rbNext p)
          ((s.eventDel K p).2.eventAddActive p wbaEvtTimeout)

def processTimeoutOps (s : WbaEvtbase κ) : List TreeOp :=
  let r := s.eventTimeget K
  match r.1 with
  | none => []
  | some now => processTimeoutLoopOps K now r.2.evtTimeRoot.size r.2.evtTimeRoot.rbFirst r.2

def rescheduleOps (s : WbaEvtbase κ) (e : EvtId) : List TreeOp :=
  if (s.evt e).timeout.tvSec ≠ 0 ∨ (s.evt e).timeout.tvUsec ≠ 0 then
    let r := s.eventTimegetNow K
    r.2.eventAddOps K e (some (nextDeadline (r.2.evt e) r.1)) true
  else []

def processActiveBodyOps (s : WbaEvtbase κ) (e : EvtId) : List TreeOp :=
  if s.hasEvent e wbaEvtPersist then (s.eventRemoveActive e).rescheduleOps K e
  else s.eventDelOps e

/-- The calls of a step of the base. -/
def stepOps (s : WbaEvtbase κ) : Op → List TreeOp
  | .call c => s.callOps K c
  | .wait => []
  | .mapActive _ _ => []
  | .processTimeout => s.processTimeoutOps K
  | .processActive e calls =>
      if e ∈ s.heap then
        s.processActiveBodyOps K e ++ (s.eventProcessActiveBody K e).callsOps K calls
      else []

/-- The calls of a run of the base, up to a step that does not end. -/
def treeOps (s : WbaEvtbase κ) : List Op → List TreeOp
  | [] => []
  | op :: ops =>
      match s.runOp K op with
      | none => []
      | some t => s.stepOps K op ++ treeOps t ops

end WbaEvtbase

/-! ### The time tree of a base -/

/-- The changes are allowed and lead from one tree to another. -/
structure TimeRun (t : RbTree EvtId) (ops : List TreeOp) (u : RbTree EvtId) : Prop where
  allowed : TreeOp.AllowedRun t ops
  eq : TreeOp.runTree t ops = u

theorem TreeOp.AllowedRun.append {t : RbTree EvtId} {ops ops' : List TreeOp}
    (h : AllowedRun t ops) (h' : AllowedRun (runTree t ops) ops') :
    AllowedRun t (ops ++ ops') := by
  induction ops generalizing t with
  | nil => exact h'
  | cons op ops ih => exact ⟨h.1, ih h.2 h'⟩

theorem TimeRun.refl (t : RbTree EvtId) : TimeRun t [] t := ⟨trivial, rfl⟩

theorem TimeRun.of_eq {t u : RbTree EvtId} (h : u = t) : TimeRun t [] u := h ▸ TimeRun.refl t

theorem TimeRun.trans {t u v : RbTree EvtId} {ops ops' : List TreeOp} (h : TimeRun t ops u)
    (h' : TimeRun u ops' v) : TimeRun t (ops ++ ops') v := by
  obtain ⟨hops, rfl⟩ := h
  obtain ⟨hops', rfl⟩ := h'
  exact ⟨hops.append hops', List.foldl_append⟩

theorem TimeRun.single {t : RbTree EvtId} {op : TreeOp} (h : op.Allowed t) :
    TimeRun t [op] (op.onTree t) := ⟨⟨h, trivial⟩, rfl⟩

namespace WbaEvtbase

variable {κ : Type*} (K : Kernel κ) {s t : WbaEvtbase κ} {active : List EvtId}
  {slot : ℕ → List EvtId} {e : EvtId}

theorem WellFormed.timeRun_eventRemoveTimeout (h : WellFormed s active slot) (he : e ∈ s.heap) :
    TimeRun s.evtTimeRoot (s.removeTimeoutOps e) (s.eventRemoveTimeout e).evtTimeRoot := by
  unfold removeTimeoutOps WbaEvtbase.eventRemoveTimeout
  split_ifs with hflag
  · have hop : (TreeOp.erase e).Allowed s.evtTimeRoot := (h.timer.mem e).2 ⟨he, hflag⟩
    exact TimeRun.single hop
  · exact TimeRun.refl _

theorem WellFormed.timeRun_eventAddTimeout (h : WellFormed s active slot) :
    TimeRun s.evtTimeRoot (s.addTimeoutOps e) (s.eventAddTimeout e).evtTimeRoot := by
  unfold addTimeoutOps WbaEvtbase.eventAddTimeout
  split_ifs with hflag
  · exact TimeRun.refl _
  · have hop : (TreeOp.add (s.timeLess e) e).Allowed s.evtTimeRoot :=
      fun hmem => hflag ((h.timer.mem e).1 hmem).2
    exact TimeRun.single hop

theorem Consistent.timeRun_eventAdd (h : Consistent s active) (e : EvtId) (tv : Option Timeval)
    (abs : Bool) :
    TimeRun s.evtTimeRoot (s.eventAddOps K e tv abs) (s.eventAdd K e tv abs).2.evtTimeRoot := by
  obtain ⟨slot, hwf⟩ := h
  unfold eventAddOps WbaEvtbase.eventAdd
  by_cases he : e ∈ s.heap
  · rw [if_neg (not_not.2 he), if_neg (not_not.2 he)]
    split_ifs
    · exact TimeRun.refl _
    · cases tv with
      | none => exact TimeRun.of_eq (eventAddReg_evtTimeRoot s e)
      | some tv =>
          simp only [eventRemoveTimeout_guard]
          by_cases hres : (s.eventAddReg K e).1 ≠ -1
          · rw [if_pos hres, if_pos hres]
            have he' : e ∈ (s.eventAddReg K e).2.heap := by
              rw [eventAddReg_heap]
              exact he
            have hadd := hwf.eventAddReg K he
            have hremove := hadd.timeRun_eventRemoveTimeout he'
            have hset := (hadd.eventRemoveTimeout he').eventSetTimeout K
              (hasFlag_eventRemoveTimeout _ e) tv abs
            rw [eventAddReg_evtTimeRoot] at hremove
            refine hremove.trans ?_
            rw [← eventSetTimeout_evtTimeRoot _ e tv abs]
            exact hset.timeRun_eventAddTimeout
          · rw [if_neg hres, if_neg hres]
            exact TimeRun.of_eq (eventAddReg_evtTimeRoot s e)
  · rw [if_pos he, if_pos he]
    exact TimeRun.refl _

theorem Consistent.timeRun_eventDel (h : Consistent s active) (e : EvtId) :
    TimeRun s.evtTimeRoot (s.eventDelOps e) (s.eventDel K e).2.evtTimeRoot := by
  obtain ⟨slot, hwf⟩ := h
  unfold eventDelOps WbaEvtbase.eventDel
  by_cases he : e ∈ s.heap
  · rw [if_neg (not_not.2 he), if_neg (not_not.2 he)]
    simp only [eventRemoveTimeout_guard, eventRemoveActive_guard]
    by_cases hany : (!s.hasFlag e (wbaEvtlistReg ||| wbaEvtlistActive)) = true
    · rw [if_pos hany, if_pos hany]
      exact TimeRun.refl _
    · rw [if_neg hany, if_neg hany, eventDelReg_evtTimeRoot, eventRemoveActive_evtTimeRoot]
      exact hwf.timeRun_eventRemoveTimeout he
  · rw [if_pos he, if_pos he]
    exact TimeRun.refl _

theorem Consistent.timeRun_runCall (h : Consistent s active) (c : Call) :
    TimeRun s.evtTimeRoot (s.callOps K c) (s.runCall K c).evtTimeRoot := by
  cases c with
  | new malloc fd events fn arg =>
      rcases wbaEventNew_cases s malloc fd events fn arg with heq | ⟨e, f, -, heq⟩
      · exact TimeRun.of_eq (by rw [WbaEvtbase.runCall, heq])
      · exact TimeRun.of_eq (by rw [WbaEvtbase.runCall, heq]; rfl)
  | add e tv =>
      rw [WbaEvtbase.runCall, callOps]
      cases tv with
      | none => exact h.timeRun_eventAdd K e none false
      | some tv =>
          rw [WbaEvtbase.wbaEventAdd, wbaEventAddOps]
          split_ifs
          · exact TimeRun.refl _
          · exact h.timeRun_eventAdd K e (some tv) false
  | del e => exact h.timeRun_eventDel K e
  | free e => exact h.timeRun_eventDel K e

theorem Consistent.timeRun_runCalls (h : Consistent s active) (calls : List Call) :
    TimeRun s.evtTimeRoot (s.callsOps K calls) (s.runCalls K calls).evtTimeRoot := by
  induction calls generalizing s active with
  | nil => exact TimeRun.refl _
  | cons c calls ih => exact (h.timeRun_runCall K c).trans (ih (h.runCall K c))

theorem timeRun_eventProcessTimeoutLoop (h : WellFormed s active slot) (now : Timeval)
    (fuel : ℕ) {node : Option EvtId} (hnode : ∀ p ∈ node, p ∈ s.evtTimeRoot.inorder) (cnt : ℤ) :
    TimeRun s.evtTimeRoot (processTimeoutLoopOps K now fuel node s)
      (eventProcessTimeoutLoop K now fuel node cnt s).2.evtTimeRoot := by
  induction fuel generalizing s active slot node cnt with
  | zero => cases node <;> exact TimeRun.refl _
  | succ fuel ih =>
      cases node with
      | none => exact TimeRun.refl _
      | some p =>
          rw [eventProcessTimeoutLoop, processTimeoutLoopOps]
          simp only
          split_ifs
          · exact TimeRun.refl _
          · have hp := hnode p rfl
            have he : p ∈ s.heap := ((h.timer.mem p).1 hp).1
            have hdel := Consistent.timeRun_eventDel K ⟨slot, h⟩ p
            have hactive := (activeOnly_eventAddActive (s.eventDel K p).2 p
              wbaEvtTimeout).evtTimeRoot
            rw [← hactive] at hdel
            refine hdel.trans (ih (h.expire K he) (fun q hq => ?_) (cnt + 1))
            rw [h.inorder_expire K he]
            obtain ⟨us, vs, hsplit⟩ := List.append_of_mem hp
            rw [RbTree.rbNext_eq hsplit h.timer.nodup] at hq
            have hnd := h.timer.nodup
            rw [hsplit] at hnd
            rw [hsplit, List.erase_append_right _ (RbTree.notMem_of_nodup_middle hnd).1,
              List.erase_cons_head]
            exact List.mem_append_right us (List.mem_of_head? hq)

theorem Consistent.timeRun_eventProcessTimeout (h : Consistent s active) :
    TimeRun s.evtTimeRoot (s.processTimeoutOps K) (s.eventProcessTimeout K).2.evtTimeRoot := by
  obtain ⟨slot, hwf⟩ := h
  have hk := hwf.setKernel (K.clockGettime s.kernel).2
  unfold processTimeoutOps WbaEvtbase.eventProcessTimeout
  simp only
  cases (s.eventTimeget K).1 with
  | none => exact TimeRun.refl _
  | some now =>
      refine timeRun_eventProcessTimeoutLoop K hk _ _ (fun p hp => ?_) 0
      rw [RbTree.rbFirst_eq] at hp
      exact List.mem_of_head? hp

theorem Consistent.timeRun_eventProcessActiveBody (h : Consistent s active) (he : e ∈ s.heap) :
    TimeRun s.evtTimeRoot (s.processActiveBodyOps K e)
      (s.eventProcessActiveBody K e).evtTimeRoot := by
  have hremove := h.eventRemoveActive he
  have hroot := eventRemoveActive_evtTimeRoot s e
  unfold processActiveBodyOps rescheduleOps WbaEvtbase.eventProcessActiveBody eventReschedule
  split_ifs
  · have hk := hremove.setKernel ((s.eventRemoveActive e).eventTimegetNow K).2.kernel
    exact hroot ▸ hk.timeRun_eventAdd K e _ true
  · exact TimeRun.of_eq hroot
  · exact h.timeRun_eventDel K e

/-- Every step of a base changes the time tree by the calls that are recorded for it. -/
theorem Consistent.timeRun_runOp (h : Consistent s active) {op : Op}
    (hop : s.runOp K op = some t) : TimeRun s.evtTimeRoot (s.stepOps K op) t.evtTimeRoot := by
  cases op with
  | call c =>
      cases hop
      exact h.timeRun_runCall K c
  | wait =>
      cases hop
      obtain ⟨k, hk⟩ := eventWait_eq K s
      exact TimeRun.of_eq (by rw [hk])
  | mapActive fd events =>
      obtain ⟨slot, hwf⟩ := h
      obtain ⟨t', fresh, heq, -, honly, -⟩ := hwf.eventMapActive fd events
      obtain rfl : t' = t := Option.some.inj (heq.symm.trans hop)
      exact TimeRun.of_eq honly.evtTimeRoot
  | processTimeout =>
      cases hop
      exact h.timeRun_eventProcessTimeout K
  | processActive e calls =>
      rw [WbaEvtbase.runOp] at hop
      rw [stepOps]
      split_ifs at hop ⊢ with he
      · cases hop
        exact (h.timeRun_eventProcessActiveBody K he).trans
          ((h.eventProcessActiveBody K he).timeRun_runCalls K calls)
      · cases hop
        exact TimeRun.refl _

/-- And so does every run. -/
theorem Consistent.timeRun_run (h : Consistent s active) {ops : List Op}
    (hrun : s.run K ops = some t) : TimeRun s.evtTimeRoot (s.treeOps K ops) t.evtTimeRoot := by
  induction ops generalizing s active with
  | nil =>
      cases hrun
      exact TimeRun.refl _
  | cons op ops ih =>
      rw [WbaEvtbase.run, List.foldlM_cons] at hrun
      obtain ⟨u, hu, hrest⟩ := Option.bind_eq_some_iff.1 hrun
      obtain ⟨u', active', heq, hcons⟩ := h.runOp K op
      obtain rfl : u' = u := Option.some.inj (heq.symm.trans hu)
      rw [treeOps, hu]
      exact (h.timeRun_runOp K hu).trans (ih hcons hrest)

theorem evtTimeRoot_new {k : κ} {epfd : ℤ} {mallocBase mallocEvents mallocList : Bool}
    (hnew : wbaEvtbaseNew k epfd mallocBase mallocEvents mallocList = some s) :
    s.evtTimeRoot = .nil := by
  unfold wbaEvtbaseNew at hnew
  split_ifs at hnew
  cases hnew
  rfl

theorem Reachable.isRedBlack_evtTimeRoot {k : κ} (h : Reachable K k s) :
    s.evtTimeRoot.IsRedBlack := by
  induction h with
  | new hnew =>
      rw [evtTimeRoot_new hnew]
      exact RbTree.isRedBlack_nil
  | step h op hop ih =>
      obtain ⟨active, hcons⟩ := h.consistent
      rw [← (hcons.timeRun_runOp K hop).eq]
      exact TreeOp.isRedBlack_runTree ih _

/-- The time tree of a base is balanced at any time: neither the tree nor the descent of
`event_add_timeout` is longer than `2 log₂ (n + 1)` for `n` pending timers. -/
theorem Reachable.height_evtTimeRoot_le {k : κ} (h : Reachable K k s) :
    s.evtTimeRoot.IsRedBlack ∧
      s.evtTimeRoot.height ≤ 2 * Nat.log 2 (s.evtTimeRoot.inorder.length + 1) ∧
      ∀ e, (timeoutLink (s.timeLess e) s.evtTimeRoot []).length ≤
        2 * Nat.log 2 (s.evtTimeRoot.inorder.length + 1) := by
  have hrb := h.isRedBlack_evtTimeRoot
  have hheight := hrb.height_le
  rw [← RbTree.length_inorder] at hheight
  refine ⟨hrb, hheight, fun e => ?_⟩
  have hlen := RbTree.length_add_height_le .nil (timeoutLink (s.timeLess e) s.evtTimeRoot [])
  rw [RbTree.nil_plug_timeoutLink, RbTree.plug] at hlen
  omega

/-- Three timers, of which one is deleted. -/
def threeCalls : List Call :=
  [.new (some 0) (-1) wbaEvtPersist (some 1) .null, .new (some 1) 7 wbaEvtRead (some 1) .null,
    .new (some 2) (-1) wbaEvtPersist (some 1) .null, .add 0 (some ⟨3, 0⟩), .add 1 (some ⟨1, 0⟩),
    .add 2 (some ⟨2, 0⟩), .del 1]

def threeTimers : WbaEvtbase SimState := (newBase { tick := 5 }).runCalls simKernel threeCalls

theorem height_evtTimeRoot_threeTimers :
    threeTimers.evtTimeRoot.IsRedBlack ∧
      threeTimers.evtTimeRoot.height ≤
        2 * Nat.log 2 (threeTimers.evtTimeRoot.inorder.length + 1) ∧
      ∀ e, (timeoutLink (threeTimers.timeLess e) threeTimers.evtTimeRoot []).length ≤
        2 * Nat.log 2 (threeTimers.evtTimeRoot.inorder.length + 1) :=
  Reachable.height_evtTimeRoot_le simKernel (reachable_newBase simKernel _ _)

/-- The pointers of `rbtree.c` hold the time tree of a base at any time: from `RB_ROOT` on, the
calls that a run has made end without a fault in memory, and then `rb_first` with `rb_next` visits
exactly the pending timers, by deadline. -/
theorem run_evtTimeRoot_held {k : κ} {epfd : ℤ} {mallocBase mallocEvents mallocList : Bool}
    (hnew : wbaEvtbaseNew k epfd mallocBase mallocEvents mallocList = some s) {ops : List Op}
    (hrun : s.run K ops = some t) (m : RbMemory EvtId) (hm : m.rbNode = none) (fuel : ℕ)
    (hfuel : 2 * Nat.log 2 ((s.treeOps K ops).length + 1) < fuel) :
    TreeOp.AllowedRun .nil (s.treeOps K ops) ∧
      ∃ m' xs, TreeOp.runMemory fuel m (s.treeOps K ops) = some m' ∧
        m'.Holds t.evtTimeRoot ∧ m'.forwards fuel xs.length = some xs ∧
        xs.Pairwise t.TimerLt ∧
        ∀ e, e ∈ xs ↔ e ∈ t.heap ∧ t.hasFlag e wbaEvtlistTimeout = true := by
  have hs : Consistent s [] := ⟨_, wellFormed_new hnew⟩
  obtain ⟨hallowed, hops⟩ := hs.timeRun_run K hrun
  rw [evtTimeRoot_new hnew] at hallowed hops
  obtain ⟨t', active, heq, slot, hwf⟩ := hs.run K ops
  obtain rfl : t' = t := Option.some.inj (heq.symm.trans hrun)
  have hsize : ∀ k, (TreeOp.runTree .nil ((s.treeOps K ops).take k)).size ≤
      (s.treeOps K ops).length := by
    simpa [RbTree.size] using TreeOp.size_runTree_le hallowed List.nodup_nil
  have hempty : m.Holds .nil := ⟨hm, trivial, List.nodup_nil⟩
  obtain ⟨m', hm', h', hrb⟩ :=
    TreeOp.runMemory_holds hempty RbTree.isRedBlack_nil hallowed hsize hfuel
  have hheight := hrb.height_le
  have hlog : Nat.log 2 ((TreeOp.runTree .nil (s.treeOps K ops)).size + 1) ≤
      Nat.log 2 ((s.treeOps K ops).length + 1) :=
    Nat.log_mono_right (Nat.succ_le_succ (by simpa using hsize (s.treeOps K ops).length))
  rw [hops] at h' hheight hlog
  refine ⟨hallowed, m', t'.evtTimeRoot.inorder, hm', h', ?_, hwf.timer.sorted, hwf.timer.mem⟩
  exact RbMemory.forwards_eq h' (by omega) (RbTree.length_inorder _).ge

/-- The three insertions and the erasure. -/
theorem run_evtTimeRoot_held_threeCalls :
    ((newBase { tick := 5 }).treeOps simKernel (threeCalls.map .call)).length = 4 ∧
      ∃ m' xs, TreeOp.runMemory 6 ⟨fun _ => ⟨none, red, none, none⟩, none⟩
          ((newBase { tick := 5 }).treeOps simKernel (threeCalls.map .call)) = some m' ∧
        m'.forwards 6 xs.length = some xs ∧ xs.Pairwise threeTimers.TimerLt ∧
        ∀ e, e ∈ xs ↔ e ∈ threeTimers.heap ∧
          threeTimers.hasFlag e wbaEvtlistTimeout = true := by
  have hlen : ((newBase { tick := 5 }).treeOps simKernel (threeCalls.map .call)).length = 4 := by
    decide +kernel
  have hrun : (newBase { tick := 5 }).run simKernel (threeCalls.map .call) = some threeTimers := by
    rfl
  obtain ⟨-, m', xs, hm', -, hwalk, hsorted, hmem⟩ :=
    run_evtTimeRoot_held simKernel (wbaEvtbaseNew_newBase { tick := 5 }) hrun
      ⟨fun _ => ⟨none, red, none, none⟩, none⟩ rfl 6 (by rw [hlen]; decide)
  exact ⟨hlen, m', xs, hm', hwalk, hsorted, hmem⟩

end WbaEvtbase

end Miscellany
