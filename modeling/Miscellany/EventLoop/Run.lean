import Mathlib.Algebra.Order.BigOperators.Group.Finset
import Miscellany.EventLoop.Persistent

/-!
# Runs of the loop

`wba_event_loop` comes back to its head after every iteration, and leaves it when the
counters of the base say that nothing is registered and nothing is active. A `LoopRun`
is a run of the loop up to an evaluation of its head: the iterations that are finished,
each with the base whose active list was run and the callbacks invoked.

When every callback that is invoked deletes and frees no event but its own, each iteration
runs the active list from its first event to its last one and leaves it empty. It does not
matter which events the callbacks create and add, nor what callbacks that are not invoked
would do.
-/

namespace Miscellany

open ListHead

namespace WbaEvtbase

variable {κ : Type*} {K : Kernel κ} {cbs : Callbacks κ}
variable {s t u : WbaEvtbase κ} {active : List EvtId}

/-! ### The loop -/

/-- The test `!base->event_count && !base->event_count_active` at the head of the loop. -/
def isEmptyBase (s : WbaEvtbase κ) : Bool := s.eventCount == 0 && s.eventCountActive == 0

/-- The loop of `wba_event_loop`, started in `s`, is at its head in the last base, with the
variable `res` as given. The list has an entry for each finished iteration: the base in which
`event_process_active` started, and the callbacks that were invoked. -/
inductive LoopRun (K : Kernel κ) (cbs : Callbacks κ) (s : WbaEvtbase κ) :
    ℤ → List (WbaEvtbase κ × List (Invocation κ)) → WbaEvtbase κ → Prop where
  | start : LoopRun K cbs s 1 [] s
  | iterate {res : ℤ} {its : List (WbaEvtbase κ × List (Invocation κ))} {t t' u : WbaEvtbase κ}
      (h : LoopRun K cbs s res its t) (hpending : t.isEmptyBase = false) {rs : List EpollEvent}
      (hwait : (t.eventWait K).1 = some rs) (hcollect : t.eventCollect K = some t')
      {fuel cnt : ℕ} {tr : List (Invocation κ)}
      (hrun : t'.eventProcessActive K cbs fuel = some (cnt, u, tr)) :
      LoopRun K cbs s rs.length (its ++ [(t', tr)]) u

/-- The callback that was invoked deletes and frees no event but its own. -/
def Invocation.RemovesOwn (inv : Invocation κ) : Prop := ∀ d, Removed inv.calls d → d = inv.evt

end WbaEvtbase

open WbaEvtbase

namespace Pass

variable {κ : Type*} {K : Kernel κ} {cbs : Callbacks κ} {st : Pass κ} {n : ℕ}
variable {tr : List (Invocation κ)} {rem : List EvtId}

/-- When no event is removed by the callback of another one, all of them are run. -/
theorem InOrder.map_evt (h : InOrder rem tr) (hnodup : rem.Nodup)
    (hown : ∀ inv ∈ tr, inv.RemovesOwn) :
    tr.map Invocation.evt = rem := by
  have hall : rem ⊆ tr.map Invocation.evt := by
    intro d hd
    obtain ⟨us, vs, hsplit⟩ := List.append_of_mem hd
    rw [h.skips us d vs hsplit]
    intro inv hinv hus hrem
    rw [hsplit] at hnodup
    apply (RbTree.notMem_of_nodup_middle hnodup).1
    rw [hown inv hinv d hrem]
    exact hus
  have hlen : rem.length ≤ (tr.map Invocation.evt).length := (hnodup.subperm hall).length_le
  exact h.sublist.eq_of_length_le hlen

/-- No callback of a pass removes the event behind its own if those that are invoked remove their
own only. -/
theorem Heads.spares_of_trace (h : Heads st rem)
    (hown : ∀ n, ∀ inv ∈ (steps K cbs n st).trace, inv.RemovesOwn) :
    Spares K cbs st.base rem := by
  induction rem generalizing st with
  | nil => exact Spares.nil st.base
  | cons e rest ih =>
      have hstep := @step_entry _ K cbs _ _ h.evt h.mem_heap
      have hfirst : ((st.base.eventProcessActiveBody K e).invocation cbs e).RemovesOwn := by
        apply hown 1
        rw [steps, steps, hstep]
        exact List.mem_append_right _ (List.mem_singleton_self _)
      have hkeep : ∀ d ∈ rest, ¬ Removed (st.base.roundCalls K cbs e) d := by
        intro d hd hrem
        have hde : d = e := hfirst d hrem
        exact (List.nodup_cons.1 h.consistent.nodup).1 (hde ▸ hd)
      have hnext : ∀ f, rest.head? = some f → ¬ Removed (st.base.roundCalls K cbs e) f :=
        fun f hf => hkeep f (List.mem_of_mem_head? hf)
      have hheads := h.step hnext
      rw [spared_eq_self hkeep] at hheads
      have hrest := ih hheads fun n => hown (n + 1)
      rw [hstep] at hrest
      exact Spares.cons hnext ((spared_eq_self hkeep).symm ▸ hrest)

end Pass

namespace WbaEvtbase

variable {κ : Type*} {K : Kernel κ} {cbs : Callbacks κ}
variable {s s' t : WbaEvtbase κ} {active : List EvtId}

/-! ### One iteration -/

/-- When `epoll_wait` does not fail, the events are collected. -/
theorem Consistent.eventCollect_isSome (h : Consistent s active) {rs : List EpollEvent}
    (hwait : (s.eventWait K).1 = some rs) : ∃ s', s.eventCollect K = some s' := by
  obtain ⟨k, hk⟩ := eventWait_eq K s
  obtain ⟨slot, hwf⟩ := h
  obtain ⟨t, fresh, heq, -, -⟩ := (hwf.setKernel k).processReports rs
  rw [← hk] at heq
  refine ⟨(t.eventProcessTimeout K).2, ?_⟩
  simp only [WbaEvtbase.eventCollect, hwait, heq, Option.map_some]

/-- `event_process_active` runs the whole active list. -/
theorem Consistent.ring_of_run (h : Consistent s' active) {fuel cnt : ℕ}
    {tr : List (Invocation κ)} (hrun : s'.eventProcessActive K cbs fuel = some (cnt, t, tr))
    (hown : ∀ inv ∈ tr, inv.RemovesOwn) :
    Ring s'.evtActiveList () (tr.map Invocation.evt) := by
  obtain ⟨hend, -, rfl⟩ := eventProcessActive_eq_some K hrun
  obtain ⟨-, tr, htrace, horder⟩ := (Pass.heads_start h).of_ended hend
  have htr : (Pass.steps K cbs fuel (Pass.start s')).trace = tr := htrace
  rw [htr] at hown ⊢
  rw [horder.map_evt h.nodup hown]
  obtain ⟨slot, hwf⟩ := h
  exact hwf.active.ring

/-- `event_process_active` returns. -/
theorem Consistent.eventProcessActive_of_trace (h : Consistent s active)
    (hown : ∀ n, ∀ inv ∈ (Pass.steps K cbs n (Pass.start s)).trace, inv.RemovesOwn) :
    ∃ fuel cnt t tr, s.eventProcessActive K cbs fuel = some (cnt, t, tr) := by
  have hheads := Pass.heads_start h
  obtain ⟨n, tr, hend, -, -⟩ := hheads.run (hheads.spares_of_trace hown)
  exact ⟨n, _, _, _, by rw [eventProcessActive, if_pos hend.ended]⟩

/-- A base without active events is left as empty exactly when its map and its time tree are
empty. -/
theorem Represents.isEmptyBase_iff {slot : ℕ → List EvtId} (h : Represents s [] slot) :
    s.isEmptyBase = true ↔ (∀ i < s.size, slot i = []) ∧ s.evtTimeRoot.inorder = [] := by
  have hactive : s.eventCountActive = 0 := h.eventCountActive
  have hnonneg : ∀ i ∈ Finset.range s.size, (0 : ℤ) ≤ (slot i).length := fun i _ => by omega
  have hsum := Finset.sum_nonneg hnonneg
  have hcount : s.isEmptyBase = true ↔
      ∑ i ∈ Finset.range s.size, ((slot i).length : ℤ) = 0 ∧
        (s.evtTimeRoot.inorder.length : ℤ) = 0 := by
    rw [isEmptyBase, Bool.and_eq_true, beq_iff_eq, beq_iff_eq, h.eventCount]
    constructor
    · intro hzero
      omega
    · intro hzero
      omega
  rw [hcount, Finset.sum_eq_zero_iff_of_nonneg hnonneg]
  simp

/-! ### Every evaluation of the loop head -/

/-- The active list is empty at every evaluation of the loop head. -/
theorem LoopRun.consistent (h : Consistent s []) {res : ℤ}
    {its : List (WbaEvtbase κ × List (Invocation κ))} (hrun : LoopRun K cbs s res its t) :
    Consistent t [] := by
  induction hrun with
  | start => exact h
  | iterate hprev hpending hwait hcollect hrun ih => exact ih.iterate K hcollect hrun

/-- Each finished iteration has run its active list. -/
theorem LoopRun.ring (h : Consistent s []) {res : ℤ}
    {its : List (WbaEvtbase κ × List (Invocation κ))} (hrun : LoopRun K cbs s res its t)
    (hown : ∀ it ∈ its, ∀ inv ∈ it.2, inv.RemovesOwn) :
    ∀ it ∈ its, Ring it.1.evtActiveList () (it.2.map Invocation.evt) := by
  induction hrun with
  | start => simp
  | @iterate res its t t' u hprev hpending rs hwait hcollect fuel cnt tr hrun ih =>
      obtain ⟨active, hcons⟩ := (LoopRun.consistent h hprev).eventCollect K hcollect
      rw [List.forall_mem_append] at hown ⊢
      refine ⟨ih hown.1, List.forall_mem_singleton.2 ?_⟩
      exact hcons.ring_of_run hrun (List.forall_mem_singleton.1 hown.2)

/-- When `epoll_wait` does not fail, the next iteration collects its events, and it is finished
when the callbacks that it invokes remove their own event only. -/
theorem LoopRun.next (h : Consistent s []) {res : ℤ}
    {its : List (WbaEvtbase κ × List (Invocation κ))} (hrun : LoopRun K cbs s res its t)
    (hpending : t.isEmptyBase = false) {rs : List EpollEvent}
    (hwait : (t.eventWait K).1 = some rs) :
    ∃ t', t.eventCollect K = some t' ∧
      ((∀ n, ∀ inv ∈ (Pass.steps K cbs n (Pass.start t')).trace, inv.RemovesOwn) →
        ∃ tr u, LoopRun K cbs s rs.length (its ++ [(t', tr)]) u) := by
  have ht := LoopRun.consistent h hrun
  obtain ⟨t', hcollect⟩ := ht.eventCollect_isSome hwait
  obtain ⟨active, hcons⟩ := ht.eventCollect K hcollect
  refine ⟨t', hcollect, fun hown => ?_⟩
  obtain ⟨fuel, cnt, u, tr, hpass⟩ := hcons.eventProcessActive_of_trace hown
  exact ⟨tr, u, hrun.iterate hpending hwait hcollect hpass⟩

/-- At every evaluation of the loop head of a run whose callbacks remove their own event only, the
active list is empty. Each finished iteration has invoked the callbacks of its active list, each
once and in order. The loop is left at its head exactly when the map and the time tree are empty,
and otherwise the next iteration is finished too unless `epoll_wait` fails. -/
theorem loop_head {k : κ} (h : Reachable K k s) (hempty : Ring s.evtActiveList () [])
    {res : ℤ} {its : List (WbaEvtbase κ × List (Invocation κ))}
    (hrun : LoopRun K cbs s res its t) (hown : ∀ it ∈ its, ∀ inv ∈ it.2, inv.RemovesOwn) :
    ∃ slot, Represents t [] slot ∧ t.eventCountActive = 0 ∧
      (t.isEmptyBase = true ↔ (∀ i < t.size, slot i = []) ∧ t.evtTimeRoot.inorder = []) ∧
      (∀ it ∈ its, Ring it.1.evtActiveList () (it.2.map Invocation.evt)) ∧
      ∀ rs, t.isEmptyBase = false → (t.eventWait K).1 = some rs →
        ∃ t', t.eventCollect K = some t' ∧
          ((∀ n, ∀ inv ∈ (Pass.steps K cbs n (Pass.start t')).trace, inv.RemovesOwn) →
            ∃ tr u, LoopRun K cbs s rs.length (its ++ [(t', tr)]) u) := by
  obtain ⟨active, slot, hwf⟩ := h.consistent
  obtain rfl : active = [] := hwf.active.ring.unique hempty
  have hs : Consistent s [] := ⟨slot, hwf⟩
  obtain ⟨slot', hwf'⟩ := LoopRun.consistent hs hrun
  have hrep := hwf'.represents
  exact ⟨slot', hrep, hrep.eventCountActive, hrep.isEmptyBase_iff, LoopRun.ring hs hrun hown,
    fun rs hpending hwait => LoopRun.next hs hrun hpending hwait⟩

/-- Two timers that have expired. -/
def dueBase : WbaEvtbase SimState :=
  (newBase {}).runCalls simKernel
    [.new (some 0) (-1) (wbaEvtTimeout ||| wbaEvtPersist) (some 3) .selfptr, .add 0 (some ⟨0, 0⟩),
      .new (some 1) (-1) (wbaEvtTimeout ||| wbaEvtPersist) (some 4) .selfptr, .add 1 (some ⟨0, 0⟩)]

/-- A callback deletes the event that is its argument, and another one frees it and adds a new
event, which gets the address of the old one. -/
def removeAgain : Callbacks SimState := fun fn _ _ arg _ =>
  match arg with
  | .evt e =>
      if fn = 3 then [.del e]
      else [.free e, .new (some e) (-1) (wbaEvtTimeout ||| wbaEvtPersist) (some fn) .selfptr,
        .add e (some ⟨3, 100⟩)]
  | _ => []

/-- The loop comes back to its head after the iteration that runs the two timers. -/
theorem loop_head_dueBase :
    ∃ t' tr u slot, LoopRun simKernel removeAgain dueBase 0 [(t', tr)] u ∧
      (∀ inv ∈ tr, Removed inv.calls inv.evt) ∧ Represents u [] slot ∧
      Ring t'.evtActiveList () [0, 1] := by
  have hreach : Reachable simKernel {} dueBase := reachable_newBase _ _ _
  have hring : Ring dueBase.evtActiveList () [] := by
    have hhead : LoopHead simKernel {} dueBase := loopHead_newBase _ _ _
    obtain ⟨slot, hwf⟩ := hhead.consistent
    exact hwf.active.ring
  obtain ⟨t', hcollect⟩ : ∃ t', dueBase.eventCollect simKernel = some t' :=
    Option.isSome_iff_exists.1 (by decide +kernel)
  have hpass : (dueBase.eventCollect simKernel).map (fun t' =>
      (t'.eventProcessActive simKernel removeAgain 2).map fun r =>
        r.2.2.map fun i => (i.evt, i.calls)) =
      some (some [(0, [.del 0]), (1, [.free 1, .new (some 1) (-1) (wbaEvtTimeout ||| wbaEvtPersist)
        (some 4) .selfptr, .add 1 (some ⟨3, 100⟩)])]) := by
    decide +kernel
  rw [hcollect, Option.map_some, Option.some_inj, Option.map_eq_some_iff] at hpass
  obtain ⟨⟨cnt, u, tr⟩, hpass, hcalls⟩ := hpass
  have hwait : (dueBase.eventWait simKernel).1 = some [] := by decide +kernel
  have hrun : LoopRun simKernel removeAgain dueBase 0 [(t', tr)] u :=
    LoopRun.start.iterate (by decide +kernel) hwait hcollect hpass
  have hcases : ∀ inv ∈ tr, inv.evt = 0 ∧ inv.calls = [Call.del 0] ∨
      inv.evt = 1 ∧ inv.calls = [.free 1, .new (some 1) (-1) (wbaEvtTimeout ||| wbaEvtPersist)
        (some 4) .selfptr, .add 1 (some ⟨3, 100⟩)] := by
    intro inv hinv
    have hmem := List.mem_map_of_mem (f := fun i : Invocation SimState => (i.evt, i.calls)) hinv
    rw [hcalls] at hmem
    simpa using hmem
  have hown : ∀ it ∈ [(t', tr)], ∀ inv ∈ it.2, inv.RemovesOwn := by
    rw [List.forall_mem_singleton]
    intro inv hinv d hd
    rcases hcases inv hinv with ⟨hevt, hc⟩ | ⟨hevt, hc⟩
    · rw [hc] at hd
      simpa [Removed, Call.Removes, hevt, eq_comm] using hd
    · rw [hc] at hd
      simpa [Removed, Call.Removes, hevt, eq_comm] using hd
  obtain ⟨slot, hrep, -, -, hits, -⟩ := loop_head hreach hring hrun hown
  refine ⟨t', tr, u, slot, hrun, fun inv hinv => ?_, hrep, ?_⟩
  · rcases hcases inv hinv with ⟨hevt, hc⟩ | ⟨hevt, hc⟩
    · simp [Removed, Call.Removes, hevt, hc]
    · simp [Removed, Call.Removes, hevt, hc]
  · have hevts : tr.map Invocation.evt = [0, 1] := by
      have hfst := congrArg (List.map Prod.fst) hcalls
      rwa [List.map_map] at hfst
    rw [← hevts]
    exact hits (t', tr) (List.mem_singleton_self _)

end WbaEvtbase

end Miscellany
