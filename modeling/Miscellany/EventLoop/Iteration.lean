import Miscellany.EventLoop.Dispatch

/-!
# An iteration of the loop

At the head of the loop no event is active (`LoopHead.consistent`). An iteration collects
the events that are ready or due and runs their callbacks. The result of an event is
written when it is put on the active list and by nothing that runs later in the
iteration, so the argument of its callback is decided when the events are collected: it
is `TIMEOUT` alone if the deadline has expired, because `event_process_timeout` deletes
the event and activates it again, and otherwise what the first report said.
-/

namespace Miscellany

open ListHead

open WbaEvtbase

/-! ### When a pass has ended -/

namespace Pass

variable {κ : Type*} {K : Kernel κ} {cbs : Callbacks κ} {st : Pass κ} {rem : List EvtId}

theorem steps_add (m n : ℕ) (st : Pass κ) :
    steps K cbs (m + n) st = steps K cbs n (steps K cbs m st) := by
  induction m generalizing st with
  | zero => rw [Nat.zero_add, steps]
  | succ m ih => rw [Nat.succ_add, steps, ih, steps]

theorem steps_of_ended (h : st.Ended) (n : ℕ) : steps K cbs n st = st := by
  have hstay : step K cbs st = st := by
    rw [Ended] at h
    simp [step, h]
  induction n with
  | zero => rfl
  | succ n ih => rw [steps, hstay, ih]

theorem steps_eq_of_ended {m n : ℕ} (hm : (steps K cbs m st).Ended)
    (hn : (steps K cbs n st).Ended) : steps K cbs m st = steps K cbs n st := by
  rcases Nat.le_total m n with hle | hle
  · obtain ⟨j, rfl⟩ := Nat.exists_eq_add_of_le hle
    rw [steps_add, steps_of_ended hm]
  · obtain ⟨j, rfl⟩ := Nat.exists_eq_add_of_le hle
    rw [steps_add, steps_of_ended hn]

/-- A pass that has ended has run its events in order and left the active list empty. -/
theorem Heads.of_ended (h : Heads st rem) {n : ℕ} (hend : (steps K cbs n st).Ended) :
    Consistent (steps K cbs n st).base [] ∧
      ∃ tr, (steps K cbs n st).trace = st.trace ++ tr ∧ InOrder rem tr := by
  have hspares : Spares K cbs st.base rem := by
    by_contra hspares
    exact h.not_ended hspares n hend
  obtain ⟨m, tr, hheads, htrace, horder⟩ := h.run hspares
  rw [steps_eq_of_ended hend hheads.ended]
  exact ⟨hheads.consistent, tr, htrace, horder⟩

variable (K cbs) in
theorem steps_trace (n : ℕ) (st : Pass κ) :
    ∃ tr, (steps K cbs n st).trace = st.trace ++ tr := by
  induction n generalizing st with
  | zero => exact ⟨[], by simp [steps]⟩
  | succ n ih =>
      obtain ⟨tr, htr⟩ := ih (step K cbs st)
      have hone : ∃ one, (step K cbs st).trace = st.trace ++ one := by
        unfold step
        split
        · split_ifs
          · exact ⟨_, rfl⟩
          · exact ⟨[], by simp⟩
        · exact ⟨[], by simp⟩
      obtain ⟨one, hone⟩ := hone
      exact ⟨one ++ tr, by rw [steps, htr, hone, List.append_assoc]⟩

end Pass

namespace WbaEvtbase

variable {κ : Type*} (K : Kernel κ)
variable {s t u : WbaEvtbase κ} {active : List EvtId} {d e : EvtId}

/-! ### Loop heads -/

/-- The bases at the head of the loop of `wba_event_loop`: those that the main program sets up by
calls, and those that a finished iteration leaves. -/
inductive LoopHead (k : κ) : WbaEvtbase κ → Prop where
  | new {epfd : ℤ} {mallocBase mallocEvents mallocList : Bool} {s : WbaEvtbase κ}
      (hnew : wbaEvtbaseNew k epfd mallocBase mallocEvents mallocList = some s) : LoopHead k s
  | call {s : WbaEvtbase κ} (h : LoopHead k s) (c : Call) : LoopHead k (s.runCall K c)
  | iterate {s s' t : WbaEvtbase κ} (h : LoopHead k s) (cbs : Callbacks κ)
      (hcollect : s.eventCollect K = some s') {fuel cnt : ℕ} {tr : List (Invocation κ)}
      (hrun : s'.eventProcessActive K cbs fuel = some (cnt, t, tr)) : LoopHead k t

/-- What is collected: the reports are processed in the base behind `epoll_wait`, then the
timeouts. -/
theorem eventCollect_eq_some {s' : WbaEvtbase κ} (h : s.eventCollect K = some s') :
    ∃ rs t, (s.eventWait K).1 = some rs ∧ processReports rs (s.eventWait K).2 = some t ∧
      s' = (t.eventProcessTimeout K).2 := by
  unfold eventCollect at h
  simp only at h
  split at h
  · exact absurd h (by simp)
  · rename_i rs hrs
    obtain ⟨t, ht, rfl⟩ := Option.map_eq_some_iff.1 h
    exact ⟨rs, t, hrs, ht, rfl⟩

theorem eventProcessActive_eq_some {cbs : Callbacks κ} {fuel cnt : ℕ}
    {tr : List (Invocation κ)} (h : s.eventProcessActive K cbs fuel = some (cnt, t, tr)) :
    (Pass.steps K cbs fuel (Pass.start s)).Ended ∧
      t = (Pass.steps K cbs fuel (Pass.start s)).base ∧
      tr = (Pass.steps K cbs fuel (Pass.start s)).trace := by
  unfold eventProcessActive at h
  simp only at h
  split_ifs at h with hend
  simp only [Option.some.injEq, Prod.mk.injEq] at h
  exact ⟨hend, h.2.1.symm, h.2.2.symm⟩

theorem Consistent.eventCollect (h : Consistent s active) {s' : WbaEvtbase κ}
    (hcollect : s.eventCollect K = some s') : ∃ active', Consistent s' active' := by
  obtain ⟨rs, t, -, hreports, rfl⟩ := eventCollect_eq_some K hcollect
  obtain ⟨k, hwait⟩ := eventWait_eq K s
  obtain ⟨slot, hwf⟩ := h
  rw [hwait] at hreports
  obtain ⟨t', fresh, heq, ht, -⟩ := (hwf.setKernel k).processReports rs
  obtain rfl : t' = t := Option.some.inj (heq.symm.trans hreports)
  exact Consistent.eventProcessTimeout K ⟨slot, ht⟩

/-- An iteration leaves no event active. -/
theorem Consistent.iterate (h : Consistent s []) {s' : WbaEvtbase κ} {cbs : Callbacks κ}
    (hcollect : s.eventCollect K = some s') {fuel cnt : ℕ} {tr : List (Invocation κ)}
    (hrun : s'.eventProcessActive K cbs fuel = some (cnt, t, tr)) : Consistent t [] := by
  obtain ⟨active, hcons⟩ := h.eventCollect K hcollect
  obtain ⟨hend, rfl, -⟩ := eventProcessActive_eq_some K hrun
  exact ((Pass.heads_start hcons).of_ended hend).1

/-- At the head of the loop no event is active. -/
theorem LoopHead.consistent {k : κ} (h : LoopHead K k s) : Consistent s [] := by
  induction h with
  | new hnew => exact ⟨_, wellFormed_new hnew⟩
  | call hs c ih => exact ih.runCall_nil K c
  | iterate hs cbs hcollect hrun ih => exact ih.iterate K hcollect hrun

/-- Processing reports activates one slot after the other. -/
theorem Reachable.of_processReports {k : κ} (h : Reachable K k s) {rs : List EpollEvent}
    (hreports : processReports rs s = some t) : Reachable K k t := by
  induction rs generalizing s with
  | nil => exact Option.some.inj hreports ▸ h
  | cons r rs ih =>
      rw [processReports_cons, Option.bind_eq_some_iff] at hreports
      obtain ⟨u, hu, hrest⟩ := hreports
      refine ih ?_ hrest
      unfold processReport at hu
      split_ifs at hu
      · exact Option.some.inj hu ▸ h
      · exact h.step (.mapActive r.fd (translate r.events)) hu

theorem Reachable.eventCollect {k : κ} (h : Reachable K k s) {s' : WbaEvtbase κ}
    (hcollect : s.eventCollect K = some s') : Reachable K k s' := by
  obtain ⟨rs, t, -, hreports, rfl⟩ := eventCollect_eq_some K hcollect
  exact ((h.step .wait rfl).of_processReports K hreports).step .processTimeout rfl

end WbaEvtbase

namespace Pass

variable {κ : Type*} {K : Kernel κ} {cbs : Callbacks κ} {st : Pass κ}

theorem reachable_steps {k : κ} (h : Reachable K k st.base) (n : ℕ) :
    Reachable K k (steps K cbs n st).base := by
  induction n generalizing st with
  | zero => exact h
  | succ n ih =>
      apply ih
      unfold step
      split
      · rename_i e _
        split_ifs with he
        · have hop : st.base.runOp K (.processActive e (st.base.roundCalls K cbs e)) =
              some (st.base.roundBase K cbs e) := by
            rw [runOp, if_pos he]
            rfl
          exact h.step _ hop
        · exact h
      · exact h

end Pass

namespace WbaEvtbase

variable {κ : Type*} (K : Kernel κ)
variable {s t u : WbaEvtbase κ} {active : List EvtId} {d e : EvtId}

/-- Loop heads are reachable. -/
theorem LoopHead.reachable {k : κ} (h : LoopHead K k s) : Reachable K k s := by
  induction h with
  | new hnew => exact Reachable.new hnew
  | call hs c ih => exact ih.step (.call c) rfl
  | iterate hs cbs hcollect hrun ih =>
      obtain ⟨-, rfl, -⟩ := eventProcessActive_eq_some K hrun
      apply Pass.reachable_steps
      exact ih.eventCollect K hcollect

/-! ### Callbacks that remove their own event only -/

/-- The callbacks delete and free no event but their own. -/
def RemovesOwn (cbs : Callbacks κ) : Prop :=
  ∀ (s : WbaEvtbase κ) (e : EvtId), ∀ c ∈ (s.invocation cbs e).calls, ∀ d, c.Removes d → d = e

theorem spared_eq_self {calls : List Call} {rest : List EvtId}
    (hkeep : ∀ d ∈ rest, ¬ Removed calls d) : spared calls rest = rest := by
  rw [spared, List.filter_eq_self]
  intro d hd
  rw [decide_eq_true_iff]
  exact hkeep d hd

variable {K} in
theorem RemovesOwn.spares {cbs : Callbacks κ} (hown : RemovesOwn cbs) (h : Consistent s active) :
    Spares K cbs s active := by
  induction active generalizing s with
  | nil => exact Spares.nil s
  | cons e rest ih =>
      have hkeep : ∀ d ∈ rest, ¬ Removed (s.roundCalls K cbs e) d := by
        rintro d hd ⟨c, hc, hrem⟩
        have hde := hown _ e c hc d hrem
        exact (List.nodup_cons.1 h.nodup).1 (hde ▸ hd)
      have hrest := spared_eq_self hkeep
      have he : e ∈ s.heap := by
        obtain ⟨slot, hwf⟩ := h
        exact ((hwf.active.mem e).1 (by simp)).1
      have hround : Consistent (s.roundBase K cbs e) _ := h.roundBase he
      rw [hrest] at hround
      refine Spares.cons (fun f hf => hkeep f (List.mem_of_mem_head? hf)) ?_
      rw [hrest]
      exact ih hround

variable {K} in
/-- With such callbacks `event_process_active` returns. -/
theorem RemovesOwn.eventProcessActive {cbs : Callbacks κ} (hown : RemovesOwn cbs)
    (h : Consistent s active) :
    ∃ fuel cnt t tr, s.eventProcessActive K cbs fuel = some (cnt, t, tr) := by
  obtain ⟨n, tr, hend, -, -⟩ := (Pass.heads_start h).run (hown.spares (K := K) h)
  exact ⟨n, _, _, _, by rw [WbaEvtbase.eventProcessActive, if_pos hend.ended]⟩

/-! ### The result of an event -/

/-- From `s` to `t` no event is created or freed, no event other than `d` is written, and the
result and the description of `d` are kept. -/
structure Touches (d : EvtId) (s t : WbaEvtbase κ) : Prop where
  heap : t.heap = s.heap
  other : ∀ e, e ≠ d → t.evt e = s.evt e
  res : (t.evt d).res = (s.evt d).res
  fd : (t.evt d).fd = (s.evt d).fd
  events : (t.evt d).events = (s.evt d).events

theorem Touches.refl (d : EvtId) (s : WbaEvtbase κ) : Touches d s s :=
  ⟨rfl, fun _ _ => rfl, rfl, rfl, rfl⟩

theorem Touches.trans (hst : Touches d s t) (htu : Touches d t u) : Touches d s u :=
  ⟨htu.heap.trans hst.heap, fun e he => (htu.other e he).trans (hst.other e he),
    htu.res.trans hst.res, htu.fd.trans hst.fd, htu.events.trans hst.events⟩

theorem FlagsOnly.touches (h : FlagsOnly d s t) : Touches d s t := by
  refine ⟨h.1, fun e he => h.evt_of_ne he, ?_, ?_, ?_⟩
  all_goals rw [h.evt_self]

theorem touches_eventSetTimeout (s : WbaEvtbase κ) (d : EvtId) (tv : Timeval) (abs : Bool) :
    Touches d s (s.eventSetTimeout K d tv abs) := by
  have hdeadline : ∀ (t : WbaEvtbase κ) (x : Timeval),
      Touches d t (t.modifyEvt d fun v => { v with evtTimeout := x }) := by
    intro t x
    refine ⟨rfl, fun e he => modifyEvt_evt_of_ne t _ he, ?_, ?_, ?_⟩ <;> simp
  have hperiod : Touches d s (s.modifyEvt d fun v => { v with timeout := tv }) := by
    refine ⟨rfl, fun e he => modifyEvt_evt_of_ne s _ he, ?_, ?_, ?_⟩ <;> simp
  have hclock : ∀ t : WbaEvtbase κ, Touches d t (t.eventTimegetNow K).2 := fun _ =>
    ⟨rfl, fun _ _ => rfl, rfl, rfl, rfl⟩
  unfold eventSetTimeout
  split_ifs
  · exact hdeadline s tv
  · exact (hperiod.trans (hclock _)).trans (hdeadline _ _)
  · exact (hclock s).trans (hdeadline _ _)

theorem touches_eventAdd (s : WbaEvtbase κ) (d : EvtId) (tv : Option Timeval) (abs : Bool) :
    Touches d s (s.eventAdd K d tv abs).2 := by
  rcases eventAdd_cases K s d tv abs with ⟨heq, -⟩ | ⟨-, heq, -⟩ | ⟨t, -, -, -, heq⟩
  · rw [heq]
    exact Touches.refl d s
  · rw [heq]
    exact (flagsOnly_eventAddReg K s d).touches
  · rw [heq]
    exact (((flagsOnly_eventAddReg K s d).touches.trans
      (flagsOnly_eventRemoveTimeout _ d).touches).trans
      (touches_eventSetTimeout K _ d t abs)).trans (flagsOnly_eventAddTimeout _ d).touches

theorem touches_wbaEventAdd (s : WbaEvtbase κ) (d : EvtId) (tv : Option Timeval) :
    Touches d s (s.wbaEventAdd K d tv).2 := by
  unfold wbaEventAdd
  cases tv with
  | none => exact touches_eventAdd K s d none false
  | some t =>
      simp only
      split_ifs
      · exact Touches.refl d s
      · exact touches_eventAdd K s d (some t) false

theorem touches_eventProcessActiveBody (s : WbaEvtbase κ) (d : EvtId) :
    Touches d s (s.eventProcessActiveBody K d) := by
  have hremove := (flagsOnly_eventRemoveActive s d).touches
  unfold eventProcessActiveBody eventReschedule
  split_ifs
  · have hclock : Touches d (s.eventRemoveActive d)
        ((s.eventRemoveActive d).eventTimegetNow K).2 := ⟨rfl, fun _ _ => rfl, rfl, rfl, rfl⟩
    exact (hremove.trans hclock).trans (touches_eventAdd K _ d _ true)
  · exact hremove
  · exact (flagsOnly_eventDel K s d).touches

/-- The event exists and its result is `r`. -/
def HasResult (s : WbaEvtbase κ) (e : EvtId) (r : BitVec 16) : Prop :=
  e ∈ s.heap ∧ (s.evt e).res = r

theorem HasResult.of_touches {r : BitVec 16} (h : HasResult s e r) (ht : Touches d s t) :
    HasResult t e r := by
  refine ⟨ht.heap ▸ h.1, ?_⟩
  by_cases hed : e = d
  · subst hed
    exact ht.res.trans h.2
  · rw [ht.other e hed]
    exact h.2

theorem HasResult.placeEvt {r : BitVec 16} (h : HasResult s e r) (hd : d ∉ s.heap) (v : WbaEvt) :
    HasResult (s.placeEvt d v) e r := by
  have hed : e ≠ d := fun hed => hd (hed ▸ h.1)
  refine ⟨List.mem_cons_of_mem d h.1, ?_⟩
  have hevt : (s.placeEvt d v).evt e = s.evt e := Function.update_of_ne hed _ _
  rw [hevt]
  exact h.2

/-- A call keeps the result of every event that it does not remove. -/
theorem HasResult.runCall {r : BitVec 16} (h : HasResult s e r) {c : Call}
    (hc : ¬ c.Removes e) : HasResult (s.runCall K c) e r := by
  cases c with
  | new malloc fd events fn arg =>
      change HasResult (s.wbaEventNew malloc fd events fn arg).2 e r
      rcases wbaEventNew_cases s malloc fd events fn arg with heq | ⟨d, f, hd, heq⟩
      · rw [heq]
        exact h
      · rw [heq]
        exact h.placeEvt hd _
  | add d tv => exact h.of_touches (touches_wbaEventAdd K s d tv)
  | del d => exact h.of_touches (flagsOnly_eventDel K s d).touches
  | free d =>
      have hdel := h.of_touches (flagsOnly_eventDel K s d).touches
      have hed : e ≠ d := fun hed => hc (Or.inr (by rw [hed]))
      exact ⟨(List.mem_erase_of_ne hed).2 hdel.1, hdel.2⟩

theorem HasResult.runCalls {r : BitVec 16} (h : HasResult s e r) {calls : List Call}
    (hcalls : ¬ Removed calls e) : HasResult (s.runCalls K calls) e r := by
  induction calls generalizing s with
  | nil => exact h
  | cons c calls ih =>
      rw [removed_cons, not_or] at hcalls
      exact ih (h.runCall K hcalls.1) hcalls.2

end WbaEvtbase

namespace Pass

variable {κ : Type*} {K : Kernel κ} {cbs : Callbacks κ} {st : Pass κ} {e : EvtId} {r : BitVec 16}

variable (K cbs) in
/-- A round either does nothing or runs one event. -/
theorem step_cases (st : Pass κ) :
    step K cbs st = st ∨ ∃ d ∈ st.base.heap, (step K cbs st).base = st.base.roundBase K cbs d ∧
      (step K cbs st).trace =
        st.trace ++ [(st.base.eventProcessActiveBody K d).invocation cbs d] := by
  cases hevt : st.evt with
  | none => exact Or.inl (by simp [step, hevt])
  | some x =>
      cases x with
      | head i => exact Or.inl (by simp [step, hevt])
      | entry d =>
          by_cases hd : d ∈ st.base.heap
          · refine Or.inr ⟨d, hd, ?_⟩
            rw [step_entry hevt hd]
            exact ⟨rfl, rfl⟩
          · exact Or.inl (by simp [step, hevt, hd])

/-- The first of `n + 1` rounds either does nothing or makes the first invocation of those that
follow. -/
theorem trace_succ_cases {n : ℕ} {tr : List (Invocation κ)}
    (htrace : (steps K cbs (n + 1) st).trace = st.trace ++ tr) :
    step K cbs st = st ∨ ∃ d ∈ st.base.heap, ∃ tr',
      (step K cbs st).base = st.base.roundBase K cbs d ∧
      (step K cbs st).trace =
        st.trace ++ [(st.base.eventProcessActiveBody K d).invocation cbs d] ∧
      tr = (st.base.eventProcessActiveBody K d).invocation cbs d :: tr' ∧
      (steps K cbs n (step K cbs st)).trace = (step K cbs st).trace ++ tr' := by
  rcases step_cases K cbs st with hstay | ⟨d, hd, hbase, hone⟩
  · exact Or.inl hstay
  · obtain ⟨tr', htr'⟩ := steps_trace K cbs n (step K cbs st)
    refine Or.inr ⟨d, hd, tr', hbase, hone, ?_, htr'⟩
    have heq := htrace.symm.trans htr'
    rw [hone, List.append_assoc, List.append_cancel_left_eq] at heq
    exact heq

/-- Until an event is removed, its callback is invoked with the result the event had when the
pass began. -/
theorem events_of_trace (h : HasResult st.base e r) (n : ℕ) {tr pre post : List (Invocation κ)}
    {inv : Invocation κ} (htrace : (steps K cbs n st).trace = st.trace ++ tr)
    (hsplit : tr = pre ++ inv :: post) (hinv : inv.evt = e)
    (hpre : ∀ i ∈ pre, ¬ Removed i.calls e) : inv.events = r := by
  induction n generalizing st tr pre with
  | zero =>
      have hnil : tr = [] := by simpa [steps] using htrace
      simp [hnil] at hsplit
  | succ n ih =>
      rcases trace_succ_cases htrace with hstay | ⟨d, hd, tr', hbase, hone, rfl, htr'⟩
      · rw [steps, hstay] at htrace
        exact ih h htrace hsplit hpre
      · have hbody : HasResult (st.base.eventProcessActiveBody K d) e r :=
          h.of_touches (touches_eventProcessActiveBody K st.base d)
        cases pre with
        | nil =>
            obtain ⟨rfl, -⟩ := List.cons.inj hsplit
            obtain rfl : d = e := hinv
            exact hbody.2
        | cons i pre =>
            obtain ⟨rfl, hrest⟩ := List.cons.inj hsplit
            have hround : HasResult (step K cbs st).base e r := by
              rw [hbase]
              exact hbody.runCalls K (hpre _ (by simp))
            exact ih hround htr' hrest fun j hj => hpre j (List.mem_cons_of_mem _ hj)

end Pass

namespace WbaEvtbase

variable {κ : Type*} (K : Kernel κ)
variable {s t : WbaEvtbase κ} {active : List EvtId} {slot : ℕ → List EvtId} {e : EvtId}

/-! ### The argument of a callback -/

/-- The deadline of the event has expired when the clock is read in `s`. -/
def expired (s : WbaEvtbase κ) (e : EvtId) : Bool :=
  match (s.eventTimeget K).1 with
  | none => false
  | some now => s.hasFlag e wbaEvtlistTimeout && s.isDue now e

/-- `event_process_timeout` times out an event whose deadline has expired, and does not write the
others. -/
theorem WellFormed.evt_eventProcessTimeout (h : WellFormed s active slot) :
    (s.eventProcessTimeout K).2.heap = s.heap ∧ ∀ e ∈ s.heap,
      (s.expired K e = true → TimedOut (s.evt e) ((s.eventProcessTimeout K).2.evt e)) ∧
      (s.expired K e = false → (s.eventProcessTimeout K).2.evt e = s.evt e) := by
  unfold expired
  cases hnow : (s.eventTimeget K).1 with
  | none =>
      have heq : (s.eventProcessTimeout K).2 = (s.eventTimeget K).2 := by
        simp [WbaEvtbase.eventProcessTimeout, hnow]
      rw [heq]
      refine ⟨rfl, fun e _ => ⟨fun hexp => ?_, fun _ => rfl⟩⟩
      exact absurd hexp Bool.false_ne_true
  | some now =>
      obtain ⟨t, heq, -, hexp⟩ := h.eventProcessTimeout K hnow
      rw [heq]
      refine ⟨hexp.heap, fun e he => ?_⟩
      have hdue : e ∈ s.due now ↔ (s.hasFlag e wbaEvtlistTimeout && s.isDue now e) = true := by
        rw [due, List.mem_filter, h.timer.mem, Bool.and_eq_true, and_iff_right he]
      constructor
      · intro hyes
        exact hexp.timedOut e (hdue.2 hyes)
      · intro hno
        apply hexp.other e
        rw [hdue, Bool.not_eq_true]
        exact hno

/-- `event_process_timeout` leaves an active event active, and replaces its result if its deadline
has expired. -/
theorem WellFormed.hasResult_eventProcessTimeout (h : WellFormed s active slot)
    (he : e ∈ s.heap) (hactive : s.hasFlag e wbaEvtlistActive = true) :
    (s.eventProcessTimeout K).2.hasFlag e wbaEvtlistActive = true ∧
      HasResult (s.eventProcessTimeout K).2 e
        (if s.expired K e then wbaEvtTimeout else (s.evt e).res) := by
  obtain ⟨hheap, hall⟩ := h.evt_eventProcessTimeout K
  obtain ⟨hyes, hno⟩ := hall e he
  rw [HasResult, hheap]
  cases hexp : s.expired K e with
  | true =>
      have hout := hyes hexp
      refine ⟨hout.active, he, ?_⟩
      rw [hout.eq]
      rfl
  | false =>
      rw [hasFlag, hno hexp]
      exact ⟨hactive, he, rfl⟩

/-- Reports leave the clock and the deadlines alone. -/
theorem expired_congr (honly : ActiveOnly s t) (res : BitVec 16)
    (hevt : t.evt e = activated (s.evt e) res) : t.expired K e = s.expired K e := by
  have hget : (t.eventTimeget K).1 = (s.eventTimeget K).1 := by
    simp only [eventTimeget, honly.kernel]
  have hflag : t.hasFlag e wbaEvtlistTimeout = s.hasFlag e wbaEvtlistTimeout := by
    rw [hasFlag, hasFlag, hevt, hasAny_activated_of_disjoint _ _ (by decide)]
  unfold expired
  rw [hget, hflag]
  cases (s.eventTimeget K).1 with
  | none => rfl
  | some now => simp only [isDue, hevt, activated]

/-- The result with which an event that was reported enters the pass. -/
theorem WellFormed.hasResult_eventCollect (h : WellFormed s active slot)
    {rs : List EpollEvent} (hwait : (s.eventWait K).1 = some rs) {r : BitVec 16}
    (hr : (s.eventWait K).2.reported rs e = some r) :
    ∃ s' active', s.eventCollect K = some s' ∧ Consistent s' active' ∧ e ∈ active' ∧
      HasResult s' e (if (s.eventWait K).2.expired K e then wbaEvtTimeout else r) := by
  obtain ⟨k, hk⟩ := eventWait_eq K s
  have hwf := h.setKernel k
  rw [← hk] at hwf
  obtain ⟨t, fresh, heq, ht, honly, hevt⟩ := hwf.processReports rs
  have he : e ∈ (s.eventWait K).2.heap := by
    unfold reported at hr
    split_ifs at hr with hw
    exact hw.1
  have het : t.evt e = activated ((s.eventWait K).2.evt e) r := by
    rw [hevt, hr]
    rfl
  have hactive : t.hasFlag e wbaEvtlistActive = true := by
    rw [hasFlag, het, hasAny_activated]
  obtain ⟨hactive', hres⟩ := ht.hasResult_eventProcessTimeout K (honly.heap ▸ he) hactive
  obtain ⟨active', slot', ht'⟩ := Consistent.eventProcessTimeout K ⟨slot, ht⟩
  refine ⟨_, active', ?_, ⟨slot', ht'⟩, (ht'.active.mem e).2 ⟨hres.1, hactive'⟩, ?_⟩
  · simp only [WbaEvtbase.eventCollect, hwait, heq, Option.map_some]
  · rw [expired_congr K honly r het, het] at hres
    exact hres

/-- In an iteration from a loop head, the callback of an event that was reported is invoked with
`TIMEOUT` if the deadline of the event had expired, and otherwise with what the first report
for it said, as long as no callback has removed the event before. When the pass is over, the
event has been run once unless the callback of another event removed it. -/
theorem callback_argument {k : κ} (h : LoopHead K k s) {rs : List EpollEvent}
    (hwait : (s.eventWait K).1 = some rs) {r : BitVec 16}
    (hr : (s.eventWait K).2.reported rs e = some r) :
    ∃ s', s.eventCollect K = some s' ∧ ∀ cbs n,
      (∀ pre inv post, (Pass.steps K cbs n (Pass.start s')).trace = pre ++ inv :: post →
        inv.evt = e → (∀ i ∈ pre, ¬ Removed i.calls e) →
        inv.events = if (s.eventWait K).2.expired K e then wbaEvtTimeout else r) ∧
      ((Pass.steps K cbs n (Pass.start s')).Ended →
        ((Pass.steps K cbs n (Pass.start s')).trace.map Invocation.evt).Nodup ∧
        (e ∈ (Pass.steps K cbs n (Pass.start s')).trace.map Invocation.evt ∨
          ∃ i ∈ (Pass.steps K cbs n (Pass.start s')).trace, i.evt ≠ e ∧ Removed i.calls e)) := by
  obtain ⟨slot, hwf⟩ := h.consistent
  obtain ⟨s', active, hcollect, hcons, he, hres⟩ := hwf.hasResult_eventCollect K hwait hr
  refine ⟨s', hcollect, fun cbs n => ⟨fun pre inv post hsplit hinv hpre => ?_, fun hend => ?_⟩⟩
  · have hstart : HasResult (Pass.start s').base e _ := hres
    have htrace : (Pass.steps K cbs n (Pass.start s')).trace =
        (Pass.start s').trace ++ (pre ++ inv :: post) := hsplit
    exact Pass.events_of_trace hstart n htrace rfl hinv hpre
  · obtain ⟨-, tr, htrace, horder⟩ := (Pass.heads_start hcons).of_ended hend
    have htr : (Pass.steps K cbs n (Pass.start s')).trace = tr := htrace
    rw [htr]
    refine ⟨horder.sublist.nodup hcons.nodup, ?_⟩
    obtain ⟨us, vs, hsplit⟩ := List.append_of_mem he
    by_cases hrun : e ∈ tr.map Invocation.evt
    · exact Or.inl hrun
    · rw [horder.skips us e vs hsplit] at hrun
      push Not at hrun
      obtain ⟨i, hi, hus, hrem⟩ := hrun
      refine Or.inr ⟨i, hi, ?_, hrem⟩
      rintro rfl
      have hnodup := hcons.nodup
      rw [hsplit] at hnodup
      exact (RbTree.notMem_of_nodup_middle hnodup).1 hus

/-- No two descriptors of events in the map belong to one slot. -/
def SeparateSlots (s : WbaEvtbase κ) : Prop :=
  ∀ d ∈ s.heap, ∀ e ∈ s.heap, s.InMap d → s.InMap e → s.slotOf d = s.slotOf e →
    (s.evt d).fd = (s.evt e).fd

/-- The callback of every event of the map gets all the bits that a report computed for it, and
`TIMEOUT` exactly if the deadline had expired, as long as no callback has removed the event
before. -/
def ReadinessKept (s : WbaEvtbase κ) : Prop :=
  ∀ rs s', (s.eventWait K).1 = some rs → s.eventCollect K = some s' →
    ∀ e ∈ s.heap, s.InMap e → ∀ r ∈ rs, r.fd = (s.evt e).fd → s.resultOf r e ≠ 0 →
    ∀ cbs n pre inv post, (Pass.steps K cbs n (Pass.start s')).trace = pre ++ inv :: post →
      inv.evt = e → (∀ i ∈ pre, ¬ Removed i.calls e) →
      inv.events &&& s.resultOf r e = s.resultOf r e ∧
        hasAny inv.events wbaEvtTimeout = (s.eventWait K).2.expired K e

/-- A reader with a timeout of no length, whose descriptor is ready. -/
def readyBase : WbaEvtbase SimState :=
  (newBase { reports := [[⟨epollIn, 7⟩]] }).runCalls simKernel
    [.new (some 0) 7 wbaEvtRead (some 1) .null, .add 0 (some ⟨0, 0⟩)]

/-- Callbacks that make no calls. -/
def quiet : Callbacks κ := fun _ _ _ _ _ => []

theorem LoopHead.runCalls {k : κ} (h : LoopHead K k s) (calls : List Call) :
    LoopHead K k (s.runCalls K calls) := by
  induction calls generalizing s with
  | nil => exact h
  | cons c calls ih => exact ih (h.call c)

theorem loopHead_newBase (k : κ) (calls : List Call) :
    LoopHead K k ((newBase k).runCalls K calls) :=
  (LoopHead.new (wbaEvtbaseNew_newBase k)).runCalls K calls

/-- The reader is told of the timeout and not that it can read. -/
theorem not_readinessKept_readyBase :
    LoopHead simKernel { reports := [[⟨epollIn, 7⟩]] } readyBase ∧ SeparateSlots readyBase ∧
      ¬ ReadinessKept simKernel readyBase := by
  refine ⟨loopHead_newBase _ _ _, ?_, ?_⟩
  · intro d hd e he _ _ _
    have hone : ∀ x ∈ readyBase.heap, x = 0 := by decide +kernel
    rw [hone d hd, hone e he]
  · intro hkept
    obtain ⟨s', hs'⟩ : ∃ s', readyBase.eventCollect simKernel = some s' :=
      Option.isSome_iff_exists.1 (by decide +kernel)
    have hrun : (readyBase.eventCollect simKernel).map (fun s' =>
        (Pass.steps simKernel quiet 1 (Pass.start s')).trace.map fun i => (i.evt, i.events)) =
        some [(0, wbaEvtTimeout)] := by
      decide +kernel
    rw [hs', Option.map_some, Option.some_inj, List.map_eq_singleton_iff] at hrun
    obtain ⟨inv, htrace, hinv⟩ := hrun
    obtain ⟨hevt, hevents⟩ := Prod.mk.inj hinv
    have hbits := (hkept [⟨epollIn, 7⟩] s' (by decide +kernel) hs' 0 (by decide +kernel)
      (by decide +kernel) ⟨epollIn, 7⟩ (by simp) (by decide +kernel) (by decide +kernel) quiet 1
      [] inv [] htrace hevt (by simp)).1
    rw [hevents] at hbits
    exact absurd hbits (by decide +kernel)

/-- The callback of the reader is told of the timeout. -/
theorem callback_argument_readyBase :
    ∃ s', readyBase.eventCollect simKernel = some s' ∧ ∀ cbs n pre inv post,
      (Pass.steps simKernel cbs n (Pass.start s')).trace = pre ++ inv :: post → inv.evt = 0 →
      (∀ i ∈ pre, ¬ Removed i.calls 0) → inv.events = wbaEvtTimeout := by
  have hhead : LoopHead simKernel { reports := [[⟨epollIn, 7⟩]] } readyBase :=
    loopHead_newBase _ _ _
  have hwait : (readyBase.eventWait simKernel).1 = some [⟨epollIn, 7⟩] := by decide +kernel
  have hr : (readyBase.eventWait simKernel).2.reported [⟨epollIn, 7⟩] 0 = some wbaEvtRead := by
    decide +kernel
  have hexp : (readyBase.eventWait simKernel).2.expired simKernel 0 = true := by decide +kernel
  obtain ⟨s', hs', hall⟩ := callback_argument simKernel hhead hwait hr
  refine ⟨s', hs', fun cbs n pre inv post htrace hinv hpre => ?_⟩
  have harg := (hall cbs n).1 pre inv post htrace hinv hpre
  rw [hexp, if_pos rfl] at harg
  exact harg

end WbaEvtbase

end Miscellany
