import Miscellany.EventLoop.Effect
import Miscellany.Library.Schedule

/-!
# Persistent timers

A persistent timer is scheduled again in the round of `event_process_active` that runs
its callback: one period after the deadline that has expired, or one period after the
clock reading if that is already past. Over any run of the loop in which no call touches
the timer, its calls form a `Schedule`.

Between its own rounds nothing touches the event (`LeavesAlone`). At a loop head the
timer is `Armed`; once its deadline has expired it is `Ringing` until its round.
-/

namespace Miscellany

open WbaEvtbase

namespace Pass

variable {κ : Type*} {K : Kernel κ} {cbs : Callbacks κ} {last : κ → ℤ} {st : Pass κ} {x : EvtId}
variable {tr pre post : List (Invocation κ)} {inv : Invocation κ} {n : ℕ}

/-- Rounds of other events, whose callbacks leave `x` alone. -/
theorem leavesAlone_steps (hK : SteadyClock K last)
    (htrace : (steps K cbs n st).trace = st.trace ++ tr) (hother : ∀ i ∈ tr, i.evt ≠ x)
    (hcalls : ∀ i ∈ tr, ∀ c ∈ i.calls, ¬ c.Targets x) :
    LeavesAlone last x st.base (steps K cbs n st).base := by
  induction n generalizing st tr with
  | zero => exact LeavesAlone.refl x st.base
  | succ n ih =>
      rcases trace_succ_cases htrace with hstay | ⟨d, -, tr', hbase, -, rfl, htr'⟩
      · rw [steps, hstay] at htrace ⊢
        exact ih htrace hother hcalls
      · rw [List.forall_mem_cons] at hother hcalls
        have hxd : x ≠ d := Ne.symm hother.1
        have hround := leavesAlone_roundBase hK.grows cbs st.base hxd hcalls.1
        rw [← hbase] at hround
        exact hround.trans (ih htr' hother.2 hcalls.2)

/-- The round in which an invocation of the trace was made. -/
theorem exists_round (htrace : (steps K cbs n st).trace = st.trace ++ tr)
    (hsplit : tr = pre ++ inv :: post) :
    ∃ m j, (steps K cbs m st).trace = st.trace ++ pre ∧
      inv = ((steps K cbs m st).base.eventProcessActiveBody K inv.evt).invocation cbs inv.evt ∧
      (steps K cbs (m + 1) st).base = (steps K cbs m st).base.roundBase K cbs inv.evt ∧
      (steps K cbs (m + 1) st).trace = st.trace ++ (pre ++ [inv]) ∧ n = m + 1 + j := by
  induction n generalizing st tr pre with
  | zero =>
      have hnil : tr = [] := by simpa [steps] using htrace
      simp [hnil] at hsplit
  | succ n ih =>
      rcases trace_succ_cases htrace with hstay | ⟨d, -, tr', hbase, hone, rfl, htr'⟩
      · rw [steps, hstay] at htrace
        obtain ⟨m, j, hm, hinv, hround, hafter, hn⟩ := ih htrace hsplit
        exact ⟨m, j + 1, hm, hinv, hround, hafter, by omega⟩
      · cases pre with
        | nil =>
            obtain ⟨rfl, -⟩ := List.cons.inj hsplit
            exact ⟨0, n, by simp [steps], rfl, hbase, hone, by omega⟩
        | cons i pre =>
            obtain ⟨rfl, hrest⟩ := List.cons.inj hsplit
            obtain ⟨m, j, hm, hinv, hround, hafter, hn⟩ := ih htr' hrest
            refine ⟨m + 1, j, ?_, hinv, hround, ?_, by omega⟩
            · rw [steps, hm, hone, List.append_assoc, List.singleton_append]
            · rw [steps, hafter, hone, List.append_assoc, List.singleton_append, List.cons_append]

end Pass

namespace WbaEvtbase

variable {κ : Type*} {K : Kernel κ} {last : κ → ℤ}
variable {s t : WbaEvtbase κ} {active : List EvtId} {slot : ℕ → List EvtId} {x : EvtId}
variable {period deadline : Timeval}

/-! ### Scheduling a timer -/

/-- An event without a descriptor is registered without a call of the kernel. -/
theorem eventAdd_timer (hx : x ∈ s.heap) (hfd : (s.evt x).fd = -1) (tv : Timeval) (abs : Bool) :
    (s.eventAdd K x (some tv) abs).2 =
      (((s.setFlags x wbaEvtlistReg).eventRemoveTimeout x).eventSetTimeout K x tv
        abs).eventAddTimeout x := by
  have hreg : s.eventAddReg K x = (0, s.setFlags x wbaEvtlistReg) := by
    simp [eventAddReg, eventMapAdd, hfd]
  simp [eventAdd, hx, hreg, eventRemoveTimeout_guard]

/-- The event `x` is a persistent timer with the given period and deadline. -/
structure Timer (s : WbaEvtbase κ) (x : EvtId) (period deadline : Timeval) : Prop where
  mem : x ∈ s.heap
  fd : (s.evt x).fd = -1
  persist : s.hasEvent x wbaEvtPersist = true
  timeout : (s.evt x).timeout = period
  evtTimeout : (s.evt x).evtTimeout = deadline

/-- Whether an event is a timer does not depend on its flags and its result. -/
theorem Timer.congr (h : Timer s x period deadline) (hmem : x ∈ t.heap)
    (hevt : t.evt x = { s.evt x with flags := (t.evt x).flags, res := (t.evt x).res }) :
    Timer t x period deadline := by
  refine ⟨hmem, ?_, ?_, ?_, ?_⟩
  · rw [hevt, h.fd]
  · rw [hasEvent, hevt]
    exact h.persist
  · rw [hevt, h.timeout]
  · rw [hevt, h.evtTimeout]

theorem Timer.of_leavesAlone (h : Timer s x period deadline) (ht : LeavesAlone last x s t) :
    Timer t x period deadline :=
  h.congr (ht.heap h.mem) (by rw [ht.evt h.mem])

theorem Timer.of_flagsOnly (h : Timer s x period deadline) (ht : FlagsOnly x s t) :
    Timer t x period deadline :=
  h.congr (ht.1 ▸ h.mem) (by rw [ht.evt_self])

/-- Scheduling a timer for the absolute time `next`. -/
theorem Timer.eventAdd_absolute (h : Timer s x period deadline) (next : Timeval) :
    Timer (s.eventAdd K x (some next) true).2 x period next ∧
      (s.eventAdd K x (some next) true).2.hasFlag x wbaEvtlistTimeout = true ∧
      (s.eventAdd K x (some next) true).2.kernel = s.kernel := by
  have hflags := h.of_flagsOnly ((flagsOnly_setFlags s x wbaEvtlistReg).trans
    (flagsOnly_eventRemoveTimeout _ x))
  rw [eventAdd_timer h.mem h.fd]
  refine ⟨?_, hasFlag_eventAddTimeout _ x, ?_⟩
  · refine Timer.of_flagsOnly ?_ (flagsOnly_eventAddTimeout _ x)
    refine ⟨hflags.mem, ?_, ?_, ?_, ?_⟩
    · simpa [eventSetTimeout] using hflags.fd
    · simpa [eventSetTimeout, hasEvent] using hflags.persist
    · simpa [eventSetTimeout] using hflags.timeout
    · simp [eventSetTimeout]
  · rw [eventAddTimeout_kernel]
    exact eventRemoveTimeout_kernel _ x

/-- Setting the period of a timer sets its deadline to one period from now. -/
theorem Timer.eventSetTimeout_relative (hK : SteadyClock K last) {old : Timeval}
    (h : Timer s x old deadline) (hnorm : period.Normalised) :
    ∃ next, next.Normalised ∧ Timer (s.eventSetTimeout K x period false) x period next := by
  set u := s.modifyEvt x fun v => { v with timeout := period } with hu
  obtain ⟨hnow, -, -⟩ := SteadyClock.eventTimegetNow hK u
  have hset : s.eventSetTimeout K x period false = (u.eventTimegetNow K).2.modifyEvt x
      fun v => { v with evtTimeout := eventTimeadd (u.eventTimegetNow K).1 period } := by
    rw [eventSetTimeout, h.persist]
    rfl
  have hevt : (u.eventTimegetNow K).2.evt x = { s.evt x with timeout := period } := by
    change u.evt x = _
    rw [hu, modifyEvt_evt_self]
  refine ⟨eventTimeadd (u.eventTimegetNow K).1 period, eventTimeadd_normalised hnow hnorm, ?_⟩
  rw [hset]
  refine ⟨h.mem, ?_, ?_, ?_, ?_⟩
  · rw [modifyEvt_evt_self, hevt, h.fd]
  · rw [hasEvent, modifyEvt_evt_self, hevt]
    exact h.persist
  · rw [modifyEvt_evt_self, hevt]
  · rw [modifyEvt_evt_self]

/-- Adding a persistent timer with a period, for the first time or again. -/
theorem timer_wbaEventAdd (hK : SteadyClock K last) (hx : x ∈ s.heap) (hfd : (s.evt x).fd = -1)
    (hpersist : s.hasEvent x wbaEvtPersist = true) (hnorm : period.Normalised)
    (hsec : 0 ≤ period.tvSec) :
    ∃ deadline, deadline.Normalised ∧
      Timer (s.wbaEventAdd K x (some period)).2 x period deadline ∧
      (s.wbaEventAdd K x (some period)).2.hasFlag x wbaEvtlistTimeout = true := by
  have hadd : s.wbaEventAdd K x (some period) = s.eventAdd K x (some period) false := by
    have husec : 0 ≤ period.tvUsec := hnorm.1
    rw [wbaEventAdd, if_neg (by omega)]
  have htimer : Timer s x (s.evt x).timeout (s.evt x).evtTimeout := ⟨hx, hfd, hpersist, rfl, rfl⟩
  have hflags := htimer.of_flagsOnly ((flagsOnly_setFlags s x wbaEvtlistReg).trans
    (flagsOnly_eventRemoveTimeout _ x))
  obtain ⟨next, hnext, hset⟩ := hflags.eventSetTimeout_relative hK hnorm
  rw [hadd, eventAdd_timer hx hfd]
  exact ⟨next, hnext, hset.of_flagsOnly (flagsOnly_eventAddTimeout _ x),
    hasFlag_eventAddTimeout _ x⟩

/-! ### The round of a timer -/

/-- The timer has expired and is to be run: its deadline is not after the last reading. -/
structure Ringing (last : κ → ℤ) (s : WbaEvtbase κ) (x : EvtId) (period deadline : Timeval) :
    Prop where
  timer : Timer s x period deadline
  res : (s.evt x).res = wbaEvtTimeout
  due : deadline.micros ≤ last s.kernel

theorem Ringing.of_leavesAlone (h : Ringing last s x period deadline)
    (ht : LeavesAlone last x s t) : Ringing last t x period deadline := by
  refine ⟨h.timer.of_leavesAlone ht, ?_, h.due.trans ht.clock⟩
  rw [ht.evt h.timer.mem, h.res]

/-- The deadline that a timer is scheduled for, in microseconds. -/
theorem micros_nextDeadline {v : WbaEvt} (now : Timeval) (hres : v.res = wbaEvtTimeout)
    (htimeout : v.timeout.Normalised) (hdeadline : v.evtTimeout.Normalised)
    (hnow : now.Normalised) :
    (nextDeadline v now).Normalised ∧
      (nextDeadline v now).micros = catchUp v.timeout.micros v.evtTimeout.micros now.micros := by
  have hany : hasAny v.res wbaEvtTimeout = true := by
    rw [hres]
    decide
  have hsum := eventTimeadd_normalised hdeadline htimeout
  have hlt := key_lt_iff_micros hsum hnow
  rw [← eventTimecmp_neg_iff, micros_eventTimeadd] at hlt
  simp only [nextDeadline, hany, if_true, catchUp]
  by_cases hlate : v.evtTimeout.micros + v.timeout.micros < now.micros
  · rw [if_pos (hlt.2 hlate), if_pos hlate, micros_eventTimeadd]
    exact ⟨eventTimeadd_normalised hnow htimeout, rfl⟩
  · rw [if_neg (fun hneg => hlate (hlt.1 hneg)), if_neg hlate, micros_eventTimeadd]
    exact ⟨hsum, rfl⟩

/-- The round of a timer schedules it again before its callback starts. -/
theorem Ringing.eventProcessActiveBody (hK : SteadyClock K last)
    (h : Ringing last s x period deadline) (hnorm : period.Normalised)
    (hpos : 0 < period.micros) (hdeadline : deadline.Normalised) :
    ∃ next, next.Normalised ∧ Timer (s.eventProcessActiveBody K x) x period next ∧
      (s.eventProcessActiveBody K x).hasFlag x wbaEvtlistTimeout = true ∧
      deadline.micros ≤ last (s.eventProcessActiveBody K x).kernel ∧
      next.micros = catchUp period.micros deadline.micros
        (last (s.eventProcessActiveBody K x).kernel) := by
  have hremove := flagsOnly_eventRemoveActive s x
  have htimer := h.timer.of_flagsOnly hremove
  have hbody : s.eventProcessActiveBody K x = (s.eventRemoveActive x).eventReschedule K x := by
    rw [WbaEvtbase.eventProcessActiveBody, if_pos h.timer.persist]
  have hnonzero : period.tvSec ≠ 0 ∨ period.tvUsec ≠ 0 := by
    by_contra hzero
    rw [not_or, not_not, not_not] at hzero
    simp [Timeval.micros, hzero] at hpos
  set u := s.eventRemoveActive x with hu
  obtain ⟨hnow, hle, hlast⟩ := SteadyClock.eventTimegetNow hK u
  have hclock : Timer (u.eventTimegetNow K).2 x period deadline :=
    ⟨htimer.mem, htimer.fd, htimer.persist, htimer.timeout, htimer.evtTimeout⟩
  have hres : ((u.eventTimegetNow K).2.evt x).res = wbaEvtTimeout := by
    change (u.evt x).res = wbaEvtTimeout
    rw [hremove.evt_self]
    exact h.res
  have hevt : (u.eventTimegetNow K).2.evt = u.evt := rfl
  obtain ⟨hnext, hmicros⟩ := micros_nextDeadline (u.eventTimegetNow K).1 hres
    (by rw [hclock.timeout]; exact hnorm) (by rw [hclock.evtTimeout]; exact hdeadline) hnow
  rw [hclock.timeout, hclock.evtTimeout] at hmicros
  obtain ⟨hadd, hflag, hkernel⟩ := hclock.eventAdd_absolute (K := K)
    (nextDeadline ((u.eventTimegetNow K).2.evt x) (u.eventTimegetNow K).1)
  rw [hbody, eventReschedule, htimer.timeout, if_pos hnonzero]
  refine ⟨_, hnext, hadd, hflag, ?_, ?_⟩
  · rw [hkernel, hlast]
    refine le_trans ?_ hle
    rw [hu, eventRemoveActive_kernel]
    exact h.due
  · rw [hkernel, hlast, hmicros]

/-! ### An iteration -/

/-- At a loop head, the timer is in the time tree. -/
structure Armed (s : WbaEvtbase κ) (x : EvtId) (period deadline : Timeval) : Prop where
  consistent : Consistent s []
  timer : Timer s x period deadline
  flag : s.hasFlag x wbaEvtlistTimeout = true
  normalised : deadline.Normalised

/-- When the events have been collected, a timer has either expired, or it is as it was and not
active. -/
theorem Armed.eventCollect (hK : SteadyClock K last) (h : Armed s x period deadline)
    {s' : WbaEvtbase κ} (hcollect : s.eventCollect K = some s') :
    ∃ active, Consistent s' active ∧
      (x ∈ active ∧ Ringing last s' x period deadline ∨
        x ∉ active ∧ Timer s' x period deadline ∧ s'.hasFlag x wbaEvtlistTimeout = true) := by
  obtain ⟨rs, t, -, hreports, rfl⟩ := eventCollect_eq_some K hcollect
  obtain ⟨k, hwait⟩ := eventWait_eq K s
  obtain ⟨slot, hwf⟩ := h.consistent
  rw [hwait] at hreports
  obtain ⟨t', fresh, heq, ht, honly, hevt⟩ := (hwf.setKernel k).processReports rs
  obtain rfl : t' = t := Option.some.inj (heq.symm.trans hreports)
  have hquiet : s.hasFlag x wbaEvtlistActive = false := by
    rw [← Bool.not_eq_true]
    intro hset
    simpa using (hwf.active.mem x).2 ⟨h.timer.mem, hset⟩
  -- No report reaches an event without a descriptor.
  have hx : t'.evt x = s.evt x := by
    have hnot : ¬ ({ s with kernel := k } : WbaEvtbase κ).Waiting x := by
      rintro ⟨-, ⟨-, hfd, -⟩, -⟩
      have hneg : (s.evt x).fd = -1 := h.timer.fd
      change 0 ≤ (s.evt x).fd at hfd
      omega
    rw [hevt x, reported, if_neg hnot]
    rfl
  have hmem : x ∈ t'.heap := honly.heap ▸ h.timer.mem
  obtain ⟨now, hnow, hnowNorm, -, -⟩ := SteadyClock.eventTimeget hK t'
  have hclock := notBefore_eventProcessTimeout hK t' hnow
  obtain ⟨u, hu, hwf', hexp⟩ := ht.eventProcessTimeout K hnow
  rw [hu] at hclock ⊢
  have hdue : x ∈ t'.due now ↔ t'.isDue now x = true := by
    rw [due, List.mem_filter, ht.timer.mem, hasFlag, hx, ← hasFlag, h.flag]
    simp [hmem]
  refine ⟨_, ⟨_, hwf'⟩, ?_⟩
  by_cases hring : x ∈ t'.due now
  · refine Or.inl ⟨List.mem_append_right _ hring, ?_⟩
    have hout := (hexp.timedOut x hring).eq
    rw [hx] at hout
    refine ⟨h.timer.congr (hexp.heap ▸ hmem) (by rw [hout]), by rw [hout], le_trans ?_ hclock⟩
    rw [hdue, isDue_iff, hx, h.timer.evtTimeout] at hring
    rw [← not_lt, key_lt_iff_micros hnowNorm h.normalised] at hring
    exact not_lt.1 hring
  · have hsame : u.evt x = s.evt x := (hexp.other x hring).trans hx
    refine Or.inr ⟨fun hactive => ?_, h.timer.congr (hexp.heap ▸ hmem) (by rw [hsame]), ?_⟩
    · have hset := ((hwf'.active.mem x).1 hactive).2
      rw [hasFlag, hsame, ← hasFlag, hquiet] at hset
      exact absurd hset Bool.false_ne_true
    · rw [hasFlag, hsame]
      exact h.flag

/-- The invocations of the callback of `x`. -/
def callsOf (x : EvtId) (tr : List (Invocation κ)) : List (Invocation κ) :=
  tr.filter fun inv => decide (inv.evt = x)

theorem callsOf_eq_nil {tr : List (Invocation κ)} (hx : x ∉ tr.map Invocation.evt) :
    callsOf x tr = [] := by
  rw [callsOf, List.filter_eq_nil_iff]
  intro inv hinv
  rw [decide_eq_true_iff]
  rintro rfl
  exact hx (List.mem_map_of_mem hinv)

theorem callsOf_eq_singleton {pre post : List (Invocation κ)} {inv : Invocation κ}
    (hinv : inv.evt = x) (hpre : ∀ i ∈ pre, i.evt ≠ x) (hpost : ∀ i ∈ post, i.evt ≠ x) :
    callsOf x (pre ++ inv :: post) = [inv] := by
  have hnil : ∀ l : List (Invocation κ), (∀ i ∈ l, i.evt ≠ x) →
      l.filter (fun inv => decide (inv.evt = x)) = [] := by
    intro l hl
    rw [List.filter_eq_nil_iff]
    intro i hi
    rw [decide_eq_true_iff]
    exact hl i hi
  rw [callsOf, List.filter_append, List.filter_cons_of_pos (by simp [hinv]), hnil pre hpre,
    hnil post hpost, List.nil_append]

section Iterate

variable {cbs : Callbacks κ} {s' : WbaEvtbase κ} {tr : List (Invocation κ)} {fuel cnt : ℕ}

/-- A pass in which the timer is not active. -/
theorem Armed.skip (hK : SteadyClock K last) (hcons : Consistent s' active) (hx : x ∉ active)
    (htimer : Timer s' x period deadline) (hflag : s'.hasFlag x wbaEvtlistTimeout = true)
    (hdeadline : deadline.Normalised)
    (hrun : s'.eventProcessActive K cbs fuel = some (cnt, t, tr))
    (hcalls : ∀ inv ∈ tr, ∀ c ∈ inv.calls, ¬ c.Targets x) :
    callsOf x tr = [] ∧ Armed t x period deadline := by
  obtain ⟨hend, rfl, rfl⟩ := eventProcessActive_eq_some K hrun
  obtain ⟨ht, tr, htrace, horder⟩ := (Pass.heads_start hcons).of_ended hend
  have htr : (Pass.steps K cbs fuel (Pass.start s')).trace = tr := htrace
  have hnot : x ∉ tr.map Invocation.evt := fun hmem => hx (horder.sublist.subset hmem)
  have hother : ∀ i ∈ tr, i.evt ≠ x := by
    rintro i hi rfl
    exact hnot (List.mem_map_of_mem hi)
  rw [htr] at hcalls ⊢
  have halone := Pass.leavesAlone_steps hK htrace hother hcalls
  refine ⟨callsOf_eq_nil hnot, ht, htimer.of_leavesAlone halone, ?_, hdeadline⟩
  rw [hasFlag, halone.evt htimer.mem]
  exact hflag

/-- A pass in which the timer is active: it is run once and scheduled again. -/
theorem Ringing.run (hK : SteadyClock K last) (hcons : Consistent s' active) (hx : x ∈ active)
    (hring : Ringing last s' x period deadline) (hnorm : period.Normalised)
    (hpos : 0 < period.micros) (hdeadline : deadline.Normalised)
    (hrun : s'.eventProcessActive K cbs fuel = some (cnt, t, tr))
    (hcalls : ∀ inv ∈ tr, ∀ c ∈ inv.calls, ¬ c.Targets x) :
    ∃ inv next, callsOf x tr = [inv] ∧ deadline.micros ≤ last inv.base.kernel ∧
      (inv.base.evt x).evtTimeout = next ∧
      next.micros = catchUp period.micros deadline.micros (last inv.base.kernel) ∧
      Armed t x period next := by
  obtain ⟨hend, rfl, rfl⟩ := eventProcessActive_eq_some K hrun
  obtain ⟨ht, tr, htrace, horder⟩ := (Pass.heads_start hcons).of_ended hend
  have htr : (Pass.steps K cbs fuel (Pass.start s')).trace = tr := htrace
  rw [htr] at hcalls ⊢
  have hmem : x ∈ tr.map Invocation.evt := by
    obtain ⟨us, vs, hsplit⟩ := List.append_of_mem hx
    rw [horder.skips us x vs hsplit]
    rintro i hi - ⟨c, hc, hrem⟩
    exact hcalls i hi c hc (Call.Targets.of_removes hrem)
  obtain ⟨inv, hinv, hevt⟩ := List.mem_map.1 hmem
  obtain ⟨pre, post, hsplit⟩ := List.append_of_mem hinv
  have hnodup : (tr.map Invocation.evt).Nodup := horder.sublist.nodup hcons.nodup
  rw [hsplit, List.map_append, List.map_cons, hevt] at hnodup
  obtain ⟨hpre, hpost⟩ := RbTree.notMem_of_nodup_middle hnodup
  have hpre' : ∀ i ∈ pre, i.evt ≠ x := fun i hi heq => hpre (heq ▸ List.mem_map_of_mem hi)
  have hpost' : ∀ i ∈ post, i.evt ≠ x := fun i hi heq => hpost (heq ▸ List.mem_map_of_mem hi)
  have hcallsInv := hcalls inv hinv
  rw [hsplit] at hcalls
  obtain ⟨m, j, hbefore, hround, hbase, hafter, rfl⟩ := Pass.exists_round htrace hsplit
  rw [hevt] at hround hbase
  -- Up to the round of the timer nothing touches it.
  have hring' := hring.of_leavesAlone (Pass.leavesAlone_steps hK hbefore hpre'
    fun i hi => hcalls i (List.mem_append_left _ hi))
  obtain ⟨next, hnext, htimer, hflag, hdue, hmicros⟩ :=
    hring'.eventProcessActiveBody hK hnorm hpos hdeadline
  have hinvBase : inv.base =
      (Pass.steps K cbs m (Pass.start s')).base.eventProcessActiveBody K x := by
    rw [hround]
    rfl
  have hroundCalls : (Pass.steps K cbs m (Pass.start s')).base.roundCalls K cbs x = inv.calls := by
    rw [hround]
    rfl
  -- Neither does its own callback, nor any later round.
  have hown : LeavesAlone last x inv.base (Pass.steps K cbs (m + 1) (Pass.start s')).base := by
    rw [hbase, roundBase, hroundCalls, ← hinvBase]
    exact leavesAlone_runCalls hK.grows _ hcallsInv
  have hlater : LeavesAlone last x (Pass.steps K cbs (m + 1) (Pass.start s')).base
      (Pass.steps K cbs (m + 1 + j) (Pass.start s')).base := by
    have hrest : (Pass.steps K cbs j (Pass.steps K cbs (m + 1) (Pass.start s'))).trace =
        (Pass.steps K cbs (m + 1) (Pass.start s')).trace ++ post := by
      rw [← Pass.steps_add, htrace, hafter, hsplit]
      simp
    rw [Pass.steps_add (m + 1) j]
    exact Pass.leavesAlone_steps hK hrest hpost' fun i hi =>
      hcalls i (List.mem_append_right _ (List.mem_cons_of_mem _ hi))
  rw [← hinvBase] at htimer hflag hdue hmicros
  have halone := hown.trans hlater
  refine ⟨inv, next, ?_, hdue, htimer.evtTimeout, hmicros, ht, htimer.of_leavesAlone halone, ?_,
    hnext⟩
  · rw [hsplit]
    exact callsOf_eq_singleton hevt hpre' hpost'
  · rw [hasFlag, halone.evt htimer.mem]
    exact hflag

end Iterate

/-! ### Runs -/

/-- Iterations of the loop, with the invocations of each, between which the main program may make
calls; neither these nor the callbacks make a call on `x`. -/
inductive Iterations (K : Kernel κ) (x : EvtId) :
    WbaEvtbase κ → List (List (Invocation κ)) → WbaEvtbase κ → Prop where
  | refl (s : WbaEvtbase κ) : Iterations K x s [] s
  | call {s t : WbaEvtbase κ} {trs : List (List (Invocation κ))} {c : Call} (hc : ¬ c.Targets x)
      (hrest : Iterations K x (s.runCall K c) trs t) : Iterations K x s trs t
  | iterate {s s' t u : WbaEvtbase κ} {trs : List (List (Invocation κ))} (cbs : Callbacks κ)
      (hcollect : s.eventCollect K = some s') {fuel cnt : ℕ} {tr : List (Invocation κ)}
      (hrun : s'.eventProcessActive K cbs fuel = some (cnt, t, tr))
      (hcalls : ∀ inv ∈ tr, ∀ c ∈ inv.calls, ¬ c.Targets x)
      (hrest : Iterations K x t trs u) : Iterations K x s (tr :: trs) u

/-- The callbacks make calls on their own event only. -/
def OwnOnly (cbs : Callbacks κ) : Prop :=
  ∀ (s : WbaEvtbase κ) (e : EvtId), ∀ c ∈ (s.invocation cbs e).calls, ∀ d, c.Targets d → d = e

theorem OwnOnly.removesOwn {cbs : Callbacks κ} (h : OwnOnly cbs) : RemovesOwn cbs :=
  fun s e c hc d hd => h s e c hc d (Call.Targets.of_removes hd)

/-- With such callbacks every iteration comes to its end. -/
theorem OwnOnly.eventProcessActive {cbs : Callbacks κ} (hown : OwnOnly cbs) {k : κ}
    (h : LoopHead K k s) {s' : WbaEvtbase κ} (hcollect : s.eventCollect K = some s') :
    ∃ fuel cnt t tr, s'.eventProcessActive K cbs fuel = some (cnt, t, tr) := by
  obtain ⟨active, hcons⟩ := h.consistent.eventCollect K hcollect
  exact hown.removesOwn.eventProcessActive hcons

/-- What a call of the timer is in its schedule: the last clock reading before the callback and
the deadline that has been set for the next call. -/
def runOf (last : κ → ℤ) (x : EvtId) (inv : Invocation κ) : ℤ × ℤ :=
  (last inv.base.kernel, (inv.base.evt x).evtTimeout.micros)

theorem Armed.runCall (hK : SteadyClock K last) (h : Armed s x period deadline) {c : Call}
    (hc : ¬ c.Targets x) : Armed (s.runCall K c) x period deadline := by
  have halone := leavesAlone_runCall hK.grows s hc
  have hcons := h.consistent.runCall_nil K c
  refine ⟨hcons, h.timer.of_leavesAlone halone, ?_, h.normalised⟩
  rw [hasFlag, halone.evt h.timer.mem]
  exact h.flag

/-- The calls of a timer form a schedule, with at most one call in an iteration. -/
theorem Armed.iterations (hK : SteadyClock K last) (h : Armed s x period deadline)
    (hnorm : period.Normalised) (hpos : 0 < period.micros) {trs : List (List (Invocation κ))}
    (hrun : Iterations K x s trs t) :
    (∀ tr ∈ trs, (callsOf x tr).length ≤ 1) ∧
      Schedule period.micros deadline.micros ((callsOf x trs.flatten).map (runOf last x)) := by
  induction hrun generalizing deadline with
  | refl s => exact ⟨by simp, Schedule.nil _⟩
  | call hc hrest ih => exact ih (h.runCall hK hc)
  | @iterate s s' t u trs cbs hcollect fuel cnt tr hrun hcalls hrest ih =>
      have hsplit : callsOf x (tr :: trs).flatten = callsOf x tr ++ callsOf x trs.flatten := by
        rw [callsOf, List.flatten_cons, List.filter_append]
        rfl
      obtain ⟨active, hcons, ⟨hx, hring⟩ | ⟨hx, htimer, hflag⟩⟩ := h.eventCollect hK hcollect
      · obtain ⟨inv, next, hone, hdue, hevt, hmicros, ht⟩ :=
          hring.run hK hcons hx hnorm hpos h.normalised hrun hcalls
        obtain ⟨honce, hsched⟩ := ih ht
        refine ⟨List.forall_mem_cons.2 ⟨by simp [hone], honce⟩, ?_⟩
        have hrunOf : runOf last x inv = (last inv.base.kernel,
            catchUp period.micros deadline.micros (last inv.base.kernel)) := by
          rw [runOf, hevt, hmicros]
        rw [hsplit, hone, List.singleton_append, List.map_cons, hrunOf]
        rw [hmicros] at hsched
        exact Schedule.cons hdue hsched
      · obtain ⟨hnone, ht⟩ := Armed.skip hK hcons hx htimer hflag h.normalised hrun hcalls
        obtain ⟨honce, hsched⟩ := ih ht
        refine ⟨List.forall_mem_cons.2 ⟨by simp [hnone], honce⟩, ?_⟩
        rw [hsplit, hnone, List.nil_append]
        exact hsched

/-- The deadlines of the timer `x`: the first one, and those that are set in the given calls. -/
def deadlines (first : ℤ) (x : EvtId) (calls : List (Invocation κ)) : List ℤ :=
  first :: calls.map fun inv => (inv.base.evt x).evtTimeout.micros

/-- A persistent timer with the period `period` is called at most once in an iteration. Its call
number `i`, counted from 0, comes `i` periods after the first deadline or later. Each deadline
is at least one period after the one before, and the deadline that is set in call number `i`
is exactly `i + 1` periods after the first one if and only if no call so far was later than
the nominal deadline of the next one. -/
theorem persistent_timer (hK : SteadyClock K last) {k : κ} (h : LoopHead K k s) (hx : x ∈ s.heap)
    (hfd : (s.evt x).fd = -1) (hpersist : s.hasEvent x wbaEvtPersist = true)
    (hnorm : period.Normalised) (hsec : 0 ≤ period.tvSec) (hpos : 0 < period.micros)
    {trs : List (List (Invocation κ))}
    (hrun : Iterations K x (s.wbaEventAdd K x (some period)).2 trs t) {first : ℤ}
    (hfirst : ((s.wbaEventAdd K x (some period)).2.evt x).evtTimeout.micros = first) :
    (∀ tr ∈ trs, (callsOf x tr).length ≤ 1) ∧
      ∀ (i : ℕ) (inv : Invocation κ), (callsOf x trs.flatten)[i]? = some inv →
        first + i * period.micros ≤ last inv.base.kernel ∧
        (∀ d, (deadlines first x (callsOf x trs.flatten))[i]? = some d →
          d ≤ last inv.base.kernel ∧
          d + period.micros ≤ (inv.base.evt x).evtTimeout.micros) ∧
        ((inv.base.evt x).evtTimeout.micros = first + (i + 1) * period.micros ↔
          ∀ j : ℕ, j ≤ i → ∀ inv' : Invocation κ, (callsOf x trs.flatten)[j]? = some inv' →
            last inv'.base.kernel ≤ first + (j + 1) * period.micros) := by
  obtain ⟨deadline, hdeadline, htimer, hflag⟩ :=
    timer_wbaEventAdd hK hx hfd hpersist hnorm hsec
  have harmed : Armed _ x period deadline :=
    ⟨h.consistent.wbaEventAdd K x (some period), htimer, hflag, hdeadline⟩
  obtain rfl : deadline.micros = first := by rw [← hfirst, htimer.evtTimeout]
  obtain ⟨honce, hsched⟩ := harmed.iterations hK hnorm hpos hrun
  refine ⟨honce, fun i inv hinv => ?_⟩
  have hi : ((callsOf x trs.flatten).map (runOf last x))[i]? =
      some (last inv.base.kernel, (inv.base.evt x).evtTimeout.micros) := by
    rw [List.getElem?_map, hinv]
    rfl
  refine ⟨(hsched.nominal_le hpos.le hi).1, fun d hd => hsched.consecutive hpos.le hi ?_, ?_⟩
  · rw [List.map_map]
    exact hd
  · rw [hsched.nominal_iff hpos.le hi]
    constructor
    · intro hall j hj inv' hinv'
      refine hall j hj (runOf last x inv') ?_
      rw [List.getElem?_map, hinv']
      rfl
    · intro hall j hj run hrun'
      rw [List.getElem?_map, Option.map_eq_some_iff] at hrun'
      obtain ⟨inv', hinv', rfl⟩ := hrun'
      exact hall j hj inv' hinv'

theorem steadyClock_simKernel : SteadyClock simKernel fun k => (k.now : ℤ) := by
  refine ⟨fun k => ⟨_, rfl, ?_, ?_, ?_, ?_⟩, fun k fd m => ?_, fun k fd => ?_,
    fun k n timeout => rfl⟩
  · simp only
    omega
  · simp only
    omega
  · simp only
    push_cast
    omega
  · simp only [simKernel]
    push_cast
    omega
  · simp only [simKernel]
    split_ifs <;> rfl
  · simp only [simKernel]
    split_ifs <;> rfl

/-- A base with a persistent timer that has not been added yet, and a clock that advances by three
microseconds at each reading. -/
def periodicBase : WbaEvtbase SimState :=
  (newBase { tick := 3 }).runCalls simKernel [.new (some 0) (-1) wbaEvtPersist (some 1) .null]

/-- With a period of five microseconds, the first deadline is 8. The timer is called at the
reading 12 and scheduled for 13. -/
theorem persistent_timer_periodicBase :
    ∃ trs t inv,
      Iterations simKernel 0 (periodicBase.wbaEventAdd simKernel 0 (some ⟨0, 5⟩)).2 trs t ∧
      (callsOf 0 trs.flatten)[0]? = some inv ∧ inv.base.kernel.now = 12 ∧
      (inv.base.evt 0).evtTimeout.micros = 8 + 5 := by
  obtain ⟨s', hs'⟩ : ∃ s', (periodicBase.wbaEventAdd simKernel 0 (some ⟨0, 5⟩)).2.eventCollect
      simKernel = some s' := Option.isSome_iff_exists.1 (by decide +kernel)
  have htrace : ((periodicBase.wbaEventAdd simKernel 0 (some ⟨0, 5⟩)).2.eventCollect
      simKernel).bind (fun s' => (s'.eventProcessActive simKernel quiet 1).map fun r =>
        r.2.2.map fun i => (i.evt, i.calls, i.base.kernel.now)) = some [(0, [], 12)] := by
    decide +kernel
  rw [hs', Option.bind_some, Option.map_eq_some_iff] at htrace
  obtain ⟨⟨cnt, t, tr⟩, hrun, htr⟩ := htrace
  rw [List.map_eq_singleton_iff] at htr
  obtain ⟨inv, rfl, hinv⟩ := htr
  simp only [Prod.mk.injEq] at hinv
  obtain ⟨hevt, hcalls, hnow⟩ := hinv
  have hiter : Iterations simKernel 0 (periodicBase.wbaEventAdd simKernel 0 (some ⟨0, 5⟩)).2
      [[inv]] t :=
    Iterations.iterate quiet hs' hrun (by simp [hcalls]) (Iterations.refl t)
  have hhead : LoopHead simKernel { tick := 3 } periodicBase := loopHead_newBase _ _ _
  have hcall : (callsOf 0 [[inv]].flatten)[0]? = some inv := by simp [callsOf, hevt]
  have hfirst : ((periodicBase.wbaEventAdd simKernel 0 (some ⟨0, 5⟩)).2.evt 0).evtTimeout.micros =
      8 := by decide +kernel
  obtain ⟨-, hall⟩ := persistent_timer steadyClock_simKernel hhead (by decide +kernel)
    (by decide +kernel) (by decide +kernel) (by decide) (by decide) (by decide) hiter hfirst
  have hnominal := (hall 0 inv hcall).2.2.2 fun j hj inv' hinv' => by
    obtain rfl : j = 0 := by omega
    obtain rfl : inv = inv' := by rw [hcall] at hinv'; exact Option.some.inj hinv'
    rw [hnow]
    decide
  exact ⟨[[inv]], t, inv, hiter, hcall, hnow, hnominal.trans (by decide)⟩

end WbaEvtbase

end Miscellany
