import Miscellany.EventLoop.Persistent
import Miscellany.EventLoop.Timers

/-!
# What a deadline denotes

`wba_event_add` adds the timeout to a reading of the clock with `event_timeadd`, which
carries at most one second, and accepts any `tv_usec` that is not negative. The deadline
always denotes the requested number of microseconds, but it is normalised only if the
microseconds of the clock and of the timeout are less than two seconds together. For
every reading of the clock this is so when `tv_usec` is at most a second; in a run that
keeps to such timeouts all deadlines are normalised, those of the persistent events that
are scheduled again included, and the time tree is in the order of real time.

The fields of a `struct timeval` are integers here, so no sum overflows.
-/

namespace Miscellany

open WbaEvtbase Timeval

/-! ### Adding times -/

/-- One carry is enough exactly when the microseconds are less than two seconds. -/
theorem normalised_eventTimeadd_iff {a b : Timeval} (ha : a.Normalised) (hb : 0 ≤ b.tvUsec) :
    (eventTimeadd a b).Normalised ↔ a.tvUsec + b.tvUsec < 2000000 := by
  unfold Normalised at *
  simp only [eventTimeadd]
  split_ifs <;> simp only <;> omega

theorem eventTimecmp_neg_iff_micros {a b : Timeval} (ha : a.Normalised) (hb : b.Normalised) :
    eventTimecmp a b < 0 ↔ a.micros < b.micros := by
  rw [eventTimecmp_neg_iff, key_lt_iff_micros ha hb]

theorem eventTimecmp_eq_zero_iff_micros {a b : Timeval} (ha : a.Normalised)
    (hb : b.Normalised) : eventTimecmp a b = 0 ↔ a.micros = b.micros := by
  have hneg := eventTimecmp_neg_iff_micros ha hb
  have hpos : 0 < eventTimecmp a b ↔ b.micros < a.micros := by
    rw [eventTimecmp_pos_iff, key_lt_iff_micros hb ha]
  omega

namespace WbaEvtbase

variable {κ : Type*} (K : Kernel κ)
variable {s t : WbaEvtbase κ} {active : List EvtId} {d e : EvtId}

/-! ### The deadline that is stored -/

/-- The clock reading of `event_add`. -/
def addNow (s : WbaEvtbase κ) (e : EvtId) : Timeval :=
  ((s.eventAddReg K e).2.eventTimegetNow K).1

theorem eventTimegetNow_congr (h : t.kernel = s.kernel) :
    (t.eventTimegetNow K).1 = (s.eventTimegetNow K).1 := by
  simp only [eventTimegetNow, eventTimeget, h]

theorem eventSetTimeout_evtTimeout (s : WbaEvtbase κ) (e : EvtId) (tv : Timeval) (abs : Bool) :
    ((s.eventSetTimeout K e tv abs).evt e).evtTimeout =
      if abs then tv else eventTimeadd (s.eventTimegetNow K).1 tv := by
  unfold eventSetTimeout
  cases abs with
  | true => simp
  | false =>
      cases s.hasEvent e wbaEvtPersist with
      | true => simp [eventTimegetNow, eventTimeget, modifyEvt]
      | false => simp

/-- An add with a timeout stores the deadline, unless the kernel refuses the descriptor. -/
theorem evtTimeout_eventAdd (he : e ∈ s.heap) (tv : Timeval) (abs : Bool)
    (hres : (s.eventAddReg K e).1 ≠ -1) :
    ((s.eventAdd K e (some tv) abs).2.evt e).evtTimeout =
      if abs then tv else eventTimeadd (s.addNow K e) tv := by
  have hcases := eventAdd_cases K s e (some tv) abs
  rcases hcases with ⟨-, hnone⟩ | ⟨-, -, hreg⟩ | ⟨_, -, htv, -, heq⟩
  · exact absurd (hnone.resolve_left (not_not.2 he)).2 (by simp)
  · exact absurd (hreg.resolve_left (by simp)) hres
  · obtain rfl := Option.some.inj htv
    have hkernel := eventRemoveTimeout_kernel (s.eventAddReg K e).2 e
    rw [heq]
    simp only [eventAddTimeout_evtTimeout, eventSetTimeout_evtTimeout,
      eventTimegetNow_congr K hkernel]
    rfl

theorem wbaEventAdd_of_accepted {tv : Timeval} (hsec : 0 ≤ tv.tvSec) (husec : 0 ≤ tv.tvUsec)
    (s : WbaEvtbase κ) (e : EvtId) :
    s.wbaEventAdd K e (some tv) = s.eventAdd K e (some tv) false := by
  simp [wbaEventAdd, not_lt.2 hsec, not_lt.2 husec]

/-- The deadline of an add that succeeds. -/
theorem evtTimeout_wbaEventAdd {tv : Timeval} (hsec : 0 ≤ tv.tvSec) (husec : 0 ≤ tv.tvUsec)
    (hone : (s.wbaEventAdd K e (some tv)).1 = 1) :
    ((s.wbaEventAdd K e (some tv)).2.evt e).evtTimeout = eventTimeadd (s.addNow K e) tv := by
  rw [wbaEventAdd_of_accepted K hsec husec] at hone ⊢
  have he : e ∈ s.heap := by
    by_contra he
    simp [eventAdd, he] at hone
  have hres : (s.eventAddReg K e).1 ≠ -1 := by
    intro hres
    simp [eventAdd, he, hres] at hone
  rw [evtTimeout_eventAdd K he tv false hres]
  rfl

/-! ### Runs with modest timeouts -/

/-- The calls that a step makes. -/
def Op.calls : Op → List Call
  | .call c => [c]
  | .processActive _ calls => calls
  | _ => []

/-- A timeout that the call hands to `wba_event_add` has at most a second in its `tv_usec`. -/
def Call.Modest : Call → Prop
  | .add _ (some tv) => tv.tvUsec ≤ 1000000
  | _ => True

/-- Every reading of the clock is normalised. -/
def NormalisedClock (K : Kernel κ) : Prop :=
  ∀ s : WbaEvtbase κ, (s.eventTimegetNow K).1.Normalised

/-- The deadline of the event is normalised, and so will be the next one. -/
structure Modest (v : WbaEvt) : Prop where
  deadline : v.evtTimeout.Normalised
  nonneg : 0 ≤ v.timeout.tvUsec
  le : v.timeout.tvUsec ≤ 1000000

/-- The timeouts of all events are modest. -/
def AllModest (s : WbaEvtbase κ) : Prop := ∀ e ∈ s.heap, Modest (s.evt e)

theorem Modest.congr {v w : WbaEvt} (h : Modest v) (hdeadline : w.evtTimeout = v.evtTimeout)
    (htimeout : w.timeout = v.timeout) : Modest w := by
  refine ⟨?_, ?_, ?_⟩
  · rw [hdeadline]
    exact h.deadline
  · rw [htimeout]
    exact h.nonneg
  · rw [htimeout]
    exact h.le

theorem AllModest.of_touches (h : AllModest s) (ht : Touches d s t)
    (hd : d ∈ s.heap → Modest (t.evt d)) : AllModest t := by
  intro e he
  rw [ht.heap] at he
  by_cases hed : e = d
  · subst hed
    exact hd he
  · rw [ht.other e hed]
    exact h e he

theorem AllModest.of_flagsOnly (h : AllModest s) (ht : FlagsOnly d s t) : AllModest t := by
  apply h.of_touches ht.touches
  intro hd
  apply (h d hd).congr
  · rw [ht.evt_self]
  · rw [ht.evt_self]

theorem normalised_eventTimeadd_of_le {a b : Timeval} (ha : a.Normalised) (hb : 0 ≤ b.tvUsec)
    (hle : b.tvUsec ≤ 1000000) : (eventTimeadd a b).Normalised := by
  rw [normalised_eventTimeadd_iff ha hb]
  unfold Normalised at ha
  omega

/-- The deadline for which a persistent event is scheduled again. -/
theorem Modest.nextDeadline {v : WbaEvt} (h : Modest v) {now : Timeval} (hnow : now.Normalised) :
    (nextDeadline v now).Normalised := by
  have hnext := normalised_eventTimeadd_of_le hnow h.nonneg h.le
  have hlast := normalised_eventTimeadd_of_le h.deadline h.nonneg h.le
  unfold WbaEvtbase.nextDeadline
  simp only
  split_ifs
  · exact hnext
  · exact hlast
  · exact hnext
  · exact hnext

/-- The timeout that `event_add` is given: an absolute deadline, or what `wba_event_add` accepts. -/
def ModestArg (tv : Timeval) (abs : Bool) : Prop :=
  if abs then tv.Normalised else 0 ≤ tv.tvUsec ∧ tv.tvUsec ≤ 1000000

theorem AllModest.eventAdd (hK : NormalisedClock K) (h : AllModest s) (e : EvtId)
    {tv : Option Timeval} {abs : Bool} (htv : ∀ t, tv = some t → ModestArg t abs) :
    AllModest (s.eventAdd K e tv abs).2 := by
  apply h.of_touches (touches_eventAdd K s e tv abs)
  intro he
  rcases eventAdd_cases K s e tv abs with ⟨heq, -⟩ | ⟨-, heq, -⟩ | ⟨tv, -, rfl, hres, heq⟩
  · rw [heq]
    exact h e he
  · rw [heq]
    exact h.of_flagsOnly (flagsOnly_eventAddReg K s e) e ((eventAddReg_heap K s e).symm ▸ he)
  · have harg := htv tv rfl
    have hdeadline := evtTimeout_eventAdd K he tv abs hres
    obtain ⟨-, hreg⟩ := (added_eventAddReg K s e abs).resolve_left fun hno => hres hno.1
    have htimeout := (hreg.reschedule K tv).timeout
    rw [heq] at hdeadline ⊢
    cases abs with
    | true =>
        refine ⟨?_, ?_, ?_⟩
        · rw [hdeadline]
          exact harg
        · rw [htimeout]
          exact (h e he).nonneg
        · rw [htimeout]
          exact (h e he).le
    | false =>
        obtain ⟨hnonneg, hle⟩ := harg
        refine ⟨?_, ?_, ?_⟩
        · rw [hdeadline]
          exact normalised_eventTimeadd_of_le (hK _) hnonneg hle
        · rw [htimeout]
          split_ifs
          · exact (h e he).nonneg
          · exact hnonneg
        · rw [htimeout]
          split_ifs
          · exact (h e he).le
          · exact hle

theorem AllModest.wbaEventAdd (hK : NormalisedClock K) (h : AllModest s) (e : EvtId)
    {tv : Option Timeval} (htv : ∀ t, tv = some t → t.tvUsec ≤ 1000000) :
    AllModest (s.wbaEventAdd K e tv).2 := by
  unfold WbaEvtbase.wbaEventAdd
  cases tv with
  | none => exact h.eventAdd K hK e (by simp)
  | some t =>
      simp only
      split_ifs with hneg
      · exact h
      · apply h.eventAdd K hK e
        rintro _ ⟨⟩
        rw [not_or, not_lt, not_lt] at hneg
        exact ⟨hneg.2, htv t rfl⟩

theorem AllModest.placeEvt (h : AllModest s) (e : EvtId) (fd : ℤ) (events : BitVec 16)
    (fn : WbaEvtcbFn) (arg : CbArg) : AllModest (s.placeEvt e (freshEvt e fd events fn arg)) := by
  intro d hd
  by_cases hde : d = e
  · subst hde
    have hfresh : (s.placeEvt d (freshEvt d fd events fn arg)).evt d =
        freshEvt d fd events fn arg := Function.update_self _ _ _
    rw [hfresh]
    refine ⟨?_, ?_, ?_⟩
    · change (⟨0, 0⟩ : Timeval).Normalised
      decide
    · exact le_refl 0
    · change (0 : ℤ) ≤ 1000000
      decide
  · have hother : (s.placeEvt e (freshEvt e fd events fn arg)).evt d = s.evt d :=
      Function.update_of_ne hde _ _
    rw [hother]
    exact h d (List.mem_of_ne_of_mem hde hd)

theorem AllModest.runCall (hK : NormalisedClock K) (h : AllModest s) {c : Call}
    (hc : c.Modest) : AllModest (s.runCall K c) := by
  cases c with
  | new malloc fd events fn arg =>
      change AllModest (s.wbaEventNew malloc fd events fn arg).2
      rcases wbaEventNew_cases s malloc fd events fn arg with heq | ⟨e, f, -, heq⟩
      · rw [heq]
        exact h
      · rw [heq]
        exact h.placeEvt e fd events f arg
  | add e tv =>
      apply h.wbaEventAdd K hK e
      rintro t rfl
      exact hc
  | del e => exact h.of_flagsOnly (flagsOnly_eventDel K s e)
  | free e =>
      intro d hd
      exact h.of_flagsOnly (flagsOnly_eventDel K s e) d (List.mem_of_mem_erase hd)

theorem AllModest.runCalls (hK : NormalisedClock K) (h : AllModest s) {calls : List Call}
    (hcalls : ∀ c ∈ calls, c.Modest) : AllModest (s.runCalls K calls) := by
  induction calls generalizing s with
  | nil => exact h
  | cons c calls ih =>
      rw [List.forall_mem_cons] at hcalls
      exact ih (h.runCall K hK hcalls.1) hcalls.2

/-- The reading that schedules a persistent event again only changes the kernel. -/
theorem AllModest.eventProcessActiveBody (hK : NormalisedClock K) (h : AllModest s)
    (he : e ∈ s.heap) : AllModest (s.eventProcessActiveBody K e) := by
  have hremove := h.of_flagsOnly (flagsOnly_eventRemoveActive s e)
  have hmem : e ∈ (s.eventRemoveActive e).heap := (flagsOnly_eventRemoveActive s e).1 ▸ he
  unfold WbaEvtbase.eventProcessActiveBody eventReschedule
  split_ifs
  · have hread : AllModest ((s.eventRemoveActive e).eventTimegetNow K).2 := hremove
    apply hread.eventAdd K hK e
    rintro _ ⟨⟩
    exact (hread e hmem).nextDeadline (hK _)
  · exact hremove
  · exact h.of_flagsOnly (flagsOnly_eventDel K s e)

theorem Consistent.allModest_runOp (hK : NormalisedClock K) (hs : Consistent s active)
    (h : AllModest s) {op : Op} (hcalls : ∀ c ∈ op.calls, c.Modest)
    (hop : s.runOp K op = some t) : AllModest t := by
  cases op with
  | call c =>
      cases hop
      exact h.runCall K hK (hcalls c (List.mem_singleton_self c))
  | wait =>
      cases hop
      obtain ⟨k, hk⟩ := eventWait_eq K s
      rw [hk]
      exact h
  | mapActive fd events =>
      obtain ⟨slot, hwf⟩ := hs
      obtain ⟨t', fresh, heq, -, honly, hevt⟩ := hwf.eventMapActive fd events
      obtain rfl : t' = t := Option.some.inj (heq.symm.trans hop)
      intro d hd
      have hold := h d (honly.heap ▸ hd)
      rw [hevt d]
      split_ifs
      · exact hold.congr rfl rfl
      · exact hold
  | processTimeout =>
      cases hop
      obtain ⟨slot, hwf⟩ := hs
      obtain ⟨hheap, hevt⟩ := hwf.evt_eventProcessTimeout K
      intro d hd
      rw [hheap] at hd
      cases hexp : s.expired K d with
      | true =>
          have htimed := ((hevt d hd).1 hexp).eq
          rw [htimed]
          exact (h d hd).congr rfl rfl
      | false =>
          rw [(hevt d hd).2 hexp]
          exact h d hd
  | processActive e calls =>
      simp only [WbaEvtbase.runOp] at hop
      split_ifs at hop with he
      · cases hop
        exact (h.eventProcessActiveBody K hK he).runCalls K hK hcalls
      · cases hop
        exact h

/-- In a run from a new base whose timeouts are modest, all deadlines are normalised. -/
theorem allModest_run (hK : NormalisedClock K) {ops : List Op} (hs : Consistent s active)
    (h : AllModest s) (hops : ∀ op ∈ ops, ∀ c ∈ op.calls, c.Modest) :
    ∃ t active', s.run K ops = some t ∧ Consistent t active' ∧ AllModest t := by
  induction ops generalizing s active with
  | nil => exact ⟨s, active, rfl, hs, h⟩
  | cons op ops ih =>
      rw [List.forall_mem_cons] at hops
      obtain ⟨t, active', heq, ht⟩ := hs.runOp K op
      have hmodest := hs.allModest_runOp K hK h hops.1 heq
      obtain ⟨u, active'', heq', hu⟩ := ih ht hmodest hops.2
      refine ⟨u, active'', ?_, hu⟩
      simp only [WbaEvtbase.run, List.foldlM_cons, heq]
      exact heq'

/-! ### The order of the timers -/

/-- The microseconds that the deadline of an event denotes. -/
def deadlineMicros (s : WbaEvtbase κ) (e : EvtId) : ℤ := (s.evt e).evtTimeout.micros

/-- The timers whose time has come by `now`, in the order of the time tree. -/
def elapsed (s : WbaEvtbase κ) (now : Timeval) : List EvtId :=
  s.evtTimeRoot.inorder.filter fun d => s.deadlineMicros d ≤ now.micros

theorem AllModest.elapsed_eq (h : AllModest s) (htimer : TimerInv s) {now : Timeval}
    (hnow : now.Normalised) : s.elapsed now = s.due now := by
  apply List.filter_congr
  intro d hd
  have hnorm := (h d ((htimer.mem d).1 hd).1).deadline
  have hcmp : 0 < eventTimecmp (s.evt d).evtTimeout now ↔
      now.micros < (s.evt d).evtTimeout.micros := by
    rw [eventTimecmp_pos_iff, key_lt_iff_micros hnow hnorm]
  rw [isDue, decide_eq_decide, deadlineMicros, ← not_lt, ← hcmp]
  exact not_lt

/-- The time tree is in the order of real time. -/
theorem AllModest.sorted (h : AllModest s) (htimer : TimerInv s) :
    s.evtTimeRoot.inorder.Pairwise fun d e => s.deadlineMicros d ≤ s.deadlineMicros e := by
  apply htimer.sorted.imp_of_mem
  intro d e hd he hlt
  have hdnorm := (h d ((htimer.mem d).1 hd).1).deadline
  have henorm := (h e ((htimer.mem e).1 he).1).deadline
  have hle := TimerLt.key_le hlt
  rw [← not_lt, key_lt_iff_micros henorm hdnorm, not_lt] at hle
  exact hle

/-- The deadline that a successful `wba_event_add` stores is normalised and denotes the requested
time exactly when the microseconds of the clock and of the timeout are less than two seconds
together. Normalised deadlines are compared as the numbers of microseconds are. In a run whose
timeouts have at most a second in their `tv_usec`, the time tree is sorted by real time, and
`event_process_timeout` moves the timers whose time has come to the active list in this order. -/
theorem deadline_iff (K : Kernel κ) :
    (∀ (s : WbaEvtbase κ) (e : EvtId) (tv : Timeval), 0 ≤ tv.tvSec → 0 ≤ tv.tvUsec →
      (s.addNow K e).Normalised → (s.wbaEventAdd K e (some tv)).1 = 1 →
      (((s.wbaEventAdd K e (some tv)).2.evt e).evtTimeout.Normalised ∧
          (s.wbaEventAdd K e (some tv)).2.deadlineMicros e =
            (s.addNow K e).micros + tv.micros ↔
        (s.addNow K e).tvUsec + tv.tvUsec < 2000000)) ∧
    (∀ a b : Timeval, a.Normalised → b.Normalised →
      (eventTimecmp a b < 0 ↔ a.micros < b.micros) ∧
        (eventTimecmp a b = 0 ↔ a.micros = b.micros)) ∧
    (NormalisedClock K → ∀ (k : κ) (epfd : ℤ) (mallocBase mallocEvents mallocList : Bool)
      (s : WbaEvtbase κ) (ops : List Op),
      wbaEvtbaseNew k epfd mallocBase mallocEvents mallocList = some s →
      (∀ op ∈ ops, ∀ c ∈ op.calls, c.Modest) →
      ∃ t active slot, s.run K ops = some t ∧ Represents t active slot ∧
        (∀ d ∈ t.evtTimeRoot.inorder, (t.evt d).evtTimeout.Normalised) ∧
        t.evtTimeRoot.inorder.Pairwise (fun d e => t.deadlineMicros d ≤ t.deadlineMicros e) ∧
        ∀ now, (t.eventTimeget K).1 = some now →
          ∃ u, t.eventProcessTimeout K = (((t.elapsed now).length : ℤ), u) ∧
            Ring u.evtActiveList ()
              (active.filter (· ∉ t.elapsed now) ++ t.elapsed now)) := by
  refine ⟨?_, ?_, ?_⟩
  · intro s e tv hsec husec hnow hone
    rw [deadlineMicros, evtTimeout_wbaEventAdd K hsec husec hone, micros_eventTimeadd,
      normalised_eventTimeadd_iff hnow husec]
    exact and_iff_left rfl
  · intro a b ha hb
    exact ⟨eventTimecmp_neg_iff_micros ha hb, eventTimecmp_eq_zero_iff_micros ha hb⟩
  · intro hK k epfd mallocBase mallocEvents mallocList s ops hnew hops
    have hempty : AllModest s := by
      intro e he
      unfold wbaEvtbaseNew at hnew
      split_ifs at hnew
      cases hnew
      cases he
    have hs : Consistent s [] := ⟨_, wellFormed_new hnew⟩
    obtain ⟨t, active, heq, ⟨slot, ht⟩, hmodest⟩ := allModest_run K hK hs hempty hops
    refine ⟨t, active, slot, heq, ht.represents, ?_, hmodest.sorted ht.timer, ?_⟩
    · intro d hd
      exact (hmodest d ((ht.timer.mem d).1 hd).1).deadline
    · intro now hnow
      have hnorm : now.Normalised := by
        have hread := hK t
        rw [eventTimegetNow, hnow] at hread
        exact hread
      obtain ⟨u, hprocess, hu, -⟩ := ht.eventProcessTimeout K hnow
      rw [hmodest.elapsed_eq ht.timer hnorm]
      exact ⟨u, hprocess, (ht.filterDue hu).active.ring⟩

/-- Two timers for which two seconds and a half and two seconds are requested. -/
def carryBase : WbaEvtbase SimState :=
  (newBase {}).runCalls simKernel
    [.new (some 0) (-1) 0 (some 1) .null, .new (some 1) (-1) 0 (some 1) .null,
      .add 0 (some ⟨0, 2500000⟩), .add 1 (some ⟨2, 0⟩)]

/-- The first of them gets a deadline that is not normalised, compares as the earlier one and
comes first in the time tree. -/
theorem not_normalised_carryBase :
    ¬ (carryBase.evt 0).evtTimeout.Normalised ∧
      carryBase.deadlineMicros 0 = 2500000 ∧ carryBase.deadlineMicros 1 = 2000000 ∧
      eventTimecmp (carryBase.evt 0).evtTimeout (carryBase.evt 1).evtTimeout < 0 ∧
      carryBase.evtTimeRoot.inorder = [0, 1] := by
  decide +kernel

theorem SteadyClock.normalisedClock {last : κ → ℤ} (hK : SteadyClock K last) :
    NormalisedClock K := fun s => (SteadyClock.eventTimegetNow hK s).1

/-- A timer of a second and a half next to one of two seconds, after half a second. -/
theorem deadline_iff_halves :
    ∃ t, (newBase { tick := 500000 }).run simKernel
        [.call (.new (some 0) (-1) 0 (some 1) .null), .call (.new (some 1) (-1) 0 (some 1) .null),
          .call (.add 0 (some ⟨2, 0⟩)), .call (.add 1 (some ⟨1, 500000⟩))] = some t ∧
      t.evtTimeRoot.inorder.Pairwise (fun d e => t.deadlineMicros d ≤ t.deadlineMicros e) ∧
      t.evtTimeRoot.inorder = [0, 1] ∧
      ((t.wbaEventAdd simKernel 0 (some ⟨0, 1400000⟩)).2.evt 0).evtTimeout.Normalised := by
  obtain ⟨hadd, -, hruns⟩ := deadline_iff simKernel
  obtain ⟨t, -, -, heq, -, -, hsorted, -⟩ := hruns
    (SteadyClock.normalisedClock simKernel steadyClock_simKernel) { tick := 500000 } 3 true true
    true _
    [.call (.new (some 0) (-1) 0 (some 1) .null), .call (.new (some 1) (-1) 0 (some 1) .null),
      .call (.add 0 (some ⟨2, 0⟩)), .call (.add 1 (some ⟨1, 500000⟩))]
    (wbaEvtbaseNew_newBase _) (by simp [Op.calls, Call.Modest])
  refine ⟨t, heq, hsorted, ?_, ?_⟩
  · cases heq
    decide +kernel
  · cases heq
    exact ((hadd _ 0 ⟨0, 1400000⟩ (by decide) (by decide) (by decide +kernel)
      (by decide +kernel)).2 (by decide +kernel)).1

/-! ### The time until the first deadline -/

theorem normalised_eventTimesub {a b : Timeval} (ha : a.Normalised) (hb : b.Normalised) :
    (eventTimesub a b).Normalised := by
  unfold Normalised at *
  simp only [eventTimesub]
  split_ifs <;> simp only <;> omega

theorem micros_eventTimesub (a b : Timeval) :
    (eventTimesub a b).micros = a.micros - b.micros := by
  simp only [eventTimesub, micros]
  split_ifs <;> simp only <;> omega

/-- The milliseconds that `event_next_timeout` computes before it narrows them. -/
theorem millis_eventTimesub {a b : Timeval} (ha : a.Normalised) (hb : b.Normalised) :
    (eventTimesub a b).tvSec * 1000 + (eventTimesub a b).tvUsec.tdiv 1000 + 1 =
      (a.micros - b.micros) / 1000 + 1 := by
  obtain ⟨hnonneg, -⟩ := normalised_eventTimesub ha hb
  rw [Int.tdiv_eq_ediv_of_nonneg hnonneg, ← micros_eventTimesub]
  unfold micros
  omega

/-- A time to wait of `r` milliseconds is long enough for `u` microseconds and at most a
millisecond too long. -/
def WaitsFor (u r : ℤ) : Prop := 0 < r ∧ u ≤ r * 1000 ∧ (r - 1) * 1000 ≤ u

/-- Narrowing the milliseconds to 32 bits keeps the wait as long as they are in the range of an
`s32`. -/
theorem waitsFor_bmod_iff {u : ℤ} (hu : 0 < u) :
    WaitsFor u (Int.bmod (u / 1000 + 1) (2 ^ 32)) ↔ u < (2 ^ 31 - 1) * 1000 := by
  have hlt : Int.bmod (u / 1000 + 1) (2 ^ 32) < ((2 ^ 32 : ℕ) + 1) / 2 :=
    Int.bmod_lt (by decide)
  constructor
  · rintro ⟨-, hlong, -⟩
    by_contra hge
    -- The result would have to be the greatest `s32`, but it is the least one.
    have hlast : u / 1000 + 1 = 2 ^ 31 := by omega
    rw [hlast] at hlong
    have hneg : Int.bmod (2 ^ 31) (2 ^ 32) = -2 ^ 31 := by decide
    omega
  · intro hsmall
    have hexact : Int.bmod (u / 1000 + 1) (2 ^ 32) = u / 1000 + 1 := by
      apply Int.bmod_eq_of_le
      · omega
      · omega
    rw [hexact, WaitsFor]
    omega

/-- The earliest deadline of the base, as `event_timecmp` orders them. -/
def IsEarliest (s : WbaEvtbase κ) (d : Timeval) : Prop :=
  (∃ e ∈ s.evtTimeRoot.inorder, (s.evt e).evtTimeout = d) ∧
    ∀ e ∈ s.evtTimeRoot.inorder, ¬ eventTimecmp (s.evt e).evtTimeout d < 0

theorem key_injective : Function.Injective Timeval.key := by
  rintro ⟨sec, usec⟩ ⟨sec', usec'⟩ heq
  have hpair : (sec, usec) = (sec', usec') := toLex.injective heq
  cases hpair
  rfl

/-- `rb_first` finds an event with the earliest deadline. -/
theorem TimerInv.evtTimeout_rbFirst (h : TimerInv s) {d : Timeval} (hd : s.IsEarliest d) :
    ∃ e, s.evtTimeRoot.rbFirst = some e ∧ (s.evt e).evtTimeout = d := by
  obtain ⟨⟨e, he, rfl⟩, hleast⟩ := hd
  have hsorted := h.sorted
  rw [RbTree.rbFirst_eq]
  cases hin : s.evtTimeRoot.inorder with
  | nil =>
      rw [hin] at he
      cases he
  | cons p rest =>
      rw [hin] at he hleast hsorted
      refine ⟨p, rfl, key_injective (le_antisymm ?_ ?_)⟩
      · rcases List.mem_cons.1 he with rfl | hrest
        · exact le_refl _
        · exact TimerLt.key_le ((List.pairwise_cons.1 hsorted).1 e hrest)
      · have hp := hleast p List.mem_cons_self
        rw [eventTimecmp_neg_iff, not_lt] at hp
        exact hp

/-- `event_next_timeout`, given the first event of the time tree and a reading of the clock. -/
theorem eventNextTimeout_eq {now : Timeval} (hfirst : s.evtTimeRoot.rbFirst = some e)
    (hnow : (s.eventTimeget K).1 = some now) :
    (s.eventNextTimeout K).1 =
      if eventTimecmp (s.evt e).evtTimeout now ≤ 0 then 0
      else Int.bmod ((eventTimesub (s.evt e).evtTimeout now).tvSec * 1000 +
        (eventTimesub (s.evt e).evtTimeout now).tvUsec.tdiv 1000 + 1) (2 ^ 32) := by
  simp only [eventNextTimeout, hfirst, hnow]
  split_ifs <;> rfl

/-- The wait for the earliest deadline, if it is later than the clock reading, is long enough and
at most a millisecond too long exactly when the deadline is less than `2 ^ 31 - 1` milliseconds
away. There is no wait for a deadline that is not later than the reading. -/
theorem eventNextTimeout_waitsFor_iff {k : κ} (h : Reachable K k s) {d now : Timeval}
    (hd : s.IsEarliest d) (hdnorm : d.Normalised) (hnow : (s.eventTimeget K).1 = some now)
    (hnorm : now.Normalised) :
    (now.micros < d.micros →
      (WaitsFor (d.micros - now.micros) (s.eventNextTimeout K).1 ↔
        d.micros - now.micros < (2 ^ 31 - 1) * 1000)) ∧
    (d.micros ≤ now.micros → (s.eventNextTimeout K).1 = 0) := by
  obtain ⟨active, slot, hwf⟩ := h.consistent
  obtain ⟨e, hfirst, rfl⟩ := hwf.timer.evtTimeout_rbFirst hd
  have hcmp : 0 < eventTimecmp (s.evt e).evtTimeout now ↔
      now.micros < (s.evt e).evtTimeout.micros := by
    rw [eventTimecmp_pos_iff, key_lt_iff_micros hnorm hdnorm]
  rw [eventNextTimeout_eq K hfirst hnow, millis_eventTimesub hdnorm hnorm]
  constructor
  · intro hlater
    rw [if_neg (not_le.2 (hcmp.2 hlater))]
    exact waitsFor_bmod_iff (by omega)
  · intro hpast
    rw [if_pos (not_lt.1 fun hpos => not_lt.2 hpast (hcmp.1 hpos))]

/-- The deadline of the only timer is the earliest one. -/
theorem isEarliest_of_inorder {d : Timeval} (hin : s.evtTimeRoot.inorder = [e])
    (hdeadline : (s.evt e).evtTimeout = d) : s.IsEarliest d := by
  subst hdeadline
  rw [IsEarliest, hin]
  refine ⟨⟨e, List.mem_singleton_self e, rfl⟩, ?_⟩
  intro x hx
  obtain rfl := List.mem_singleton.1 hx
  rw [eventTimecmp_neg_iff]
  exact lt_irrefl _

/-- A timer of twenty-five days. -/
def weeksBase : WbaEvtbase SimState :=
  (newBase {}).runCalls simKernel
    [.new (some 0) (-1) 0 (some 1) .null, .add 0 (some ⟨2160000, 0⟩)]

/-- The wait for it is negative, which `epoll_wait` takes for a wait without an end. -/
theorem not_waitsFor_weeksBase :
    Reachable simKernel {} weeksBase ∧ weeksBase.IsEarliest ⟨2160000, 0⟩ ∧
      (weeksBase.eventTimeget simKernel).1 = some ⟨0, 0⟩ ∧
      (weeksBase.eventNextTimeout simKernel).1 = -2134967295 ∧
      ¬ WaitsFor 2160000000000 (weeksBase.eventNextTimeout simKernel).1 := by
  have hwait : (weeksBase.eventNextTimeout simKernel).1 = -2134967295 := by decide +kernel
  refine ⟨reachable_newBase _ _ _, ?_, by decide +kernel, hwait, ?_⟩
  · apply isEarliest_of_inorder (e := 0)
    · decide +kernel
    · decide +kernel
  · rw [hwait]
    rintro ⟨hpos, -⟩
    omega

/-- The wait for a timer of a millisecond and a half is two milliseconds. -/
theorem eventNextTimeout_waitsFor_iff_short :
    ∃ s : WbaEvtbase SimState, (s.eventNextTimeout simKernel).1 = 2 ∧
      WaitsFor 1500 (s.eventNextTimeout simKernel).1 := by
  let s : WbaEvtbase SimState := (newBase {}).runCalls simKernel
    [.new (some 0) (-1) 0 (some 1) .null, .add 0 (some ⟨0, 1500⟩)]
  have hearliest : s.IsEarliest ⟨0, 1500⟩ := by
    apply isEarliest_of_inorder (e := 0)
    · decide +kernel
    · decide +kernel
  have hnow : (s.eventTimeget simKernel).1 = some ⟨0, 0⟩ := by decide +kernel
  obtain ⟨hlater, -⟩ := eventNextTimeout_waitsFor_iff simKernel
    (reachable_newBase simKernel {} _) hearliest (by decide) hnow (by decide)
  exact ⟨s, by decide +kernel, (hlater (by decide)).2 (by decide)⟩

end WbaEvtbase

end Miscellany
