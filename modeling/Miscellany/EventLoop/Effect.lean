import Miscellany.EventLoop.Clock
import Miscellany.EventLoop.Iteration

/-!
# What the operations do to one event

Adding an event either fails, when the kernel refuses its descriptor, and then changes
nothing but the kernel, or it leaves the event registered (`Added`). A round of
`event_process_active` takes the event off the active list and, if the event is
persistent and has an interval, adds it with an absolute deadline. Collecting the events
of an iteration activates an event that was reported and times out one that has expired.
-/

namespace Miscellany

/-- The call is made on the event `x`. -/
def WbaEvtbase.Call.Targets (x : EvtId) : Call → Prop
  | .new _ _ _ _ _ => False
  | .add e _ => e = x
  | .del e => e = x
  | .free e => e = x

namespace WbaEvtbase

variable {κ : Type*} (K : Kernel κ)
variable {s t : WbaEvtbase κ} {active : List EvtId} {slot : ℕ → List EvtId} {d e : EvtId}

/-! ### Adding -/

/-- The event `w` is `v` after a successful `event_add` with the argument `tv`. -/
structure Added (tv : Option Timeval) (abs : Bool) (v w : WbaEvt) : Prop where
  reg : hasAny w.flags wbaEvtlistReg = true
  active : hasAny w.flags wbaEvtlistActive = hasAny v.flags wbaEvtlistActive
  timed : hasAny w.flags wbaEvtlistTimeout = (tv.isSome || hasAny v.flags wbaEvtlistTimeout)
  res : w.res = v.res
  fd : w.fd = v.fd
  events : w.events = v.events
  timeout : w.timeout =
    if abs || !hasAny v.events wbaEvtPersist then v.timeout else tv.getD v.timeout

/-- The kernel refuses to watch the descriptor of the event, and nothing else happens. -/
structure Refused (s t : WbaEvtbase κ) (e : EvtId) : Prop where
  fd : 0 ≤ (s.evt e).fd
  io : s.hasEvent e wbaEvtIo = true
  reg : s.hasFlag e wbaEvtlistReg = false
  fails : (K.epollCtlAdd s.kernel (s.evt e).fd (epollMask (s.evt e).events)).1 = false
  eq : t = { s with
    kernel := (K.epollCtlAdd s.kernel (s.evt e).fd (epollMask (s.evt e).events)).2 }

/-- An event without a descriptor to watch is registered without asking the kernel. -/
theorem eventAddReg_of_not_io (hio : ¬ (0 ≤ (s.evt e).fd ∧ s.hasEvent e wbaEvtIo = true)) :
    s.eventAddReg K e = (0, s.setFlags e wbaEvtlistReg) := by
  rw [not_and_or, not_le] at hio
  rcases hio with hneg | hno
  · simp [eventAddReg, eventMapAdd, hneg]
  · simp [eventAddReg, eventMapAdd, hno]

theorem added_eventAddReg (s : WbaEvtbase κ) (e : EvtId) (abs : Bool) :
    (s.eventAddReg K e).1 = -1 ∧ Refused K s (s.eventAddReg K e).2 e ∨
      (s.eventAddReg K e).1 ≠ -1 ∧ Added none abs (s.evt e) ((s.eventAddReg K e).2.evt e) := by
  have hset : ∀ u : WbaEvtbase κ,
      Added none abs (u.evt e) ((u.setFlags e wbaEvtlistReg).evt e) := by
    intro u
    have hsame := sameBut_setFlags u e wbaEvtlistReg
    have hself := (flagsOnly_setFlags u e wbaEvtlistReg).evt_self
    refine ⟨(hasFlag_setFlags u e e (by decide)).2 (Or.inl rfl), hsame.flag e _ (by decide), ?_,
      ?_, hsame.fd e, hsame.events e, ?_⟩
    · rw [hsame.flag e _ (by decide)]
      rfl
    · rw [hself]
    · rw [hself]
      simp
  rcases eventAddReg_cases K s e with ⟨heq, -⟩ | ⟨k, heq, hreg, hk⟩ | ⟨k, heq, -, -, hfd, -⟩
  · rw [heq]
    exact Or.inr ⟨by simp, hset s⟩
  · have hio : 0 ≤ (s.evt e).fd ∧ s.hasEvent e wbaEvtIo = true := by
      by_contra hio
      rw [eventAddReg_of_not_io K hio] at heq
      simp at heq
    rw [heq]
    refine Or.inl ⟨rfl, hio.1, hio.2, hreg, ?_, ?_⟩
    · rw [hk]
    · rw [hk]
  · rw [heq, eventMapLink_eq (s := { s with kernel := k }) hfd]
    exact Or.inr ⟨by simp, hset _⟩

theorem eventSetTimeout_timeout (s : WbaEvtbase κ) (e : EvtId) (tv : Timeval) (abs : Bool) :
    ((s.eventSetTimeout K e tv abs).evt e).timeout =
      if abs || !s.hasEvent e wbaEvtPersist then (s.evt e).timeout else tv := by
  unfold eventSetTimeout
  cases abs with
  | true => simp
  | false =>
      cases hper : s.hasEvent e wbaEvtPersist with
      | true => simp [eventTimegetNow, eventTimeget]
      | false => simp [eventTimegetNow, eventTimeget]

/-- The part of `event_add` that schedules the event again. -/
theorem Added.reschedule {v : WbaEvt} {abs : Bool} (h : Added none abs v (s.evt e)) (tv : Timeval) :
    Added (some tv) abs v
      ((((s.eventRemoveTimeout e).eventSetTimeout K e tv abs).eventAddTimeout e).evt e) := by
  have hremove := flagsOnly_eventRemoveTimeout s e
  have htouch := (hremove.touches.trans (touches_eventSetTimeout K _ e tv abs)).trans
    (flagsOnly_eventAddTimeout _ e).touches
  have hflag : ∀ m, hasAny wbaEvtlistTimeout m = false →
      hasAny ((((s.eventRemoveTimeout e).eventSetTimeout K e tv abs).eventAddTimeout e).evt
        e).flags m = hasAny (s.evt e).flags m := by
    intro m hm
    rw [(sameBut_eventAddTimeout _ e).flag e m hm,
      (sameBut_eventSetTimeout K _ e tv abs).flag e m (by simp [hasAny]),
      (sameBut_eventRemoveTimeout s e).flag e m hm]
  refine ⟨(hflag _ (by decide)).trans h.reg, (hflag _ (by decide)).trans h.active, ?_,
    htouch.res.trans h.res, htouch.fd.trans h.fd, htouch.events.trans h.events, ?_⟩
  · exact hasFlag_eventAddTimeout _ e
  · have htimeout : ((s.eventRemoveTimeout e).evt e).timeout = (s.evt e).timeout := by
      rw [hremove.evt_self]
    rw [(flagsOnly_eventAddTimeout _ e).evt_self]
    simp only [eventSetTimeout_timeout, hasEvent, hremove.touches.events, htimeout, h.events,
      h.timeout]
    cases abs <;> cases hasAny v.events wbaEvtPersist <;> rfl

/-- Adding an event fails when the kernel refuses its descriptor. -/
theorem added_eventAdd (he : e ∈ s.heap) (tv : Option Timeval) (abs : Bool) :
    Refused K s (s.eventAdd K e tv abs).2 e ∨
      Added tv abs (s.evt e) ((s.eventAdd K e tv abs).2.evt e) := by
  rcases eventAdd_cases K s e tv abs with ⟨heq, hnone⟩ | ⟨-, heq, hreg⟩ | ⟨tv, -, rfl, hres, heq⟩
  · obtain ⟨hreg, rfl⟩ := hnone.resolve_left (not_not.2 he)
    rw [heq]
    exact Or.inr ⟨hreg, rfl, by simp, rfl, rfl, rfl, by simp⟩
  · rw [heq]
    rcases added_eventAddReg K s e abs with ⟨-, hrefused⟩ | ⟨hok, hadded⟩
    · exact Or.inl hrefused
    · rcases hreg with rfl | hreg
      · exact Or.inr hadded
      · exact absurd hreg hok
  · obtain ⟨-, hadded⟩ := (added_eventAddReg K s e abs).resolve_left fun hno => hres hno.1
    rw [heq]
    exact Or.inr (hadded.reschedule K tv)

/-- An add with a timeout returns 0 when the kernel refuses the descriptor and else 1. -/
theorem added_eventAdd_some (he : e ∈ s.heap) (tv : Timeval) (abs : Bool) :
    ((s.eventAdd K e (some tv) abs).1 = 0 ∧ Refused K s (s.eventAdd K e (some tv) abs).2 e) ∨
      ((s.eventAdd K e (some tv) abs).1 = 1 ∧
        Added (some tv) abs (s.evt e) ((s.eventAdd K e (some tv) abs).2.evt e)) := by
  rcases eventAdd_cases K s e (some tv) abs with ⟨-, hnone⟩ | ⟨-, -, hreg⟩ | ⟨_, -, htv, hres, heq⟩
  · exact absurd (hnone.resolve_left (not_not.2 he)).2 (by simp)
  · have hfails := hreg.resolve_left (by simp)
    have heq : s.eventAdd K e (some tv) abs = (0, (s.eventAddReg K e).2) := by
      simp [eventAdd, he, hfails]
    obtain ⟨-, hrefused⟩ := (added_eventAddReg K s e abs).resolve_right fun hok => hok.1 hfails
    rw [heq]
    exact Or.inl ⟨rfl, hrefused⟩
  · obtain rfl := Option.some.inj htv
    obtain ⟨-, hadded⟩ := (added_eventAddReg K s e abs).resolve_left fun hno => hres hno.1
    rw [heq]
    exact Or.inr ⟨rfl, hadded.reschedule K tv⟩

/-! ### A round -/

/-- The event is scheduled again by `event_process_active` if it is persistent. -/
def HasInterval (v : WbaEvt) : Prop := v.timeout.tvSec ≠ 0 ∨ v.timeout.tvUsec ≠ 0

instance (v : WbaEvt) : Decidable (HasInterval v) := inferInstanceAs (Decidable (_ ∨ _))

theorem hasFlag_eventRemoveActive (s : WbaEvtbase κ) (e : EvtId) :
    (s.eventRemoveActive e).hasFlag e wbaEvtlistActive = false := by
  unfold eventRemoveActive
  split_ifs with hflag
  · rw [← Bool.not_eq_true]
    intro hset
    exact ((hasFlag_clearFlags _ e e wbaEvtlistActive).1 hset).1 rfl
  · simpa using hflag

/-- The base in which `event_process_active` adds a persistent event again. -/
def beforeAdd (s : WbaEvtbase κ) (e : EvtId) : WbaEvtbase κ :=
  ((s.eventRemoveActive e).eventTimegetNow K).2

/-- What a round does to a persistent event. -/
theorem eventProcessActiveBody_of_persist (he : e ∈ s.heap)
    (hper : s.hasEvent e wbaEvtPersist = true) :
    (¬ HasInterval (s.evt e) ∧ s.eventProcessActiveBody K e = s.eventRemoveActive e) ∨
    (HasInterval (s.evt e) ∧
      (Refused K (s.beforeAdd K e) (s.eventProcessActiveBody K e) e ∨
        ∃ tv, Added (some tv) true ((s.eventRemoveActive e).evt e)
          ((s.eventProcessActiveBody K e).evt e))) := by
  have hflags := flagsOnly_eventRemoveActive s e
  have hinterval : HasInterval ((s.eventRemoveActive e).evt e) ↔ HasInterval (s.evt e) := by
    rw [HasInterval, HasInterval, hflags.evt_self]
  rw [eventProcessActiveBody, if_pos hper]
  by_cases hint : HasInterval ((s.eventRemoveActive e).evt e)
  · refine Or.inr ⟨hinterval.1 hint, ?_⟩
    have hmem : e ∈ (s.beforeAdd K e).heap := hflags.1 ▸ he
    have hadd : (s.eventRemoveActive e).eventReschedule K e = ((s.beforeAdd K e).eventAdd K e
        (some (nextDeadline ((s.beforeAdd K e).evt e)
          ((s.eventRemoveActive e).eventTimegetNow K).1)) true).2 := if_pos hint
    rw [hadd]
    rcases added_eventAdd K hmem (some (nextDeadline ((s.beforeAdd K e).evt e)
      ((s.eventRemoveActive e).eventTimegetNow K).1)) true with hrefused | hadded
    · exact Or.inl hrefused
    · exact Or.inr ⟨_, hadded⟩
  · have hstay : (s.eventRemoveActive e).eventReschedule K e = s.eventRemoveActive e := if_neg hint
    exact Or.inl ⟨fun hyes => hint (hinterval.2 hyes), hstay⟩

/-! ### Collecting -/

/-- The event as the reports leave it: unchanged or, if it waits for a report, activated with some
of the bits that a descriptor can have. -/
def ReportedAs (s : WbaEvtbase κ) (e : EvtId) (v : WbaEvt) : Prop :=
  v = s.evt e ∨
    s.Waiting e ∧ ∃ res, hasAny res wbaEvtTimeout = false ∧ v = activated (s.evt e) res

theorem hasAny_translate_timeout (what : BitVec 32) :
    hasAny (translate what) wbaEvtTimeout = false := by
  unfold translate
  split_ifs <;> decide

theorem reportedAs_reported (s : WbaEvtbase κ) (rs : List EpollEvent) (e : EvtId) :
    s.ReportedAs e (((s.reported rs e).map (activated (s.evt e))).getD (s.evt e)) := by
  unfold reported
  split_ifs with hwaiting
  · cases hfind : rs.find? fun r => s.hits r e with
    | none => exact Or.inl rfl
    | some r =>
        refine Or.inr ⟨hwaiting, s.resultOf r e, ?_, rfl⟩
        rw [hasAny_eq_false_iff, resultOf, BitVec.and_assoc,
          (hasAny_eq_false_iff _ _).1 (hasAny_translate_timeout r.events), BitVec.and_zero]
  · exact Or.inl rfl

section ReportedAs

variable {v : WbaEvt} (h : s.ReportedAs e v)

include h

theorem ReportedAs.fd : v.fd = (s.evt e).fd := by
  rcases h with rfl | ⟨-, res, -, rfl⟩ <;> rfl

theorem ReportedAs.events : v.events = (s.evt e).events := by
  rcases h with rfl | ⟨-, res, -, rfl⟩ <;> rfl

theorem ReportedAs.timeout : v.timeout = (s.evt e).timeout := by
  rcases h with rfl | ⟨-, res, -, rfl⟩ <;> rfl

theorem ReportedAs.flag {m : BitVec 16} (hm : hasAny wbaEvtlistActive m = false) :
    hasAny v.flags m = hasAny (s.evt e).flags m := by
  rcases h with rfl | ⟨-, res, -, rfl⟩
  · rfl
  · exact hasAny_activated_of_disjoint _ _ hm

end ReportedAs

theorem ReportedAs.expired_eq {s t : WbaEvtbase κ} (h : s.ReportedAs e (t.evt e))
    (honly : ActiveOnly s t) : t.expired K e = s.expired K e := by
  rcases h with heq | ⟨-, res, -, heq⟩
  · have hget : (t.eventTimeget K).1 = (s.eventTimeget K).1 := by
      simp only [eventTimeget, honly.kernel]
    simp only [expired, hget, hasFlag, isDue, heq]
  · exact expired_congr K honly res heq

/-- What collecting does to each event. -/
theorem WellFormed.evt_eventCollect (h : WellFormed s active slot) {s' : WbaEvtbase κ}
    (hcollect : s.eventCollect K = some s') :
    s'.heap = s.heap ∧ ∀ e ∈ s.heap, ∃ v, s.ReportedAs e v ∧
      ((s.eventWait K).2.expired K e = true → TimedOut v (s'.evt e)) ∧
      ((s.eventWait K).2.expired K e = false → s'.evt e = v) := by
  obtain ⟨rs, t, -, hreports, rfl⟩ := eventCollect_eq_some K hcollect
  obtain ⟨k, hwait⟩ := eventWait_eq K s
  rw [hwait] at hreports ⊢
  obtain ⟨t', fresh, heq, ht, honly, hevt⟩ := (h.setKernel k).processReports rs
  obtain rfl : t' = t := Option.some.inj (heq.symm.trans hreports)
  obtain ⟨hheap, hall⟩ := ht.evt_eventProcessTimeout K
  refine ⟨hheap.trans honly.heap, fun e he => ⟨t'.evt e, ?_, ?_⟩⟩
  · rw [hevt e]
    exact reportedAs_reported { s with kernel := k } rs e
  · have hreported : ({ s with kernel := k } : WbaEvtbase κ).ReportedAs e (t'.evt e) := by
      rw [hevt e]
      exact reportedAs_reported { s with kernel := k } rs e
    rw [← hreported.expired_eq K honly]
    exact hall e (honly.heap ▸ he)

section LeavesAlone

variable {last : κ → ℤ} {u : WbaEvtbase κ} {x : EvtId}

theorem Call.Targets.of_removes {c : Call} (h : c.Removes x) : c.Targets x := by
  rcases h with rfl | rfl <;> rfl

/-! ### What leaves an event alone -/

/-- From `s` to `t` the event `x` is neither freed nor written, and the clock does not go back. -/
structure LeavesAlone (last : κ → ℤ) (x : EvtId) (s t : WbaEvtbase κ) : Prop where
  heap : x ∈ s.heap → x ∈ t.heap
  evt : x ∈ s.heap → t.evt x = s.evt x
  clock : NotBefore last s t

theorem LeavesAlone.refl (x : EvtId) (s : WbaEvtbase κ) : LeavesAlone last x s s :=
  ⟨id, fun _ => rfl, NotBefore.refl s⟩

theorem LeavesAlone.trans (hst : LeavesAlone last x s t) (htu : LeavesAlone last x t u) :
    LeavesAlone last x s u :=
  ⟨fun hx => htu.heap (hst.heap hx), fun hx => (htu.evt (hst.heap hx)).trans (hst.evt hx),
    hst.clock.trans htu.clock⟩

theorem Touches.leavesAlone (h : Touches d s t) (hxd : x ≠ d) (hclock : NotBefore last s t) :
    LeavesAlone last x s t :=
  ⟨fun hx => h.heap ▸ hx, fun _ => h.other x hxd, hclock⟩

variable {K} (hK : Grows K last)

include hK

theorem leavesAlone_runCall (s : WbaEvtbase κ) {c : Call} (hc : ¬ c.Targets x) :
    LeavesAlone last x s (s.runCall K c) := by
  have hclock := notBefore_runCall hK s c
  cases c with
  | new malloc fd events fn arg =>
      change NotBefore last s (s.wbaEventNew malloc fd events fn arg).2 at hclock
      change LeavesAlone last x s (s.wbaEventNew malloc fd events fn arg).2
      rcases wbaEventNew_cases s malloc fd events fn arg with heq | ⟨e, f, he, heq⟩
      · rw [heq]
        exact LeavesAlone.refl x s
      · rw [heq] at hclock ⊢
        refine ⟨fun hx => List.mem_cons_of_mem _ hx, fun hx => ?_, hclock⟩
        refine Function.update_of_ne ?_ _ _
        rintro rfl
        exact he hx
  | add e tv => exact (touches_wbaEventAdd K s e tv).leavesAlone (Ne.symm hc) hclock
  | del e => exact (flagsOnly_eventDel K s e).touches.leavesAlone (Ne.symm hc) hclock
  | free e =>
      have hdel := (flagsOnly_eventDel K s e).touches.leavesAlone (Ne.symm hc)
        (notBefore_eventDel hK s e)
      exact ⟨fun hx => (List.mem_erase_of_ne (Ne.symm hc)).2 (hdel.heap hx), hdel.evt, hclock⟩

theorem leavesAlone_runCalls (s : WbaEvtbase κ) {calls : List Call}
    (hcalls : ∀ c ∈ calls, ¬ c.Targets x) : LeavesAlone last x s (s.runCalls K calls) := by
  induction calls generalizing s with
  | nil => exact LeavesAlone.refl x s
  | cons c calls ih =>
      rw [List.forall_mem_cons] at hcalls
      exact (leavesAlone_runCall hK s hcalls.1).trans (ih _ hcalls.2)

/-- The round of another event. -/
theorem leavesAlone_roundBase (cbs : Callbacks κ) (s : WbaEvtbase κ) (hxd : x ≠ d)
    (hcalls : ∀ c ∈ s.roundCalls K cbs d, ¬ c.Targets x) :
    LeavesAlone last x s (s.roundBase K cbs d) :=
  ((touches_eventProcessActiveBody K s d).leavesAlone hxd
    (notBefore_eventProcessActiveBody hK s d)).trans (leavesAlone_runCalls hK _ hcalls)

end LeavesAlone

end WbaEvtbase

end Miscellany
