import Miscellany.EventLoop.Effect
import Miscellany.EventLoop.Epoll

/-!
# Persistent events stay pending

A persistent event whose deadline has expired is deleted by `event_process_timeout` and
added again by `event_process_active`, before its callback runs. The second step depends
on the interval that `event_add` has remembered: an event with the interval zero is not
added again, and is gone after the iteration although nothing has removed it. This is
the only case.

While the iteration runs, the event is pending, or it is active and has an interval, so
that its round will make it pending again (`Kept`). The round fails to do so only if the
kernel refuses the descriptor. The kernel therefore counts these refusals (`counting`).
-/

namespace Miscellany

open WbaEvtbase

/-- The kernel with, for each descriptor, the number of times it could not be added. -/
def counting {κ : Type*} (K : Kernel κ) : Kernel (κ × (ℤ → ℕ)) where
  epollCtlAdd k fd m :=
    ((K.epollCtlAdd k.1 fd m).1, (K.epollCtlAdd k.1 fd m).2,
      if (K.epollCtlAdd k.1 fd m).1 then k.2 else Function.update k.2 fd (k.2 fd + 1))
  epollCtlDel k fd := ((K.epollCtlDel k.1 fd).1, (K.epollCtlDel k.1 fd).2, k.2)
  epollWait k n timeout := ((K.epollWait k.1 n timeout).1, (K.epollWait k.1 n timeout).2, k.2)
  clockGettime k := ((K.clockGettime k.1).1, (K.clockGettime k.1).2, k.2)
  stack k := K.stack k.1

theorem EpollCtl.counting {κ : Type*} {K : Kernel κ} {interest : κ → ℤ → Option (BitVec 32)}
    (h : EpollCtl K interest) : EpollCtl (counting K) fun k => interest k.1 :=
  ⟨fun k => h.add k.1, fun k => h.add_fails k.1, fun k => h.del k.1, fun k => h.del_effect k.1,
    fun k => h.wait k.1, fun k => h.clock k.1⟩

/-- The quantity `f` of the state of the kernel counts the failures to add `fd`. -/
structure CountsAdds {κ : Type*} (K : Kernel κ) (fd : ℤ) (f : κ → ℤ) : Prop where
  add_fails : ∀ k m, (K.epollCtlAdd k fd m).1 = false → f (K.epollCtlAdd k fd m).2 = f k + 1
  add : ∀ k m, (K.epollCtlAdd k fd m).1 = true → f (K.epollCtlAdd k fd m).2 = f k
  add_other : ∀ k fd' m, fd' ≠ fd → f (K.epollCtlAdd k fd' m).2 = f k
  del : ∀ k fd', f (K.epollCtlDel k fd').2 = f k
  wait : ∀ k n timeout, f (K.epollWait k n timeout).2 = f k
  gettime : ∀ k, f (K.clockGettime k).2 = f k

/-- The failures to add `fd` so far. -/
def addFailures {κ : Type*} (k : (κ × (ℤ → ℕ)) × Bool) (fd : ℤ) : ℤ := k.1.2 fd

theorem countsAdds_counting {κ : Type*} (K : Kernel κ) (fd : ℤ) :
    CountsAdds (watched (counting K)) fd fun k => addFailures k fd := by
  constructor
  · intro k m hfail
    change (K.epollCtlAdd k.1.1 fd m).1 = false at hfail
    simp [addFailures, watched, counting, hfail]
  · intro k m hok
    change (K.epollCtlAdd k.1.1 fd m).1 = true at hok
    simp [addFailures, watched, counting, hok]
  · intro k fd' m hne
    simp only [addFailures, watched, counting]
    split_ifs
    · rfl
    · rw [Function.update_of_ne (Ne.symm hne)]
  · intro k fd'
    rfl
  · intro k n timeout
    rfl
  · intro k
    rfl

theorem CountsAdds.grows {κ : Type*} {K : Kernel κ} {fd : ℤ} {f : κ → ℤ} (h : CountsAdds K fd f) :
    Grows K f := by
  refine ⟨fun k => (h.gettime k).ge, fun k fd' m => ?_, fun k fd' => (h.del k fd').ge⟩
  by_cases hfd : fd' = fd
  · subst hfd
    cases hok : (K.epollCtlAdd k fd' m).1 with
    | false =>
        rw [h.add_fails k m hok]
        exact le_add_of_nonneg_right zero_le_one
    | true => exact (h.add k m hok).ge
  · exact (h.add_other k fd' m hfd).ge

namespace WbaEvtbase

variable {κ : Type*} {K : Kernel κ} {fd : ℤ} {f : κ → ℤ} {v : WbaEvt}
variable {s t : WbaEvtbase κ} {active : List EvtId} {d e x : EvtId}

/-! ### No descriptor is added while the events are collected -/

theorem addFailures_eventDel (hK : CountsAdds K fd f) (s : WbaEvtbase κ) (e : EvtId) :
    f (s.eventDel K e).2.kernel = f s.kernel := by
  have hreg : ∀ u : WbaEvtbase κ, f (u.eventDelReg K e).2.kernel = f u.kernel := by
    intro u
    rcases eventDelReg_cases K u e with ⟨heq, -⟩ | ⟨heq, -⟩ | ⟨ok, k, heq, -, hk, -⟩
    · rw [heq]
    · rw [heq]
      rfl
    · have hdel := hK.del u.kernel (u.evt e).fd
      rw [hk] at hdel
      rw [heq]
      exact hdel
  rcases eventDel_cases K s e with ⟨heq, -⟩ | ⟨-, heq⟩
  · rw [heq]
  · rw [heq, hreg, eventRemoveActive_kernel, eventRemoveTimeout_kernel]

theorem addFailures_eventProcessTimeoutLoop (hK : CountsAdds K fd f) (now : Timeval) (fuel : ℕ)
    (node : Option EvtId) (cnt : ℤ) (s : WbaEvtbase κ) :
    f (WbaEvtbase.eventProcessTimeoutLoop K now fuel node cnt s).2.kernel = f s.kernel := by
  induction fuel generalizing s node cnt with
  | zero => cases node <;> rfl
  | succ fuel ih =>
      cases node with
      | none => rfl
      | some p =>
          unfold WbaEvtbase.eventProcessTimeoutLoop
          simp only
          split_ifs
          · rfl
          · rw [ih, (activeOnly_eventAddActive _ p wbaEvtTimeout).kernel, addFailures_eventDel hK]

theorem addFailures_eventCollect (hK : CountsAdds K fd f) {s' : WbaEvtbase κ}
    (hcollect : s.eventCollect K = some s') (hs : Consistent s active) :
    f s'.kernel = f s.kernel := by
  obtain ⟨rs, t, -, hreports, rfl⟩ := eventCollect_eq_some K hcollect
  have hwait : f (s.eventWait K).2.kernel = f s.kernel := by
    have hnext : f (s.eventNextTimeout K).2.kernel = f s.kernel := by
      have hclock : f (s.eventTimeget K).2.kernel = f s.kernel := hK.gettime s.kernel
      unfold eventNextTimeout
      split
      · rfl
      · simp only
        split
        · exact hclock
        · split_ifs <;> exact hclock
    exact (hK.wait _ _ _).trans hnext
  have hsame : t.kernel = (s.eventWait K).2.kernel := by
    obtain ⟨slot, hwf⟩ := hs
    obtain ⟨k, hk⟩ := eventWait_eq K s
    rw [hk] at hreports ⊢
    obtain ⟨t', -, heq, -, honly, -⟩ := (hwf.setKernel k).processReports rs
    obtain rfl : t' = t := Option.some.inj (heq.symm.trans hreports)
    exact honly.kernel
  have hclock : f (t.eventTimeget K).2.kernel = f t.kernel := hK.gettime t.kernel
  rw [← hwait, ← hsame, ← hclock]
  unfold WbaEvtbase.eventProcessTimeout
  simp only
  split
  · rfl
  · exact addFailures_eventProcessTimeoutLoop hK _ _ _ 0 _

/-- The quantity `f` grows with the failures to add the descriptor of the event `v`, if the event
has one that is to be watched. -/
structure Notes (K : Kernel κ) (v : WbaEvt) (f : κ → ℤ) : Prop extends Grows K f where
  refused : 0 ≤ v.fd → hasAny v.events wbaEvtIo = true → ∀ k m,
    (K.epollCtlAdd k v.fd m).1 = false → f k < f (K.epollCtlAdd k v.fd m).2

theorem notes_of_countsAdds (hK : CountsAdds K v.fd f) : Notes K v f := by
  refine ⟨hK.grows, fun _ _ k m hfails => ?_⟩
  rw [hK.add_fails k m hfails]
  exact Int.lt_add_one_of_le le_rfl

theorem notes_zero (hio : ¬ (0 ≤ v.fd ∧ hasAny v.events wbaEvtIo = true)) :
    Notes K v fun _ => 0 := by
  refine ⟨⟨fun _ => le_rfl, fun _ _ _ => le_rfl, fun _ _ => le_rfl⟩, fun hfd hev => ?_⟩
  exact absurd ⟨hfd, hev⟩ hio

/-! ### The event during an iteration -/

/-- The event `x`, which was `v` at the head of the loop, is pending, or it is active and its round
will make it pending again. -/
structure Kept (v : WbaEvt) (x : EvtId) (s : WbaEvtbase κ) : Prop where
  mem : x ∈ s.heap
  fd : (s.evt x).fd = v.fd
  events : (s.evt x).events = v.events
  pending : s.hasFlag x wbaEvtlistReg = true ∧
      (hasAny v.flags wbaEvtlistTimeout = true → s.hasFlag x wbaEvtlistTimeout = true) ∨
    s.hasFlag x wbaEvtlistActive = true ∧ HasInterval (s.evt x)

theorem Kept.congr (h : Kept v x s) (hmem : x ∈ t.heap) (hevt : t.evt x = s.evt x) :
    Kept v x t := by
  refine ⟨hmem, ?_, ?_, ?_⟩
  · rw [hevt]
    exact h.fd
  · rw [hevt]
    exact h.events
  · rw [hasFlag, hasFlag, hasFlag, hevt]
    exact h.pending

/-- Adding the event leaves it pending, or active with the interval it had. -/
theorem Kept.of_added (h : Kept v x s) {tv : Option Timeval} {abs : Bool} (hmem : x ∈ t.heap)
    (hadded : Added tv abs (s.evt x) (t.evt x)) : Kept v x t := by
  refine ⟨hmem, hadded.fd.trans h.fd, hadded.events.trans h.events, ?_⟩
  cases tv with
  | some tv =>
      refine Or.inl ⟨hadded.reg, fun _ => ?_⟩
      exact hadded.timed
  | none =>
      rcases h.pending with ⟨-, htimed⟩ | ⟨hactive, hinterval⟩
      · refine Or.inl ⟨hadded.reg, fun hv => ?_⟩
        rw [hasFlag, hadded.timed]
        exact htimed hv
      · refine Or.inr ⟨hadded.active.trans hactive, ?_⟩
        have htimeout : (t.evt x).timeout = (s.evt x).timeout := by
          rw [hadded.timeout]
          split_ifs <;> rfl
        rw [HasInterval, htimeout]
        exact hinterval

section Counting

variable (hK : Notes K v f)

include hK

theorem lt_of_refused (hfd : (s.evt x).fd = v.fd) (hevents : (s.evt x).events = v.events)
    (hrefused : Refused K s t x) : f s.kernel < f t.kernel := by
  have hpos := hrefused.fd
  have hio := hrefused.io
  have hfails := hrefused.fails
  rw [hfd] at hpos hfails
  rw [hasEvent, hevents] at hio
  rw [hrefused.eq, hfd]
  exact hK.refused hpos hio _ _ hfails

theorem Kept.eventAdd (h : Kept v x s) (tv : Option Timeval) (abs : Bool) :
    f s.kernel < f (s.eventAdd K x tv abs).2.kernel ∨ Kept v x (s.eventAdd K x tv abs).2 := by
  rcases added_eventAdd K h.mem tv abs with hrefused | hadded
  · exact Or.inl (lt_of_refused hK h.fd h.events hrefused)
  · apply Or.inr
    apply h.of_added _ hadded
    rw [(touches_eventAdd K s x tv abs).heap]
    exact h.mem

theorem Kept.runCall (h : Kept v x s) {c : Call} (hc : ¬ c.Removes x) :
    f s.kernel < f (s.runCall K c).kernel ∨ Kept v x (s.runCall K c) := by
  by_cases htarget : c.Targets x
  · cases c with
    | new malloc fd events fn arg => exact htarget.elim
    | add e tv =>
        obtain rfl : e = x := htarget
        change f s.kernel < f (s.wbaEventAdd K e tv).2.kernel ∨ Kept v e (s.wbaEventAdd K e tv).2
        unfold wbaEventAdd
        cases tv with
        | none => exact h.eventAdd hK none false
        | some tv =>
            simp only
            split_ifs
            · exact Or.inr h
            · exact h.eventAdd hK (some tv) false
    | del e => exact absurd (Or.inl (congrArg Call.del htarget)) hc
    | free e => exact absurd (Or.inr (congrArg Call.free htarget)) hc
  · have halone := leavesAlone_runCall hK.toGrows s htarget
    exact Or.inr (h.congr (halone.heap h.mem) (halone.evt h.mem))

theorem Kept.runCalls (h : Kept v x s) {calls : List Call} (hcalls : ¬ Removed calls x) :
    f s.kernel < f (s.runCalls K calls).kernel ∨ Kept v x (s.runCalls K calls) := by
  induction calls generalizing s with
  | nil => exact Or.inr h
  | cons c calls ih =>
      rw [removed_cons, not_or] at hcalls
      rcases h.runCall hK hcalls.1 with hlt | hkept
      · exact Or.inl (hlt.trans_le (notBefore_runCalls hK.toGrows _ calls))
      · have hle : f s.kernel ≤ f (s.runCall K c).kernel := notBefore_runCall hK.toGrows s c
        exact (ih hkept hcalls.2).imp_left hle.trans_lt

/-- A round of `event_process_active` adds an event that is not pending again. -/
theorem Kept.eventProcessActiveBody (h : Kept v x s) (hper : hasAny v.events wbaEvtPersist = true)
    (d : EvtId) :
    f s.kernel < f (s.eventProcessActiveBody K d).kernel ∨
      Kept v x (s.eventProcessActiveBody K d) := by
  have htouch := touches_eventProcessActiveBody K s d
  have hmem : x ∈ (s.eventProcessActiveBody K d).heap := htouch.heap ▸ h.mem
  by_cases hxd : x = d
  · subst hxd
    have hper' : s.hasEvent x wbaEvtPersist = true := by
      rw [hasEvent, h.events]
      exact hper
    have hsame := sameBut_eventRemoveActive s x
    rcases eventProcessActiveBody_of_persist K h.mem hper' with ⟨hno, heq⟩ |
      ⟨-, hrefused | ⟨tv, hadded⟩⟩
    · apply Or.inr
      rw [heq] at htouch hmem ⊢
      refine ⟨hmem, htouch.fd.trans h.fd, htouch.events.trans h.events, Or.inl ?_⟩
      rcases h.pending with hpending | ⟨-, hinterval⟩
      · rw [hasFlag, hasFlag, hsame.flag x _ (by decide), hsame.flag x _ (by decide)]
        exact hpending
      · exact absurd hinterval hno
    · apply Or.inl
      have hbefore : f s.kernel ≤ f (s.beforeAdd K x).kernel := by
        rw [← eventRemoveActive_kernel s x]
        exact hK.gettime _
      apply hbefore.trans_lt
      exact lt_of_refused hK ((hsame.fd x).trans h.fd) ((hsame.events x).trans h.events) hrefused
    · refine Or.inr ⟨hmem, htouch.fd.trans h.fd, htouch.events.trans h.events, Or.inl ?_⟩
      exact ⟨hadded.reg, fun _ => hadded.timed⟩
  · exact Or.inr (h.congr hmem (htouch.other x hxd))

theorem Kept.roundBase (h : Kept v x s) (hper : hasAny v.events wbaEvtPersist = true)
    {cbs : Callbacks κ} (hcalls : ¬ Removed (s.roundCalls K cbs d) x) :
    f s.kernel < f (s.roundBase K cbs d).kernel ∨ Kept v x (s.roundBase K cbs d) := by
  rcases h.eventProcessActiveBody hK hper d with hlt | hkept
  · exact Or.inl (hlt.trans_le (notBefore_runCalls hK.toGrows _ _))
  · have hle : f s.kernel ≤ f (s.eventProcessActiveBody K d).kernel :=
      notBefore_eventProcessActiveBody hK.toGrows s d
    exact (hkept.runCalls hK hcalls).imp_left hle.trans_lt

end Counting

/-- Collecting leaves an event that was pending, unless it has expired and has no interval. -/
theorem Consistent.kept_eventCollect (hs : Consistent s active) (hx : x ∈ s.heap)
    (hreg : s.hasFlag x wbaEvtlistReg = true) {s' : WbaEvtbase κ}
    (hcollect : s.eventCollect K = some s')
    (hinterval : (s.eventWait K).2.expired K x = true → HasInterval (s.evt x)) :
    Kept (s.evt x) x s' := by
  obtain ⟨slot, hwf⟩ := hs
  obtain ⟨hheap, hevt⟩ := hwf.evt_eventCollect K hcollect
  obtain ⟨w, hreported, hyes, hno⟩ := hevt x hx
  cases hexp : (s.eventWait K).2.expired K x with
  | true =>
      have hout := hyes hexp
      refine ⟨hheap ▸ hx, ?_, ?_, Or.inr ⟨hout.active, ?_⟩⟩
      · rw [hout.eq]
        exact hreported.fd
      · rw [hout.eq]
        exact hreported.events
      · rw [HasInterval, hout.eq, hreported.timeout]
        exact hinterval hexp
  | false =>
      have heq := hno hexp
      refine ⟨hheap ▸ hx, ?_, ?_, Or.inl ⟨?_, fun htimed => ?_⟩⟩
      · rw [heq]
        exact hreported.fd
      · rw [heq]
        exact hreported.events
      · rw [hasFlag, heq, hreported.flag (by decide)]
        exact hreg
      · rw [hasFlag, heq, hreported.flag (by decide)]
        exact htimed

/-! ### An event that is not added again -/

/-- A round of an event does not add the descriptor of another one. -/
theorem addFailures_eventProcessActiveBody (hK : CountsAdds K fd f)
    (hother : (s.evt e).fd ≠ fd ∨ ¬ (0 ≤ (s.evt e).fd ∧ s.hasEvent e wbaEvtIo = true)) :
    f (s.eventProcessActiveBody K e).kernel = f s.kernel := by
  have hreg : ∀ u : WbaEvtbase κ, (u.evt e).fd = (s.evt e).fd →
      (u.evt e).events = (s.evt e).events → f (u.eventAddReg K e).2.kernel = f u.kernel := by
    intro u hfd hev
    rcases hother with hne | hio
    · rcases eventAddReg_cases K u e with ⟨heq, -⟩ | ⟨k, heq, -, hk⟩ | ⟨k, heq, -, hk, hpos, -⟩
      · rw [heq]
        rfl
      · have hadd := hK.add_other u.kernel _ (epollMask (u.evt e).events) (hfd ▸ hne)
        rw [hk] at hadd
        rw [heq]
        exact hadd
      · have hadd := hK.add_other u.kernel _ (epollMask (u.evt e).events) (hfd ▸ hne)
        rw [hk] at hadd
        rw [heq, eventMapLink_eq (s := { u with kernel := k }) hpos]
        exact hadd
    · rw [eventAddReg_of_not_io]
      · rfl
      · rw [hasEvent, hfd, hev]
        exact hio
  have hset : ∀ (u : WbaEvtbase κ) tv abs,
      f (u.eventSetTimeout K e tv abs).kernel = f u.kernel := by
    intro u tv abs
    unfold eventSetTimeout
    split_ifs
    · rfl
    · exact hK.gettime _
    · exact hK.gettime _
  have hsame := sameBut_eventRemoveActive s e
  unfold eventProcessActiveBody eventReschedule
  split_ifs
  · simp only
    have hclock : f ((s.eventRemoveActive e).eventTimegetNow K).2.kernel = f s.kernel := by
      rw [← eventRemoveActive_kernel s e]
      exact hK.gettime _
    have hadd := hreg ((s.eventRemoveActive e).eventTimegetNow K).2 (hsame.fd e) (hsame.events e)
    rw [← hclock, ← hadd]
    rcases eventAdd_cases K ((s.eventRemoveActive e).eventTimegetNow K).2 e
      (some (nextDeadline (((s.eventRemoveActive e).eventTimegetNow K).2.evt e)
        ((s.eventRemoveActive e).eventTimegetNow K).1)) true with
      ⟨heq, -⟩ | ⟨-, heq, -⟩ | ⟨tv, -, -, -, heq⟩
    · rw [heq, hadd]
    · rw [heq]
    · rw [heq, eventAddTimeout_kernel, hset, eventRemoveTimeout_kernel]
  · rw [eventRemoveActive_kernel]
  · exact addFailures_eventDel hK s e

/-- The persistent event `x` is not registered and has no interval. -/
structure Dropped (x : EvtId) (s : WbaEvtbase κ) : Prop where
  mem : x ∈ s.heap
  persist : s.hasEvent x wbaEvtPersist = true
  noInterval : ¬ HasInterval (s.evt x)
  reg : s.hasFlag x wbaEvtlistReg = false

theorem Dropped.congr (h : Dropped x s) (hmem : x ∈ t.heap) (hevt : t.evt x = s.evt x) :
    Dropped x t := by
  refine ⟨hmem, ?_, ?_, ?_⟩
  · rw [hasEvent, hevt]
    exact h.persist
  · rw [hevt]
    exact h.noInterval
  · rw [hasFlag, hevt]
    exact h.reg

variable (K) in
theorem Dropped.body_self (h : Dropped x s) :
    s.eventProcessActiveBody K x = s.eventRemoveActive x := by
  rcases eventProcessActiveBody_of_persist K h.mem h.persist with ⟨-, heq⟩ | ⟨hinterval, -⟩
  · exact heq
  · exact absurd hinterval h.noInterval

variable (K) in
theorem Dropped.eventProcessActiveBody (h : Dropped x s) (d : EvtId) :
    Dropped x (s.eventProcessActiveBody K d) := by
  by_cases hxd : x = d
  · subst hxd
    rw [h.body_self K]
    have hflags := flagsOnly_eventRemoveActive s x
    refine ⟨hflags.1 ▸ h.mem, ?_, ?_, ?_⟩
    · rw [hasEvent, hflags.evt_self]
      exact h.persist
    · rw [HasInterval, hflags.evt_self]
      exact h.noInterval
    · rw [hasFlag, (sameBut_eventRemoveActive s x).flag x _ (by decide)]
      exact h.reg
  · have htouch := touches_eventProcessActiveBody K s d
    exact h.congr (htouch.heap ▸ h.mem) (htouch.other x hxd)

/-- An event without an interval that expires is no longer registered. -/
theorem Consistent.dropped_eventCollect (hs : Consistent s active) (hx : x ∈ s.heap)
    (hper : s.hasEvent x wbaEvtPersist = true) (hinterval : ¬ HasInterval (s.evt x))
    {s' : WbaEvtbase κ} (hcollect : s.eventCollect K = some s')
    (hexp : (s.eventWait K).2.expired K x = true) : Dropped x s' := by
  obtain ⟨slot, hwf⟩ := hs
  obtain ⟨hheap, hevt⟩ := hwf.evt_eventCollect K hcollect
  obtain ⟨w, hreported, hyes, -⟩ := hevt x hx
  have hout := hyes hexp
  refine ⟨hheap ▸ hx, ?_, ?_, hout.reg⟩
  · rw [hasEvent, hout.eq, hreported.events]
    exact hper
  · rw [HasInterval, hout.eq, hreported.timeout]
    exact hinterval

/-- At the head of the loop an event that will be run is registered. -/
theorem Consistent.reg_of_collected (hs : Consistent s []) (he : e ∈ s.heap) {s' : WbaEvtbase κ}
    (hcollect : s.eventCollect K = some s') (hactive : s'.hasFlag e wbaEvtlistActive = true) :
    s.hasFlag e wbaEvtlistReg = true := by
  obtain ⟨slot, hwf⟩ := hs
  obtain ⟨-, hevt⟩ := hwf.evt_eventCollect K hcollect
  obtain ⟨w, hreported, -, hno⟩ := hevt e he
  cases hexp : (s.eventWait K).2.expired K e with
  | true =>
      apply hwf.timeout_reg e he
      obtain ⟨k, hwait⟩ := eventWait_eq K s
      rw [hwait] at hexp
      unfold expired at hexp
      split at hexp
      · exact absurd hexp Bool.false_ne_true
      · exact (Bool.and_eq_true_iff.1 hexp).1
  | false =>
      rcases hreported with rfl | ⟨hwaiting, -⟩
      · rw [hasFlag, hno hexp] at hactive
        have hmem := (hwf.active.mem e).2 ⟨he, hactive⟩
        exact absurd hmem (by simp)
      · exact hwaiting.2.1.1

end WbaEvtbase

namespace Pass

variable {κ : Type*} {K : Kernel κ} {f : κ → ℤ} {v : WbaEvt} {cbs : Callbacks κ} {st : Pass κ}
variable {x : EvtId} {tr : List (Invocation κ)} {n : ℕ}

/-- Over a pass in which no callback removes the event. -/
theorem kept_steps (hK : Notes K v f) (hper : hasAny v.events wbaEvtPersist = true)
    (h : Kept v x st.base) (htrace : (steps K cbs n st).trace = st.trace ++ tr)
    (hcalls : ∀ inv ∈ tr, ¬ Removed inv.calls x) :
    f st.base.kernel < f (steps K cbs n st).base.kernel ∨ Kept v x (steps K cbs n st).base := by
  induction n generalizing st tr with
  | zero => exact Or.inr h
  | succ n ih =>
      rcases trace_succ_cases htrace with hstay | ⟨d, -, tr', hbase, -, rfl, htr'⟩
      · rw [steps, hstay] at htrace ⊢
        exact ih h htrace hcalls
      · rw [List.forall_mem_cons] at hcalls
        have hround := h.roundBase hK hper hcalls.1
        rw [← hbase] at hround
        rcases hround with hlt | hkept
        · exact Or.inl (hlt.trans_le (notBefore_steps hK.toGrows n _))
        · have hle : f st.base.kernel ≤ f (step K cbs st).base.kernel :=
            notBefore_steps hK.toGrows 1 st
          exact (ih hkept htr' hcalls.2).imp_left hle.trans_lt

/-- Callbacks that make no calls do not bring a dropped event back. -/
theorem dropped_steps (hx : Dropped x st.base) (n : ℕ) :
    Dropped x (steps K quiet n st).base := by
  induction n generalizing st with
  | zero => exact hx
  | succ n ih =>
      apply ih
      rcases step_cases K quiet st with hstay | ⟨d, -, hbase, -⟩
      · rw [hstay]
        exact hx
      · rw [hbase]
        exact hx.eventProcessActiveBody K d

theorem calls_quiet (htrace : ∀ inv ∈ st.trace, inv.calls = []) (n : ℕ) :
    ∀ inv ∈ (steps K quiet n st).trace, inv.calls = [] := by
  induction n generalizing st with
  | zero => exact htrace
  | succ n ih =>
      apply ih
      rcases step_cases K quiet st with hstay | ⟨d, -, -, hone⟩
      · rw [hstay]
        exact htrace
      · rw [hone, List.forall_mem_append]
        refine ⟨htrace, fun inv hinv => ?_⟩
        obtain rfl := List.mem_singleton.1 hinv
        rfl

/-- The descriptor of a dropped event is not added if no other event that is still to be run
has it. -/
theorem addFailures_steps {fd : ℤ} {rem : List EvtId} (hK : CountsAdds K fd f) (h : Heads st rem)
    (hx : Dropped x st.base)
    (hother : ∀ y ∈ rem, y ≠ x → (st.base.evt y).fd ≠ fd ∨
      ¬ (0 ≤ (st.base.evt y).fd ∧ st.base.hasEvent y wbaEvtIo = true)) (n : ℕ) :
    f (steps K quiet n st).base.kernel = f st.base.kernel := by
  induction n generalizing st rem with
  | zero => rfl
  | succ n ih =>
      cases rem with
      | nil => rw [steps_of_ended h.ended]
      | cons e rest =>
          have hstep : Heads (step K quiet st) _ := h.step fun f _ hrem => by
            simp [Removed, roundCalls, invocation, quiet] at hrem
          have hbase : (step K quiet st).base = st.base.eventProcessActiveBody K e := by
            rw [step_entry h.evt h.mem_heap]
            rfl
          have htouch := touches_eventProcessActiveBody K st.base e
          have hkernel : f (st.base.eventProcessActiveBody K e).kernel = f st.base.kernel := by
            by_cases hex : e = x
            · subst hex
              rw [hx.body_self K, eventRemoveActive_kernel]
            · exact addFailures_eventProcessActiveBody hK (hother e (by simp) hex)
          rw [steps, ← hkernel, ← hbase]
          refine ih hstep (hbase ▸ hx.eventProcessActiveBody K e) fun y hy hyx => ?_
          have hmem := (mem_spared.1 hy).1
          have hye : y ≠ e := by
            rintro rfl
            exact (List.nodup_cons.1 h.consistent.nodup).1 hmem
          rw [hbase, hasEvent, htouch.other y hye]
          exact hother y (List.mem_cons_of_mem e hmem) hyx

end Pass

namespace WbaEvtbase

variable {κ : Type*} {K : Kernel κ} {interest : κ → ℤ → Option (BitVec 32)}
variable {s s' : WbaEvtbase ((κ × (ℤ → ℕ)) × Bool)} {x : EvtId}

/-! ### After an iteration -/

/-- Whatever the callbacks do in the iteration that has collected `s'` in `s`, if it ends, none of
them has removed the event and its descriptor could always be added, then the event is still
pending. -/
def StaysPending (K : Kernel κ) (interest : κ → ℤ → Option (BitVec 32))
    (s s' : WbaEvtbase ((κ × (ℤ → ℕ)) × Bool)) (x : EvtId) : Prop :=
  ∀ cbs fuel cnt t tr,
    s'.eventProcessActive (watched (counting K)) cbs fuel = some (cnt, t, tr) →
    (∀ inv ∈ tr, ¬ Removed inv.calls x) →
    (s.InMap x → addFailures t.kernel (s.evt x).fd = addFailures s.kernel (s.evt x).fd) →
    t.hasFlag x wbaEvtlistReg = true ∧
    (0 ≤ (s.evt x).fd → s.hasEvent x wbaEvtIo = true →
      (∃ i < t.size, ∃ xs, Ring t.evtList i xs ∧ x ∈ xs) ∧
        interest t.kernel.1.1 (s.evt x).fd = some (epollMask (s.evt x).events)) ∧
    (s.hasFlag x wbaEvtlistTimeout = true → x ∈ t.evtTimeRoot.inorder)

/-- What `Kept` says of an event once the pass is over and nothing is active. -/
theorem Kept.ended {κ : Type*} {v : WbaEvt} {t : WbaEvtbase κ} (h : Kept v x t)
    (ht : Consistent t []) : t.hasFlag x wbaEvtlistReg = true ∧
      (hasAny v.flags wbaEvtlistTimeout = true → t.hasFlag x wbaEvtlistTimeout = true) := by
  rcases h.pending with hpending | ⟨hactive, -⟩
  · exact hpending
  · obtain ⟨slot, hwf⟩ := ht
    have hmem := (hwf.active.mem x).2 ⟨h.mem, hactive⟩
    exact absurd hmem (by simp)

/-- At most one event that will be run has a descriptor of the map. -/
theorem Agrees.other_fd {interest : κ → ℤ → Option (BitVec 32)} {K : Kernel (κ × Bool)}
    {s s' : WbaEvtbase (κ × Bool)} (hagrees : Agrees interest s) (hs : Consistent s [])
    (hcollect : s.eventCollect K = some s') (hx : x ∈ s.heap) (hin : s.InMap x)
    {active : List EvtId} (hs' : Consistent s' active) {y : EvtId} (hy : y ∈ active) (hyx : y ≠ x) :
    (s'.evt y).fd ≠ (s.evt x).fd ∨ ¬ (0 ≤ (s'.evt y).fd ∧ s'.hasEvent y wbaEvtIo = true) := by
  obtain ⟨slot, hwf⟩ := id hs
  obtain ⟨slot', hwf'⟩ := hs'
  obtain ⟨hheap, hevt⟩ := hwf.evt_eventCollect K hcollect
  obtain ⟨hmem, hactive⟩ := (hwf'.active.mem y).1 hy
  rw [hheap] at hmem
  have hreg := hs.reg_of_collected hmem hcollect hactive
  have hdesc : (s'.evt y).fd = (s.evt y).fd ∧ (s'.evt y).events = (s.evt y).events := by
    obtain ⟨w, hreported, hyes, hno⟩ := hevt y hmem
    rw [← hreported.fd, ← hreported.events]
    cases hexp : (s.eventWait K).2.expired K y with
    | true =>
        rw [(hyes hexp).eq]
        exact ⟨rfl, rfl⟩
    | false =>
        rw [hno hexp]
        exact ⟨rfl, rfl⟩
  rw [hasEvent, hdesc.1, hdesc.2, or_iff_not_imp_left, not_not]
  intro hfd hio
  exact hyx (hagrees.unique y hmem x hx ⟨hreg, hio⟩ hin hfd)

/-- Once nothing is active, an event that was kept is in the containers it belongs into. -/
theorem Kept.linked {κ : Type*} {interest : κ → ℤ → Option (BitVec 32)} {v : WbaEvt}
    {t : WbaEvtbase (κ × Bool)} (h : Kept v x t) (ht : Consistent t [])
    (hagrees : Agrees interest t) :
    t.hasFlag x wbaEvtlistReg = true ∧
      (0 ≤ v.fd → hasAny v.events wbaEvtIo = true →
        (∃ i < t.size, ∃ xs, Ring t.evtList i xs ∧ x ∈ xs) ∧
          interest t.kernel.1 v.fd = some (epollMask v.events)) ∧
      (hasAny v.flags wbaEvtlistTimeout = true → x ∈ t.evtTimeRoot.inorder) := by
  obtain ⟨hreg, htimed⟩ := h.ended ht
  obtain ⟨slot, hwf⟩ := ht
  refine ⟨hreg, fun hfd hio => ?_, fun hto => ?_⟩
  · have hin : t.InMap x := by
      rw [InMap, hasEvent, h.fd, h.events]
      exact ⟨hreg, hfd, hio⟩
    have hlt := hwf.map.slotOf_lt x
    refine ⟨⟨t.slotOf x, hwf.map.size ▸ hlt, slot (t.slotOf x), hwf.map.ring _ hlt, ?_⟩, ?_⟩
    · exact (hwf.map.mem _ hlt x).2 ⟨h.mem, hin, rfl⟩
    · rw [← h.fd, ← h.events]
      exact (hagrees.interest _ _).2 ⟨x, h.mem, hin, rfl, rfl⟩
  · exact (hwf.timer.mem x).2 ⟨h.mem, htimed hto⟩

/-- Callbacks that make no calls are enough to lose a dropped event. -/
theorem not_staysPending_of_dropped (hK : EpollCtl K interest) {k : κ}
    (hk : ∀ fd, interest k fd = none)
    (h : LoopHead (watched (counting K)) ((k, fun _ => 0), false) s) (hx : x ∈ s.heap)
    (hcollect : s.eventCollect (watched (counting K)) = some s') (hdropped : Dropped x s') :
    ¬ StaysPending K interest s s' x := by
  intro hstays
  have hcounts := countsAdds_counting K (s.evt x).fd
  obtain ⟨active, hcons⟩ := h.consistent.eventCollect _ hcollect
  have hquiet : RemovesOwn (quiet (κ := (κ × (ℤ → ℕ)) × Bool)) := by
    intro u e c hc
    simp [invocation, quiet] at hc
  obtain ⟨fuel, cnt, t, tr, hrun⟩ := hquiet.eventProcessActive (K := watched (counting K)) hcons
  obtain ⟨-, rfl, rfl⟩ := eventProcessActive_eq_some _ hrun
  have hstart : Dropped x (Pass.start s').base := hdropped
  have hend := Pass.dropped_steps (K := watched (counting K)) hstart fuel
  have hreg := (hstays quiet fuel cnt _ _ hrun ?_ ?_).1
  · rw [hend.reg] at hreg
    exact Bool.false_ne_true hreg
  · intro inv hinv
    rw [Pass.calls_quiet (by simp [Pass.start]) fuel inv hinv]
    simp [Removed]
  · intro hin
    rw [← addFailures_eventCollect hcounts hcollect h.consistent]
    have hagrees := h.reachable.agrees hK.counting fun fd => hk fd
    exact Pass.addFailures_steps hcounts (Pass.heads_start hcons) hdropped
      (fun y hy hyx => hagrees.other_fd h.consistent hcollect hx hin hcons hy hyx) fuel

/-- A persistent event stays pending over an iteration exactly when it does not expire in it or has
an interval other than zero. -/
theorem staysPending_iff (hK : EpollCtl K interest) {k : κ} (hk : ∀ fd, interest k fd = none)
    (h : LoopHead (watched (counting K)) ((k, fun _ => 0), false) s) (hx : x ∈ s.heap)
    (hper : s.hasEvent x wbaEvtPersist = true) (hreg : s.hasFlag x wbaEvtlistReg = true)
    (hcollect : s.eventCollect (watched (counting K)) = some s') :
    StaysPending K interest s s' x ↔
      ((s.eventWait (watched (counting K))).2.expired (watched (counting K)) x = true →
        HasInterval (s.evt x)) := by
  constructor
  · intro hstays hexp
    by_contra hinterval
    have hdropped := h.consistent.dropped_eventCollect hx hper hinterval hcollect hexp
    exact not_staysPending_of_dropped hK hk h hx hcollect hdropped hstays
  · intro hinterval cbs fuel cnt t tr hrun hcalls hadds
    have hcounts := countsAdds_counting K (s.evt x).fd
    have hfailures := addFailures_eventCollect hcounts hcollect h.consistent
    obtain ⟨active, hcons⟩ := h.consistent.eventCollect _ hcollect
    obtain ⟨hend, rfl, rfl⟩ := eventProcessActive_eq_some _ hrun
    set t := (Pass.steps (watched (counting K)) cbs fuel (Pass.start s')).base with ht
    have hempty : Consistent t [] := ((Pass.heads_start hcons).of_ended hend).1
    have hstart : Kept (s.evt x) x (Pass.start s').base :=
      h.consistent.kept_eventCollect hx hreg hcollect hinterval
    have hkept : Kept (s.evt x) x t := by
      by_cases hio : 0 ≤ (s.evt x).fd ∧ hasAny (s.evt x).events wbaEvtIo = true
      · refine (Pass.kept_steps (notes_of_countsAdds hcounts) hper hstart rfl
          hcalls).resolve_left fun hlt => ?_
        rw [← ht, hadds ⟨hreg, hio⟩, ← hfailures] at hlt
        exact lt_irrefl _ hlt
      · exact (Pass.kept_steps (notes_zero hio) hper hstart rfl hcalls).resolve_left (lt_irrefl 0)
    have hreach : Reachable (watched (counting K)) ((k, fun _ => 0), false) t :=
      Pass.reachable_steps (h.reachable.eventCollect _ hcollect) fuel
    exact hkept.linked hempty (hreach.agrees hK.counting fun fd => hk fd)

/-- The state of a simulated kernel that counts failures. -/
abbrev CountingSim := (SimState × (ℤ → ℕ)) × Bool

/-- A persistent timer with the interval zero. -/
def zeroBase : WbaEvtbase CountingSim :=
  (newBase (({}, fun _ => 0), false)).runCalls (watched (counting simKernel))
    [.new (some 0) (-1) wbaEvtPersist (some 1) .null, .add 0 (some ⟨0, 0⟩)]

/-- The timer expires in the first iteration and is not added again. -/
theorem not_staysPending_zeroBase :
    LoopHead (watched (counting simKernel)) (({}, fun _ => 0), false) zeroBase ∧
      0 ∈ zeroBase.heap ∧ zeroBase.hasEvent 0 wbaEvtPersist = true ∧
      zeroBase.hasFlag 0 wbaEvtlistReg = true ∧
      ∃ s', zeroBase.eventCollect (watched (counting simKernel)) = some s' ∧
        ¬ StaysPending simKernel simInterest zeroBase s' 0 := by
  refine ⟨loopHead_newBase _ _ _, by decide +kernel, by decide +kernel, by decide +kernel, ?_⟩
  obtain ⟨s', hs'⟩ : ∃ s', zeroBase.eventCollect (watched (counting simKernel)) = some s' :=
    Option.isSome_iff_exists.1 (by decide +kernel)
  refine ⟨s', hs', fun hstays => ?_⟩
  have hrun : (zeroBase.eventCollect (watched (counting simKernel))).map (fun s' =>
      (s'.eventProcessActive (watched (counting simKernel)) quiet 1).map fun r =>
        (r.2.1.hasFlag 0 wbaEvtlistReg, r.2.2.map Invocation.calls)) =
      some (some (false, [[]])) := by
    decide +kernel
  rw [hs', Option.map_some, Option.some_inj, Option.map_eq_some_iff] at hrun
  obtain ⟨⟨cnt, t, tr⟩, hrun, hend⟩ := hrun
  obtain ⟨hreg, hcalls⟩ := Prod.mk.inj hend
  have hreg' := (hstays quiet 1 cnt t tr hrun ?_ ?_).1
  · exact Bool.false_ne_true (hreg.symm.trans hreg')
  · intro inv hinv
    have hnil : inv.calls = [] := by
      have hmem := List.mem_map_of_mem (f := Invocation.calls) hinv
      rw [hcalls] at hmem
      exact List.mem_singleton.1 hmem
    rw [hnil]
    simp [Removed]
  · intro hin
    exact absurd hin (by decide +kernel)

/-- A persistent reader with an interval, whose deadline has expired. -/
def intervalBase : WbaEvtbase CountingSim :=
  (newBase (({ tick := 2 }, fun _ => 0), false)).runCalls (watched (counting simKernel))
    [.new (some 0) 7 (wbaEvtPersist ||| wbaEvtRead) (some 1) .null, .add 0 (some ⟨0, 1⟩)]

theorem staysPending_intervalBase :
    ∃ s', intervalBase.eventCollect (watched (counting simKernel)) = some s' ∧
      (intervalBase.eventWait (watched (counting simKernel))).2.expired
        (watched (counting simKernel)) 0 = true ∧
      StaysPending simKernel simInterest intervalBase s' 0 := by
  obtain ⟨s', hs'⟩ : ∃ s', intervalBase.eventCollect (watched (counting simKernel)) = some s' :=
    Option.isSome_iff_exists.1 (by decide +kernel)
  have hhead : LoopHead (watched (counting simKernel)) (({ tick := 2 }, fun _ => 0), false)
      intervalBase := loopHead_newBase _ _ _
  refine ⟨s', hs', by decide +kernel, ?_⟩
  refine (staysPending_iff epollCtl_simKernel (fun _ => rfl) hhead (by decide +kernel)
    (by decide +kernel) (by decide +kernel) hs').2 fun _ => ?_
  exact Or.inr (by decide +kernel)

end WbaEvtbase

end Miscellany
