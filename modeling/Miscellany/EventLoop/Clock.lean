import Miscellany.EventLoop.Dispatch

/-!
# A clock that does not go back

`SteadyClock` says what is assumed of `clock_gettime`: it succeeds, the nanoseconds are
less than a second, and no reading is before the last one. No operation of the base, and
no callback, then leaves the last reading earlier than it found it (`NotBefore`). This
holds of every quantity that no call of the kernel makes smaller (`Grows`).
-/

namespace Miscellany

open WbaEvtbase

/-- The clock does not fail and does not go back; `last` is its last reading, in
microseconds. -/
structure SteadyClock {κ : Type*} (K : Kernel κ) (last : κ → ℤ) : Prop where
  gettime : ∀ k, ∃ ts, (K.clockGettime k).1 = some ts ∧ 0 ≤ ts.tvNsec ∧ ts.tvNsec < 1000000000 ∧
    last k ≤ ts.tvSec * 1000000 + ts.tvNsec / 1000 ∧
    last (K.clockGettime k).2 = ts.tvSec * 1000000 + ts.tvNsec / 1000
  add : ∀ k fd m, last (K.epollCtlAdd k fd m).2 = last k
  del : ∀ k fd, last (K.epollCtlDel k fd).2 = last k
  wait : ∀ k n timeout, last (K.epollWait k n timeout).2 = last k

/-- No call of the kernel makes the quantity `f` of its state smaller. -/
structure Grows {κ : Type*} (K : Kernel κ) (f : κ → ℤ) : Prop where
  gettime : ∀ k, f k ≤ f (K.clockGettime k).2
  add : ∀ k fd m, f k ≤ f (K.epollCtlAdd k fd m).2
  del : ∀ k fd, f k ≤ f (K.epollCtlDel k fd).2

theorem SteadyClock.grows {κ : Type*} {K : Kernel κ} {last : κ → ℤ} (h : SteadyClock K last) :
    Grows K last := by
  refine ⟨fun k => ?_, fun k fd m => (h.add k fd m).ge, fun k fd => (h.del k fd).ge⟩
  obtain ⟨ts, -, -, -, hle, hlast⟩ := h.gettime k
  exact hle.trans hlast.ge

namespace WbaEvtbase

variable {κ : Type*} {K : Kernel κ} {last : κ → ℤ}
variable {s t u : WbaEvtbase κ} {active : List EvtId} {d e x : EvtId}

/-! ### The clock does not go back -/

theorem SteadyClock.eventTimeget (hK : SteadyClock K last) (s : WbaEvtbase κ) :
    ∃ now, (s.eventTimeget K).1 = some now ∧ now.Normalised ∧ last s.kernel ≤ now.micros ∧
      last (s.eventTimeget K).2.kernel = now.micros := by
  obtain ⟨ts, hts, hnonneg, hlt, hle, hlast⟩ := hK.gettime s.kernel
  have hdiv : ts.tvNsec.tdiv 1000 = ts.tvNsec / 1000 := Int.tdiv_eq_ediv_of_nonneg hnonneg
  refine ⟨⟨ts.tvSec, ts.tvNsec.tdiv 1000⟩, ?_, ?_, ?_, ?_⟩
  · simp [WbaEvtbase.eventTimeget, hts]
  · rw [Timeval.Normalised]
    simp only [hdiv]
    omega
  · simpa only [Timeval.micros, hdiv] using hle
  · change last (K.clockGettime s.kernel).2 = _
    simpa only [Timeval.micros, hdiv] using hlast

theorem SteadyClock.eventTimegetNow (hK : SteadyClock K last) (s : WbaEvtbase κ) :
    (s.eventTimegetNow K).1.Normalised ∧ last s.kernel ≤ (s.eventTimegetNow K).1.micros ∧
      last (s.eventTimegetNow K).2.kernel = (s.eventTimegetNow K).1.micros := by
  obtain ⟨now, hnow, hnorm, hle, hlast⟩ := SteadyClock.eventTimeget hK s
  have heq : (s.eventTimegetNow K).1 = now := by
    simp [WbaEvtbase.eventTimegetNow, hnow]
  rw [heq]
  exact ⟨hnorm, hle, hlast⟩

/-- The last clock reading of `t` is not before that of `s`. -/
def NotBefore (last : κ → ℤ) (s t : WbaEvtbase κ) : Prop := last s.kernel ≤ last t.kernel

theorem NotBefore.refl (s : WbaEvtbase κ) : NotBefore last s s := le_refl _

theorem NotBefore.trans (hst : NotBefore last s t) (htu : NotBefore last t u) :
    NotBefore last s u := le_trans hst htu

theorem NotBefore.of_kernel (h : t.kernel = s.kernel) : NotBefore last s t := by
  rw [NotBefore, h]

theorem eventRemoveTimeout_kernel (s : WbaEvtbase κ) (e : EvtId) :
    (s.eventRemoveTimeout e).kernel = s.kernel := by
  unfold eventRemoveTimeout
  split_ifs <;> rfl

theorem eventAddTimeout_kernel (s : WbaEvtbase κ) (e : EvtId) :
    (s.eventAddTimeout e).kernel = s.kernel := by
  unfold eventAddTimeout
  split_ifs <;> rfl

theorem eventRemoveActive_kernel (s : WbaEvtbase κ) (e : EvtId) :
    (s.eventRemoveActive e).kernel = s.kernel := by
  unfold eventRemoveActive
  split_ifs <;> rfl

variable (hK : Grows K last)

include hK

theorem notBefore_eventAddReg (s : WbaEvtbase κ) (e : EvtId) :
    NotBefore last s (s.eventAddReg K e).2 := by
  rcases eventAddReg_cases K s e with ⟨heq, -⟩ | ⟨k, heq, -, hk⟩ | ⟨k, heq, -, hk, hfd, -⟩
  · rw [heq]
    exact NotBefore.refl s
  · have hlast := hK.add s.kernel (s.evt e).fd (epollMask (s.evt e).events)
    rw [hk] at hlast
    rw [heq]
    exact hlast
  · have hlast := hK.add s.kernel (s.evt e).fd (epollMask (s.evt e).events)
    rw [hk] at hlast
    rw [heq, eventMapLink_eq (s := { s with kernel := k }) hfd]
    exact hlast

theorem notBefore_eventDelReg (s : WbaEvtbase κ) (e : EvtId) :
    NotBefore last s (s.eventDelReg K e).2 := by
  rcases eventDelReg_cases K s e with ⟨heq, -⟩ | ⟨heq, -⟩ | ⟨ok, k, heq, -, hk, -⟩
  · rw [heq]
    exact NotBefore.refl s
  · rw [heq]
    exact NotBefore.refl s
  · have hlast := hK.del s.kernel (s.evt e).fd
    rw [hk] at hlast
    rw [heq]
    exact hlast

theorem notBefore_eventSetTimeout (s : WbaEvtbase κ) (e : EvtId) (tv : Timeval) (abs : Bool) :
    NotBefore last s (s.eventSetTimeout K e tv abs) := by
  have hclock : last s.kernel ≤ last (K.clockGettime s.kernel).2 := hK.gettime s.kernel
  unfold eventSetTimeout
  split_ifs
  · exact NotBefore.refl s
  · exact hclock
  · exact hclock

theorem notBefore_eventAdd (s : WbaEvtbase κ) (e : EvtId) (tv : Option Timeval) (abs : Bool) :
    NotBefore last s (s.eventAdd K e tv abs).2 := by
  rcases eventAdd_cases K s e tv abs with ⟨heq, -⟩ | ⟨-, heq, -⟩ | ⟨t, -, -, -, heq⟩
  · rw [heq]
    exact NotBefore.refl s
  · rw [heq]
    exact notBefore_eventAddReg hK s e
  · rw [heq]
    exact (((notBefore_eventAddReg hK s e).trans
      (NotBefore.of_kernel (eventRemoveTimeout_kernel _ e))).trans
      (notBefore_eventSetTimeout hK _ e t abs)).trans
      (NotBefore.of_kernel (eventAddTimeout_kernel _ e))

theorem notBefore_eventDel (s : WbaEvtbase κ) (e : EvtId) :
    NotBefore last s (s.eventDel K e).2 := by
  rcases eventDel_cases K s e with ⟨heq, -⟩ | ⟨-, heq⟩
  · rw [heq]
    exact NotBefore.refl s
  · rw [heq]
    exact ((NotBefore.of_kernel (eventRemoveTimeout_kernel s e)).trans
      (NotBefore.of_kernel (eventRemoveActive_kernel _ e))).trans (notBefore_eventDelReg hK _ e)

theorem notBefore_runCall (s : WbaEvtbase κ) (c : Call) : NotBefore last s (s.runCall K c) := by
  cases c with
  | new malloc fd events fn arg =>
      refine NotBefore.of_kernel ?_
      change (s.wbaEventNew malloc fd events fn arg).2.kernel = s.kernel
      rcases wbaEventNew_cases s malloc fd events fn arg with heq | ⟨e, f, -, heq⟩
      · rw [heq]
      · rw [heq]
        rfl
  | add e tv =>
      change NotBefore last s (s.wbaEventAdd K e tv).2
      unfold wbaEventAdd
      cases tv with
      | none => exact notBefore_eventAdd hK s e none false
      | some t =>
          simp only
          split_ifs
          · exact NotBefore.refl s
          · exact notBefore_eventAdd hK s e (some t) false
  | del e => exact notBefore_eventDel hK s e
  | free e => exact notBefore_eventDel hK s e

theorem notBefore_runCalls (s : WbaEvtbase κ) (calls : List Call) :
    NotBefore last s (s.runCalls K calls) := by
  induction calls generalizing s with
  | nil => exact NotBefore.refl s
  | cons c calls ih => exact (notBefore_runCall hK s c).trans (ih _)

theorem notBefore_eventProcessActiveBody (s : WbaEvtbase κ) (e : EvtId) :
    NotBefore last s (s.eventProcessActiveBody K e) := by
  have hremove : NotBefore last s (s.eventRemoveActive e) :=
    NotBefore.of_kernel (eventRemoveActive_kernel s e)
  unfold eventProcessActiveBody eventReschedule
  split_ifs
  · have hclock : NotBefore last (s.eventRemoveActive e)
        ((s.eventRemoveActive e).eventTimegetNow K).2 := hK.gettime _
    exact (hremove.trans hclock).trans (notBefore_eventAdd hK _ e _ true)
  · exact hremove
  · exact notBefore_eventDel hK s e

theorem notBefore_roundBase (cbs : Callbacks κ) (s : WbaEvtbase κ) (e : EvtId) :
    NotBefore last s (s.roundBase K cbs e) :=
  (notBefore_eventProcessActiveBody hK s e).trans (notBefore_runCalls hK _ _)

theorem notBefore_eventProcessTimeoutLoop (now : Timeval) (fuel : ℕ) (node : Option EvtId)
    (cnt : ℤ) (s : WbaEvtbase κ) :
    NotBefore last s (eventProcessTimeoutLoop K now fuel node cnt s).2 := by
  induction fuel generalizing s node cnt with
  | zero => cases node <;> exact NotBefore.refl s
  | succ fuel ih =>
      cases node with
      | none => exact NotBefore.refl s
      | some p =>
          have hexpire : NotBefore last s (s.expire K p) :=
            (notBefore_eventDel hK s p).trans
              (NotBefore.of_kernel (activeOnly_eventAddActive _ p wbaEvtTimeout).kernel)
          unfold eventProcessTimeoutLoop
          simp only
          split_ifs
          · exact NotBefore.refl s
          · exact hexpire.trans (ih _ _ _)

omit hK

/-- The events that `event_process_timeout` finds due are due by the last reading. -/
theorem notBefore_eventProcessTimeout (hK : SteadyClock K last) (s : WbaEvtbase κ) {now : Timeval}
    (hnow : (s.eventTimeget K).1 = some now) :
    now.micros ≤ last (s.eventProcessTimeout K).2.kernel := by
  obtain ⟨now', hnow', -, -, hlast⟩ := SteadyClock.eventTimeget hK s
  obtain rfl : now' = now := Option.some.inj (hnow'.symm.trans hnow)
  unfold eventProcessTimeout
  simp only [hnow]
  rw [← hlast]
  exact notBefore_eventProcessTimeoutLoop hK.grows now' _ _ 0 _

end WbaEvtbase

theorem Pass.notBefore_steps {κ : Type*} {K : Kernel κ} {last : κ → ℤ} (hK : Grows K last)
    {cbs : Callbacks κ} (n : ℕ) (st : Pass κ) :
    NotBefore last st.base (Pass.steps K cbs n st).base := by
  induction n generalizing st with
  | zero => exact NotBefore.refl st.base
  | succ n ih =>
      have hstep : NotBefore last st.base (Pass.step K cbs st).base := by
        unfold Pass.step
        split
        · split_ifs
          · exact notBefore_roundBase hK cbs st.base _
          · exact NotBefore.refl st.base
        · exact NotBefore.refl st.base
      exact hstep.trans (ih _)

end Miscellany
