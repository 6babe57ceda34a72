import Miscellany.EventLoop.Effect
import Miscellany.EventLoop.Epoll
import Miscellany.Library.SortedList

/-!
# Adding and deleting

`wba_event_add` combines the three results of `event_map_add` with the flag `REG` and
with the optional timeout. A failed add leaves everything as it was, and an add that
succeeds leaves the event in the map or in the time tree (`AddContract`), with one
exception: an event without a descriptor to watch that is added without a timeout. It
is marked as registered although the call fails, and the next such call succeeds.

`wba_event_del` undoes `wba_event_add` in every case.
-/

namespace Miscellany

open ListHead

namespace WbaEvtbase

variable {κ : Type*} {K : Kernel κ} {interest : κ → ℤ → Option (BitVec 32)}
variable {s t : WbaEvtbase κ} {active : List EvtId} {slot : ℕ → List EvtId} {e : EvtId}

/-! ### A failed add -/

/-- The events, the containers, the counters and the watched descriptors are the same. -/
structure Unchanged (interest : κ → ℤ → Option (BitVec 32)) (s t : WbaEvtbase κ) : Prop where
  evt : t.evt = s.evt
  heap : t.heap = s.heap
  evtList : t.evtList = s.evtList
  evtTimeRoot : t.evtTimeRoot = s.evtTimeRoot
  evtActiveList : t.evtActiveList = s.evtActiveList
  used : t.used = s.used
  eventCount : t.eventCount = s.eventCount
  eventCountActive : t.eventCountActive = s.eventCountActive
  interest : interest t.kernel = interest s.kernel

theorem Unchanged.refl (interest : κ → ℤ → Option (BitVec 32)) (s : WbaEvtbase κ) :
    Unchanged interest s s :=
  ⟨rfl, rfl, rfl, rfl, rfl, rfl, rfl, rfl, rfl⟩

/-- The event is in a slot of the map or in the time tree. -/
def InContainers (s : WbaEvtbase κ) (e : EvtId) : Prop :=
  (∃ i < s.size, ∃ xs, Ring s.evtList i xs ∧ e ∈ xs) ∨ e ∈ s.evtTimeRoot.inorder

/-- A failed `wba_event_add` changes nothing, and after one that succeeds the event is pending. -/
def AddContract (K : Kernel κ) (interest : κ → ℤ → Option (BitVec 32)) (s : WbaEvtbase κ)
    (e : EvtId) (tv : Option Timeval) : Prop :=
  ((s.wbaEventAdd K e tv).1 = 0 → Unchanged interest s (s.wbaEventAdd K e tv).2) ∧
    ((s.wbaEventAdd K e tv).1 ≠ 0 → (s.wbaEventAdd K e tv).2.InContainers e)

/-- The event has a descriptor to watch. -/
def Watchable (v : WbaEvt) : Prop := 0 ≤ v.fd ∧ hasAny v.events wbaEvtIo = true

instance (v : WbaEvt) : Decidable (Watchable v) := inferInstanceAs (Decidable (_ ∧ _))

theorem WellFormed.inContainers_iff (h : WellFormed s active slot) (he : e ∈ s.heap) :
    s.InContainers e ↔ s.InMap e ∨ s.hasFlag e wbaEvtlistTimeout = true := by
  have hsize := h.map.size
  rw [InContainers, h.timer.mem, and_iff_right he]
  apply or_congr_left
  constructor
  · rintro ⟨i, hi, xs, hring, hmem⟩
    rw [hsize] at hi
    rw [hring.unique (h.map.ring i hi)] at hmem
    exact ((h.map.mem i hi e).1 hmem).2.1
  · intro hin
    have hlt := h.map.slotOf_lt e
    exact ⟨s.slotOf e, hsize ▸ hlt, slot (s.slotOf e), h.map.ring _ hlt,
      (h.map.mem _ hlt e).2 ⟨he, hin, rfl⟩⟩

theorem WellFormed.mem_heap_of_inContainers (h : WellFormed s active slot)
    (hin : s.InContainers e) : e ∈ s.heap := by
  rcases hin with ⟨i, hi, xs, hring, hmem⟩ | hmem
  · rw [h.map.size] at hi
    rw [hring.unique (h.map.ring i hi)] at hmem
    exact ((h.map.mem i hi e).1 hmem).1
  · exact ((h.timer.mem e).1 hmem).1

theorem unchanged_setKernel {k : κ} (hk : interest k = interest s.kernel) :
    Unchanged interest s { s with kernel := k } :=
  ⟨rfl, rfl, rfl, rfl, rfl, rfl, rfl, rfl, hk⟩

/-- A descriptor that the kernel refuses is not watched afterwards if it was not before. -/
theorem Refused.unchanged (hK : EpollCtl K interest) (h : Refused K s t e) :
    Unchanged interest s t := by
  rw [h.eq]
  exact unchanged_setKernel (hK.add_fails _ _ _ h.fails)

theorem WellFormed.inContainers_eventAdd (h : WellFormed s active slot) (he : e ∈ s.heap)
    {tv : Option Timeval} {abs : Bool}
    (hin : (s.eventAdd K e tv abs).2.InMap e ∨
      (s.eventAdd K e tv abs).2.hasFlag e wbaEvtlistTimeout = true) :
    (s.eventAdd K e tv abs).2.InContainers e := by
  obtain ⟨slot', hwf⟩ := h.eventAdd K e tv abs
  rw [hwf.inContainers_iff]
  · exact hin
  · rw [(touches_eventAdd K s e tv abs).heap]
    exact he

/-- An add with a timeout fails only if the timeout is negative or the kernel refuses. -/
theorem WellFormed.addContract_some (hK : EpollCtl K interest) (h : WellFormed s active slot)
    (he : e ∈ s.heap) (tv : Timeval) : AddContract K interest s e (some tv) := by
  unfold AddContract wbaEventAdd
  simp only
  split_ifs
  · exact ⟨fun _ => Unchanged.refl interest s, fun hne => absurd rfl hne⟩
  · rcases added_eventAdd_some K he tv false with ⟨hzero, hrefused⟩ | ⟨hone, hadded⟩
    · exact ⟨fun _ => hrefused.unchanged hK, fun hne => absurd hzero hne⟩
    · refine ⟨fun hzero => ?_, fun _ => h.inContainers_eventAdd he (Or.inr hadded.timed)⟩
      rw [hone] at hzero
      exact absurd hzero one_ne_zero

/-- An event that is registered already is left alone, and the add succeeds. -/
theorem WellFormed.addContract_of_reg (h : WellFormed s active slot) (he : e ∈ s.heap)
    (hreg : s.hasFlag e wbaEvtlistReg = true) :
    AddContract K interest s e none ↔
      Watchable (s.evt e) ∨ s.hasFlag e wbaEvtlistTimeout = true := by
  have heq : s.wbaEventAdd K e none = (1, s) := by
    simp [wbaEventAdd, WbaEvtbase.eventAdd, he, hreg]
  have hmap : s.InMap e ↔ Watchable (s.evt e) := and_iff_right hreg
  rw [AddContract, heq, ← hmap, ← h.inContainers_iff he]
  constructor
  · intro hcontract
    exact hcontract.2 one_ne_zero
  · intro hin
    exact ⟨fun hzero => absurd hzero one_ne_zero, fun _ => hin⟩

/-- An event that is not registered is marked as registered even if there is nothing to watch, but
then the add fails. -/
theorem WellFormed.addContract_of_not_reg (hK : EpollCtl K interest)
    (h : WellFormed s active slot) (he : e ∈ s.heap)
    (hreg : s.hasFlag e wbaEvtlistReg = false) :
    AddContract K interest s e none ↔ Watchable (s.evt e) := by
  have heq : s.wbaEventAdd K e none =
      (if (s.eventAddReg K e).1 > 0 then (s.eventAddReg K e).1 else 0, (s.eventAddReg K e).2) := by
    simp [wbaEventAdd, WbaEvtbase.eventAdd, he, hreg]
  have hwf := h.eventAddReg K he
  have hheap : e ∈ (s.eventAddReg K e).2.heap := (eventAddReg_heap K s e).symm ▸ he
  rw [AddContract, heq, hwf.inContainers_iff hheap]
  rcases eventAddReg_cases K s e with ⟨hres, hkeep⟩ | ⟨k, hres, -, hk⟩ | ⟨k, hres, -, -, hfd, hio⟩
  · have hnot : ¬ Watchable (s.evt e) := hkeep.resolve_left (Bool.eq_false_iff.1 hreg)
    rw [iff_false_right hnot, hres]
    rintro ⟨hsame, -⟩
    have hflag := (hasFlag_setFlags s e e (m := wbaEvtlistReg) (by decide)).2 (Or.inl rfl)
    rw [hasFlag, (hsame (by simp)).evt] at hflag
    exact Bool.eq_false_iff.1 hreg hflag
  · have hwatch : Watchable (s.evt e) := by
      by_contra hnot
      rw [eventAddReg_of_not_io K hnot] at hres
      simp at hres
    have hfails := hK.add_fails s.kernel (s.evt e).fd (epollMask (s.evt e).events)
    rw [hk] at hfails
    rw [iff_true_right hwatch, hres]
    exact ⟨fun _ => unchanged_setKernel (hfails rfl), fun hne => absurd (by simp) hne⟩
  · rw [iff_true_right ⟨hfd, hio⟩, hres]
    refine ⟨fun hzero => absurd hzero (by simp), fun _ => Or.inl ?_⟩
    rw [eventMapLink_eq (s := { s with kernel := k }) hfd, inMap_setFlags]
    exact Or.inr ⟨rfl, hfd, hio⟩

/-- A failed add changes nothing and a successful one leaves the event pending, except for an
event that has no descriptor to watch and no timer, added without a timeout. -/
theorem addContract_iff (hK : EpollCtl K interest) {k : κ} (h : Reachable K k s) (e : EvtId)
    (tv : Option Timeval) :
    AddContract K interest s e tv ↔
      (e ∈ s.heap → tv = none → Watchable (s.evt e) ∨ s.hasFlag e wbaEvtlistTimeout = true) := by
  obtain ⟨active, slot, hwf⟩ := h.consistent
  by_cases he : e ∈ s.heap
  · cases tv with
    | some t =>
        apply iff_of_true (hwf.addContract_some hK he t)
        rintro - ⟨⟩
    | none =>
        simp only [he, forall_const]
        cases hreg : s.hasFlag e wbaEvtlistReg with
        | true => exact hwf.addContract_of_reg he hreg
        | false =>
            have htimeout := hwf.not_timeout_of_not_reg he hreg
            rw [or_iff_left (Bool.eq_false_iff.1 htimeout)]
            exact hwf.addContract_of_not_reg hK he hreg
  · have heq : s.wbaEventAdd K e tv = (0, s) := by
      cases tv <;> simp [wbaEventAdd, eventAdd, he]
    apply iff_of_true
    · rw [AddContract, heq]
      exact ⟨fun _ => Unchanged.refl interest s, fun hne => absurd rfl hne⟩
    · intro hmem
      exact absurd hmem he

/-- An event with nothing to watch. -/
def idleBase : WbaEvtbase SimState :=
  (newBase {}).runCalls simKernel [.new (some 0) (-1) 0 (some 1) .null]

/-- Adding it without a timeout fails and sets `REG`; adding it once more succeeds, although it is
in no container. -/
theorem not_addContract_idleBase :
    Reachable simKernel {} idleBase ∧
      (idleBase.wbaEventAdd simKernel 0 none).1 = 0 ∧
      (idleBase.evt 0).flags = wbaEvtlistInit ∧
      ((idleBase.wbaEventAdd simKernel 0 none).2.evt 0).flags =
        wbaEvtlistInit ||| wbaEvtlistReg ∧
      ((idleBase.wbaEventAdd simKernel 0 none).2.wbaEventAdd simKernel 0 none).1 = 1 ∧
      ¬ AddContract simKernel simInterest idleBase 0 none := by
  have hzero : (idleBase.wbaEventAdd simKernel 0 none).1 = 0 := by decide +kernel
  have hbefore : (idleBase.evt 0).flags = wbaEvtlistInit := by decide +kernel
  have hafter : ((idleBase.wbaEventAdd simKernel 0 none).2.evt 0).flags =
      wbaEvtlistInit ||| wbaEvtlistReg := by decide +kernel
  refine ⟨reachable_newBase _ _ _, hzero, hbefore, hafter, by decide +kernel, ?_⟩
  intro hcontract
  have hsame := congrFun (hcontract.1 hzero).evt 0
  rw [hsame, hbefore] at hafter
  exact absurd hafter (by decide)

/-- A reader can be added without a timeout. -/
theorem addContract_iff_reader :
    AddContract simKernel simInterest
      ((newBase {}).runCalls simKernel [.new (some 0) 7 wbaEvtRead (some 1) .null]) 0 none := by
  rw [addContract_iff epollCtl_simKernel (reachable_newBase simKernel {} _)]
  intro _ _
  exact Or.inl (by decide +kernel)

/-! ### Deleting what was added -/

theorem inMap_of_sameBut {m : BitVec 16} (hsame : SameBut m s.evt t.evt)
    (hm : hasAny m wbaEvtlistReg = false) (d : EvtId) : t.InMap d ↔ s.InMap d := by
  simp only [InMap, hasFlag, hasEvent, hsame.flag d _ hm, hsame.fd, hsame.events]

/-- The part of `event_add` behind the registration does not write the flag `REG`. -/
theorem sameBut_reschedule (K : Kernel κ) (s : WbaEvtbase κ) (e : EvtId) (tv : Timeval)
    (abs : Bool) : SameBut wbaEvtlistTimeout s.evt
      (((s.eventRemoveTimeout e).eventSetTimeout K e tv abs).eventAddTimeout e).evt := by
  have hset := sameBut_eventSetTimeout K (s.eventRemoveTimeout e) e tv abs
  have hset' : SameBut wbaEvtlistTimeout (s.eventRemoveTimeout e).evt
      ((s.eventRemoveTimeout e).eventSetTimeout K e tv abs).evt :=
    ⟨fun d n _ => hset.flag d n (by simp [hasAny]), hset.fd, hset.events⟩
  exact ((sameBut_eventRemoveTimeout s e).trans hset').trans (sameBut_eventAddTimeout _ e)

/-- An event that is not registered is registered first, and then its timer is set. -/
theorem eventAdd_cases_of_not_reg (K : Kernel κ) (he : e ∈ s.heap)
    (hreg : s.hasFlag e wbaEvtlistReg = false) (tv : Option Timeval) (abs : Bool) :
    (s.eventAdd K e tv abs).2 = (s.eventAddReg K e).2 ∨
      ∃ t, (s.eventAddReg K e).1 ≠ -1 ∧ (s.eventAdd K e tv abs).2 =
        (((s.eventAddReg K e).2.eventRemoveTimeout e).eventSetTimeout K e t
          abs).eventAddTimeout e := by
  rcases eventAdd_cases K s e tv abs with ⟨-, hnot | ⟨hset, -⟩⟩ | ⟨-, heq, -⟩ | ⟨t, -, -, hres, heq⟩
  · exact absurd he hnot
  · exact absurd hset (Bool.eq_false_iff.1 hreg)
  · exact Or.inl heq
  · exact Or.inr ⟨t, hres, by rw [heq]⟩

/-- The slots after an add of an event that is not registered. -/
theorem WellFormed.eventAdd_of_not_reg (h : WellFormed s active slot) (he : e ∈ s.heap)
    (hreg : s.hasFlag e wbaEvtlistReg = false) (tv : Option Timeval) (abs : Bool) :
    WellFormed (s.eventAdd K e tv abs).2 active (slotsAdd K s e slot) := by
  have hadd := h.eventAddReg K he
  rcases eventAdd_cases_of_not_reg K he hreg tv abs with heq | ⟨t, hres, heq⟩
  · rw [heq]
    exact hadd
  · rw [heq]
    apply hadd.reschedule K _ (hasFlag_eventAddReg K hres)
    rw [eventAddReg_heap]
    exact he

theorem WellFormed.slotsAdd_erase (h : WellFormed s active slot)
    (hreg : s.hasFlag e wbaEvtlistReg = false) {i : ℕ} (hi : i < evtMapSize) :
    (slotsAdd K s e slot i).erase e = slot i := by
  have hnot : e ∉ slot i := h.map.notMem hreg hi
  unfold slotsAdd
  split_ifs
  · by_cases hslot : i = s.slotOf e
    · subst hslot
      rw [Function.update_self, List.erase_append_right _ hnot]
      simp
    · rw [Function.update_of_ne hslot, List.erase_of_not_mem hnot]
  · exact List.erase_of_not_mem hnot

theorem eventAddReg_evtTimeRoot (s : WbaEvtbase κ) (e : EvtId) :
    (s.eventAddReg K e).2.evtTimeRoot = s.evtTimeRoot := by
  rcases eventAddReg_cases K s e with ⟨hres, -⟩ | ⟨k, hres, -, -⟩ | ⟨k, hres, -, -, hfd, -⟩
  · rw [hres]
    rfl
  · rw [hres]
  · rw [hres, eventMapLink_eq (s := { s with kernel := k }) hfd]
    rfl

/-- Taking a new timer out of the time tree restores the order that was there. -/
theorem TimerInv.erase_eventAddTimeout (h : TimerInv s)
    (hflag : s.hasFlag e wbaEvtlistTimeout = false) :
    (s.eventAddTimeout e).evtTimeRoot.inorder.erase e = s.evtTimeRoot.inorder := by
  have hnew : e ∉ s.evtTimeRoot.inorder := h.notMem hflag
  have hclosed : UpClosed (s.timeLess e) s.evtTimeRoot.inorder := h.timeLess_mono e
  rw [h.inorder_eventAddTimeout hflag,
    List.erase_append_right _ fun hmem => hnew (List.mem_of_mem_filter hmem),
    List.erase_cons_head]
  exact hclosed.filter_append_filter

theorem eventSetTimeout_evtTimeRoot (s : WbaEvtbase κ) (e : EvtId) (tv : Timeval) (abs : Bool) :
    (s.eventSetTimeout K e tv abs).evtTimeRoot = s.evtTimeRoot := by
  unfold eventSetTimeout
  split_ifs <;> rfl

/-- An add of an event that is not registered puts at most that event into the time tree. -/
theorem WellFormed.erase_eventAdd (h : WellFormed s active slot) (he : e ∈ s.heap)
    (hreg : s.hasFlag e wbaEvtlistReg = false) (tv : Option Timeval) (abs : Bool) :
    (s.eventAdd K e tv abs).2.evtTimeRoot.inorder.erase e = s.evtTimeRoot.inorder := by
  have hout : e ∉ s.evtTimeRoot.inorder := h.timer.notMem (h.not_timeout_of_not_reg he hreg)
  rcases eventAdd_cases_of_not_reg K he hreg tv abs with heq | ⟨t, -, heq⟩
  · rw [heq, eventAddReg_evtTimeRoot, List.erase_of_not_mem hout]
  · have hadd := h.eventAddReg K he
    have hremove := hasFlag_eventRemoveTimeout (s.eventAddReg K e).2 e
    have hheap : e ∈ (s.eventAddReg K e).2.heap := (eventAddReg_heap K s e).symm ▸ he
    have hset := (hadd.eventRemoveTimeout hheap).eventSetTimeout K hremove t abs
    have hsetFlag : (((s.eventAddReg K e).2.eventRemoveTimeout e).eventSetTimeout K e t
        abs).hasFlag e wbaEvtlistTimeout = false := by
      rw [hasFlag, (sameBut_eventSetTimeout K _ e t abs).flag e _ (by decide)]
      exact hremove
    rw [heq, hset.timer.erase_eventAddTimeout hsetFlag, eventSetTimeout_evtTimeRoot,
      hadd.timer.inorder_eventRemoveTimeout hheap, eventAddReg_evtTimeRoot,
      List.erase_of_not_mem hout]

/-! ### The watched descriptors -/

theorem interest_eventDelReg (hK : EpollCtl K interest) (s : WbaEvtbase κ) (e : EvtId) :
    (s.InMap e → interest (s.eventDelReg K e).2.kernel =
      Function.update (interest s.kernel) (s.evt e).fd none) ∧
    (¬ s.InMap e → interest (s.eventDelReg K e).2.kernel = interest s.kernel) := by
  rcases eventDelReg_cases K s e with ⟨heq, hreg⟩ | ⟨heq, hnot⟩ | ⟨ok, k, heq, -, hk, hin⟩
  · rw [heq]
    exact ⟨fun hin => absurd hin (not_inMap_of_not_reg hreg), fun _ => rfl⟩
  · rw [heq]
    exact ⟨fun hin => absurd hin.2 hnot, fun _ => rfl⟩
  · have hdel := hK.del_effect s.kernel (s.evt e).fd
    rw [hk] at hdel
    rw [heq]
    exact ⟨fun _ => hdel, fun hnot => absurd hin hnot⟩

/-- Deleting an event stops watching its descriptor if it was in the map. -/
theorem WellFormed.interest_eventDel (hK : EpollCtl K interest) (h : WellFormed s active slot)
    (he : e ∈ s.heap) :
    (s.InMap e → interest (s.eventDel K e).2.kernel =
      Function.update (interest s.kernel) (s.evt e).fd none) ∧
    (¬ s.InMap e → interest (s.eventDel K e).2.kernel = interest s.kernel) := by
  have hdel := interest_eventDelReg hK ((s.eventRemoveTimeout e).eventRemoveActive e) e
  rw [inMap_of_sameBut (sameBut_eventRemoveActive _ e) (by decide),
    inMap_of_sameBut (sameBut_eventRemoveTimeout s e) (by decide), eventRemoveActive_kernel,
    eventRemoveTimeout_kernel, (sameBut_eventRemoveActive _ e).fd,
    (sameBut_eventRemoveTimeout s e).fd] at hdel
  rw [h.eventDel_eq K he]
  exact hdel

/-- Registering an event starts watching its descriptor if it enters the map. -/
theorem interest_eventAddReg (hK : EpollCtl K interest)
    (hreg : s.hasFlag e wbaEvtlistReg = false) :
    ¬ (s.eventAddReg K e).2.InMap e ∧
        interest (s.eventAddReg K e).2.kernel = interest s.kernel ∨
      (s.eventAddReg K e).2.InMap e ∧ interest s.kernel (s.evt e).fd = none ∧
        interest (s.eventAddReg K e).2.kernel = Function.update (interest s.kernel) (s.evt e).fd
          (some (epollMask (s.evt e).events)) := by
  have hout : ¬ s.InMap e := not_inMap_of_not_reg hreg
  rcases eventAddReg_cases K s e with ⟨heq, hkeep⟩ | ⟨k, heq, -, hk⟩ | ⟨k, heq, -, hk, hfd, hio⟩
  · rw [heq, inMap_setFlags_of_keep hkeep]
    exact Or.inl ⟨hout, rfl⟩
  · have hfails := hK.add_fails s.kernel (s.evt e).fd (epollMask (s.evt e).events)
    rw [hk] at hfails
    rw [heq]
    exact Or.inl ⟨hout, hfails rfl⟩
  · have hadd := hK.add s.kernel (s.evt e).fd (epollMask (s.evt e).events)
    rw [hk] at hadd
    obtain ⟨hfree, hwatch⟩ := hadd rfl
    rw [heq, eventMapLink_eq (s := { s with kernel := k }) hfd, inMap_setFlags]
    exact Or.inr ⟨Or.inr ⟨rfl, hfd, hio⟩, hfree, hwatch⟩

theorem interest_reschedule (hK : EpollCtl K interest) (s : WbaEvtbase κ) (e : EvtId)
    (tv : Timeval) (abs : Bool) :
    interest (((s.eventRemoveTimeout e).eventSetTimeout K e tv abs).eventAddTimeout e).kernel =
      interest s.kernel := by
  have hclock := hK.clock (s.eventRemoveTimeout e).kernel
  have hset : interest ((s.eventRemoveTimeout e).eventSetTimeout K e tv abs).kernel =
      interest (s.eventRemoveTimeout e).kernel := by
    unfold eventSetTimeout
    split_ifs
    · rfl
    · exact hclock
    · exact hclock
  rw [eventAddTimeout_kernel, hset, eventRemoveTimeout_kernel]

/-- Deleting the event that was added restores the watched descriptors. -/
theorem WellFormed.interest_eventDel_eventAdd (hK : EpollCtl K interest)
    (h : WellFormed s active slot) (he : e ∈ s.heap)
    (hreg : s.hasFlag e wbaEvtlistReg = false) (tv : Option Timeval) (abs : Bool) :
    interest ((s.eventAdd K e tv abs).2.eventDel K e).2.kernel = interest s.kernel := by
  have hadd : ((s.eventAdd K e tv abs).2.InMap e ↔ (s.eventAddReg K e).2.InMap e) ∧
      interest (s.eventAdd K e tv abs).2.kernel = interest (s.eventAddReg K e).2.kernel := by
    rcases eventAdd_cases_of_not_reg K he hreg tv abs with heq | ⟨t, -, heq⟩
    · rw [heq]
      exact ⟨Iff.rfl, rfl⟩
    · rw [heq]
      exact ⟨inMap_of_sameBut (sameBut_reschedule K _ e t abs) (by decide) e,
        interest_reschedule hK _ e t abs⟩
  have htouch := touches_eventAdd K s e tv abs
  have hheap : e ∈ (s.eventAdd K e tv abs).2.heap := htouch.heap.symm ▸ he
  obtain ⟨hin, hout⟩ :=
    (h.eventAdd_of_not_reg (K := K) he hreg tv abs).interest_eventDel hK hheap
  rw [htouch.fd, hadd.2] at hin
  rw [hadd.2] at hout
  rcases interest_eventAddReg hK hreg with ⟨hnot, hsame⟩ | ⟨hmap, hfree, hwatch⟩
  · rw [hout fun hmap => hnot (hadd.1.1 hmap)]
    exact hsame
  · rw [hin (hadd.1.2 hmap), hwatch, Function.update_idem, ← hfree, Function.update_eq_self]

/-! ### The whole base -/

/-- From `s` to `t` nothing has changed but the event `e` and the links of nodes that are in no
list: the active list, the slots of the map and the order of the time tree, the counters, the
watched descriptors and the other events are the same. -/
structure Restored (interest : κ → ℤ → Option (BitVec 32)) (e : EvtId) (s t : WbaEvtbase κ) :
    Prop where
  lists : ∃ active slot, Represents s active slot ∧ Represents t active slot
  inorder : t.evtTimeRoot.inorder = s.evtTimeRoot.inorder
  used : t.used = s.used
  eventCount : t.eventCount = s.eventCount
  eventCountActive : t.eventCountActive = s.eventCountActive
  interest : interest t.kernel = interest s.kernel
  other : ∀ d, d ≠ e → t.evt d = s.evt d

theorem Restored.of_wellFormed (hs : WellFormed s active slot) (ht : WellFormed t active slot)
    (hinorder : t.evtTimeRoot.inorder = s.evtTimeRoot.inorder)
    (hinterest : interest t.kernel = interest s.kernel)
    (hother : ∀ d, d ≠ e → t.evt d = s.evt d) : Restored interest e s t := by
  have hused : t.used = s.used := by rw [ht.map.used, hs.map.used]
  refine ⟨⟨active, slot, hs.represents, ht.represents⟩, hinorder, hused, ?_, ?_, hinterest, hother⟩
  · rw [ht.count, hs.count, hused, hinorder]
  · rw [ht.active.count, hs.active.count]

theorem WellFormed.restored_eventDel_eventAdd (hK : EpollCtl K interest)
    (h : WellFormed s active slot) (he : e ∈ s.heap)
    (hreg : s.hasFlag e wbaEvtlistReg = false) (hactive : s.hasFlag e wbaEvtlistActive = false)
    (tv : Option Timeval) (abs : Bool) :
    Restored interest e s ((s.eventAdd K e tv abs).2.eventDel K e).2 := by
  have hadd := h.eventAdd_of_not_reg (K := K) he hreg tv abs
  have htouch := touches_eventAdd K s e tv abs
  have hheap : e ∈ (s.eventAdd K e tv abs).2.heap := htouch.heap.symm ▸ he
  have hdel := hadd.eventDel K hheap
  rw [List.erase_of_not_mem (h.active.notMem hactive)] at hdel
  have hslots := hdel.map.congr_slot fun i hi => h.slotsAdd_erase (K := K) hreg hi
  refine Restored.of_wellFormed h { hdel with map := hslots } ?_ ?_ ?_
  · rw [hadd.inorder_eventDel K hheap]
    exact h.erase_eventAdd he hreg tv abs
  · exact h.interest_eventDel_eventAdd hK he hreg tv abs
  · intro d hd
    rw [(flagsOnly_eventDel K _ e).evt_of_ne hd]
    exact htouch.other d hd

/-- `event_del` leaves an event alone that is neither registered nor active. -/
theorem eventDel_of_idle (hreg : s.hasFlag e wbaEvtlistReg = false)
    (hactive : s.hasFlag e wbaEvtlistActive = false) : (s.eventDel K e).2 = s := by
  have hany : s.hasFlag e (wbaEvtlistReg ||| wbaEvtlistActive) = false := by
    rw [hasFlag, hasAny_or_mask, Bool.or_eq_false_iff]
    exact ⟨hreg, hactive⟩
  rw [eventDel, if_pos (c := (!s.hasFlag e (wbaEvtlistReg ||| wbaEvtlistActive)) = true)]
  · split_ifs <;> rfl
  · rw [hany]
    rfl

/-- `wba_event_del` undoes `wba_event_add`, whether or not the add succeeded, and a second
`wba_event_del` changes nothing. -/
theorem wbaEventDel_wbaEventAdd (hK : EpollCtl K interest) {k : κ} (h : Reachable K k s)
    (he : e ∈ s.heap) (hreg : s.hasFlag e wbaEvtlistReg = false)
    (hactive : s.hasFlag e wbaEvtlistActive = false) (tv : Option Timeval) :
    Restored interest e s ((s.wbaEventAdd K e tv).2.wbaEventDel K e).2 ∧
      (((s.wbaEventAdd K e tv).2.wbaEventDel K e).2.wbaEventDel K e).2 =
        ((s.wbaEventAdd K e tv).2.wbaEventDel K e).2 := by
  obtain ⟨active, slot, hwf⟩ := h.consistent
  have hheap : e ∈ (s.wbaEventAdd K e tv).2.heap := by
    rw [(touches_wbaEventAdd K s e tv).heap]
    exact he
  obtain ⟨slot', hadd⟩ := (show Consistent s active from ⟨slot, hwf⟩).wbaEventAdd K e tv
  obtain ⟨hclear, -, hclear'⟩ := hadd.hasFlag_eventDel K hheap
  refine ⟨?_, eventDel_of_idle hclear' hclear⟩
  change Restored interest e s ((s.wbaEventAdd K e tv).2.eventDel K e).2
  cases tv with
  | none => exact hwf.restored_eventDel_eventAdd hK he hreg hactive none false
  | some t =>
      unfold wbaEventAdd
      simp only
      split_ifs
      · rw [eventDel_of_idle hreg hactive]
        exact Restored.of_wellFormed hwf hwf rfl rfl fun _ _ => rfl
      · exact hwf.restored_eventDel_eventAdd hK he hreg hactive (some t) false

/-- A second event on a watched descriptor is refused, and one on another descriptor is not. -/
theorem wbaEventDel_wbaEventAdd_refused :
    ∃ s : WbaEvtbase SimState,
      (s.wbaEventAdd simKernel 1 none).1 = 0 ∧ (s.wbaEventAdd simKernel 2 (some ⟨1, 0⟩)).1 = 1 ∧
      Restored simInterest 1 s ((s.wbaEventAdd simKernel 1 none).2.wbaEventDel simKernel 1).2 ∧
      Restored simInterest 2 s
        ((s.wbaEventAdd simKernel 2 (some ⟨1, 0⟩)).2.wbaEventDel simKernel 2).2 := by
  let s : WbaEvtbase SimState := (newBase {}).runCalls simKernel
    [.new (some 0) 7 wbaEvtRead (some 1) .null, .new (some 1) 7 wbaEvtWrite (some 1) .null,
      .new (some 2) 8 wbaEvtWrite (some 1) .null, .add 0 none]
  have hreach : Reachable simKernel {} s := reachable_newBase _ _ _
  refine ⟨s, by decide +kernel, by decide +kernel, ?_, ?_⟩
  · exact (wbaEventDel_wbaEventAdd epollCtl_simKernel hreach (by decide +kernel)
      (by decide +kernel) (by decide +kernel) none).1
  · exact (wbaEventDel_wbaEventAdd epollCtl_simKernel hreach (by decide +kernel)
      (by decide +kernel) (by decide +kernel) (some ⟨1, 0⟩)).1

end WbaEvtbase

end Miscellany
