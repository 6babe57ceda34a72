import Miscellany.EventLoop.Invariant

/-!
# Every operation keeps the representation invariant

Adding, deleting, creating and freeing an event are sequences of the container
operations, so they keep `WellFormed`. What they do to the active list is said
exactly: adding an event leaves it alone and deleting an event removes that
event from it and from its slot.
-/

namespace Miscellany

open ListHead

namespace WbaEvtbase

variable {κ : Type*} (K : Kernel κ)
variable {s : WbaEvtbase κ} {active : List EvtId} {slot : ℕ → List EvtId} {e : EvtId}

/-- The invariant, for some contents of the slots. -/
def Consistent (s : WbaEvtbase κ) (active : List EvtId) : Prop :=
  ∃ slot, WellFormed s active slot

/-! ### Adding -/

/-- Writing to fields of an event that no container depends on. -/
theorem WellFormed.modifyEvt (h : WellFormed s active slot) {f : WbaEvt → WbaEvt}
    (hf : ∀ v, (f v).flags = v.flags ∧ (f v).fd = v.fd ∧ (f v).events = v.events)
    (hflag : s.hasFlag e wbaEvtlistTimeout = false) :
    WellFormed (s.modifyEvt e f) active slot := by
  have hsame := sameBut_modifyEvt s e 0 hf
  have htime : ∀ d ∈ s.evtTimeRoot.inorder,
      ((s.modifyEvt e f).evt d).evtTimeout = (s.evt d).evtTimeout := by
    intro d hd
    rw [modifyEvt_evt_of_ne]
    rintro rfl
    exact h.timer.notMem hflag hd
  refine ⟨h.active.congr hsame (by decide) rfl rfl rfl,
    h.map.congr hsame (by decide) rfl rfl rfl rfl rfl,
    h.timer.congr hsame (by decide) htime rfl rfl rfl rfl, fun d hd hto => ?_, h.count,
    h.heap_nodup⟩
  rw [hasFlag, hsame.flag d _ (by decide)] at hto ⊢
  exact h.timeout_reg d hd hto

theorem sameBut_eventSetTimeout (s : WbaEvtbase κ) (e : EvtId) (tv : Timeval) (abs : Bool) :
    SameBut 0 s.evt (s.eventSetTimeout K e tv abs).evt := by
  have hdeadline : ∀ (t : WbaEvtbase κ) (d : Timeval),
      SameBut 0 t.evt (t.modifyEvt e fun v => { v with evtTimeout := d }).evt := by
    intro t d
    apply sameBut_modifyEvt
    exact fun _ => ⟨rfl, rfl, rfl⟩
  have hperiod : SameBut 0 s.evt (s.modifyEvt e fun v => { v with timeout := tv }).evt := by
    apply sameBut_modifyEvt
    exact fun _ => ⟨rfl, rfl, rfl⟩
  unfold eventSetTimeout
  split_ifs
  · exact hdeadline s tv
  · exact hperiod.trans (hdeadline _ _)
  · exact hdeadline _ _

theorem WellFormed.eventSetTimeout (h : WellFormed s active slot)
    (hflag : s.hasFlag e wbaEvtlistTimeout = false) (tv : Timeval) (abs : Bool) :
    WellFormed (s.eventSetTimeout K e tv abs) active slot := by
  unfold WbaEvtbase.eventSetTimeout
  split_ifs
  · exact h.modifyEvt (fun _ => ⟨rfl, rfl, rfl⟩) hflag
  · have hf : ∀ v : WbaEvt, ({ v with timeout := tv } : WbaEvt).flags = v.flags ∧
        ({ v with timeout := tv } : WbaEvt).fd = v.fd ∧
        ({ v with timeout := tv } : WbaEvt).events = v.events := fun _ => ⟨rfl, rfl, rfl⟩
    have hmod := h.modifyEvt hf hflag
    refine (hmod.setKernel _).modifyEvt (fun _ => ⟨rfl, rfl, rfl⟩) ?_
    exact ((sameBut_modifyEvt s e 0 hf).flag e _ (by decide)).trans hflag
  · exact (h.setKernel _).modifyEvt (fun _ => ⟨rfl, rfl, rfl⟩) hflag

/-- The slots after `event_add` has tried to register the event. -/
def slotsAdd (s : WbaEvtbase κ) (e : EvtId) (slot : ℕ → List EvtId) : ℕ → List EvtId :=
  if (s.eventAddReg K e).1 = 1 then
    Function.update slot (s.slotOf e) (slot (s.slotOf e) ++ [e])
  else slot

/-- What `event_map_add` can do. -/
theorem eventMapAdd_cases (s : WbaEvtbase κ) (e : EvtId) :
    (s.eventMapAdd K e = (0, s) ∧ ¬ (0 ≤ (s.evt e).fd ∧ s.hasEvent e wbaEvtIo = true)) ∨
    (∃ k, s.eventMapAdd K e = (-1, { s with kernel := k }) ∧
      K.epollCtlAdd s.kernel (s.evt e).fd (epollMask (s.evt e).events) = (false, k)) ∨
    (∃ k, s.eventMapAdd K e = (1, eventMapLink { s with kernel := k } e) ∧
      K.epollCtlAdd s.kernel (s.evt e).fd (epollMask (s.evt e).events) = (true, k) ∧
      0 ≤ (s.evt e).fd ∧ s.hasEvent e wbaEvtIo = true) := by
  unfold eventMapAdd
  by_cases hfd : (s.evt e).fd < 0
  · exact Or.inl ⟨by rw [if_pos hfd], fun h => by omega⟩
  · rw [if_neg hfd]
    by_cases hio : s.hasEvent e wbaEvtIo = true
    · rw [if_pos hio]
      cases hk : K.epollCtlAdd s.kernel (s.evt e).fd (epollMask (s.evt e).events) with
      | mk ok k =>
          cases ok with
          | false => exact Or.inr (Or.inl ⟨k, by simp [eventRegister, hk], rfl⟩)
          | true =>
              refine Or.inr (Or.inr ⟨k, by simp [eventRegister, hk], rfl, by omega, hio⟩)
    · rw [if_neg hio]
      exact Or.inl ⟨rfl, fun h => hio h.2⟩

/-- What the registering part of `event_add` can do. -/
theorem eventAddReg_cases (s : WbaEvtbase κ) (e : EvtId) :
    (s.eventAddReg K e = (0, s.setFlags e wbaEvtlistReg) ∧
      (s.hasFlag e wbaEvtlistReg = true ∨
        ¬ (0 ≤ (s.evt e).fd ∧ s.hasEvent e wbaEvtIo = true))) ∨
    (∃ k, s.eventAddReg K e = (-1, { s with kernel := k }) ∧
      s.hasFlag e wbaEvtlistReg = false ∧
      K.epollCtlAdd s.kernel (s.evt e).fd (epollMask (s.evt e).events) = (false, k)) ∨
    (∃ k, s.eventAddReg K e =
        (1, (eventMapLink { s with kernel := k } e).setFlags e wbaEvtlistReg) ∧
      s.hasFlag e wbaEvtlistReg = false ∧
      K.epollCtlAdd s.kernel (s.evt e).fd (epollMask (s.evt e).events) = (true, k) ∧
      0 ≤ (s.evt e).fd ∧ s.hasEvent e wbaEvtIo = true) := by
  cases hreg : s.hasFlag e wbaEvtlistReg with
  | true => exact Or.inl ⟨by simp [eventAddReg, hreg], Or.inl rfl⟩
  | false =>
      rcases eventMapAdd_cases K s e with ⟨hres, hnot⟩ | ⟨k, hres, hk⟩ | ⟨k, hres, hk, hfd, hio⟩
      · exact Or.inl ⟨by simp [eventAddReg, hreg, hres], Or.inr hnot⟩
      · exact Or.inr (Or.inl ⟨k, by simp [eventAddReg, hreg, hres], rfl, hk⟩)
      · exact Or.inr (Or.inr ⟨k, by simp [eventAddReg, hreg, hres], rfl, hk, hfd, hio⟩)

theorem WellFormed.eventAddReg (h : WellFormed s active slot) (he : e ∈ s.heap) :
    WellFormed (s.eventAddReg K e).2 active (slotsAdd K s e slot) := by
  rcases eventAddReg_cases K s e with ⟨hres, hkeep⟩ | ⟨k, hres, -, -⟩ |
    ⟨k, hres, hreg, -, hfd, hio⟩
  · rw [slotsAdd, hres, if_neg (by simp)]
    refine h.ofMap (h.map.setReg hkeep) (sameBut_setFlags s e wbaEvtlistReg)
      (setFlags_evtTimeout s e wbaEvtlistReg) rfl ⟨rfl, rfl⟩ ⟨rfl, rfl, rfl⟩
      (fun d hd hto => ?_) (by change s.eventCount - _ = s.used - _; omega)
    rw [hasFlag_setFlags s e d (by decide)]
    exact Or.inr (h.timeout_reg d hd hto)
  · rw [slotsAdd, hres, if_neg (by simp)]
    exact h.setKernel k
  · have hk := h.setKernel k
    rw [slotsAdd, hres, if_pos rfl]
    have hmap := hk.map.linkReg he hreg hfd hio
    rw [eventMapLink_eq (s := { s with kernel := k }) hfd] at hmap ⊢
    refine hk.ofMap hmap (sameBut_setFlags _ e wbaEvtlistReg)
      (setFlags_evtTimeout _ e wbaEvtlistReg) rfl ⟨rfl, rfl⟩ ⟨rfl, rfl, rfl⟩
      (fun d hd hto => ?_) ?_
    · rw [hasFlag_setFlags _ e d (by decide)]
      exact Or.inr (hk.timeout_reg d hd hto)
    · change s.eventCount + 1 - s.eventCount = s.used + 1 - s.used
      omega

theorem eventAddReg_heap (s : WbaEvtbase κ) (e : EvtId) :
    (s.eventAddReg K e).2.heap = s.heap := by
  rcases eventAddReg_cases K s e with ⟨hres, -⟩ | ⟨k, hres, -, -⟩ | ⟨k, hres, -, -, hfd, -⟩
  · rw [hres]
    rfl
  · rw [hres]
  · rw [hres, eventMapLink_eq (s := { s with kernel := k }) hfd]
    rfl

theorem hasFlag_eventAddReg (hres : (s.eventAddReg K e).1 ≠ -1) :
    (s.eventAddReg K e).2.hasFlag e wbaEvtlistReg = true := by
  rcases eventAddReg_cases K s e with ⟨heq, -⟩ | ⟨k, heq, -, -⟩ | ⟨k, heq, -, -, -, -⟩
  · rw [heq]
    exact (hasFlag_setFlags s e e (by decide)).2 (Or.inl rfl)
  · rw [heq] at hres
    exact absurd rfl hres
  · rw [heq]
    exact (hasFlag_setFlags _ e e (by decide)).2 (Or.inl rfl)

theorem hasFlag_eventRemoveTimeout (s : WbaEvtbase κ) (e : EvtId) :
    (s.eventRemoveTimeout e).hasFlag e wbaEvtlistTimeout = false := by
  unfold eventRemoveTimeout
  split_ifs with hflag
  · rw [← Bool.not_eq_true]
    intro hset
    exact ((hasFlag_clearFlags _ e e wbaEvtlistTimeout).1 hset).1 rfl
  · simpa using hflag

theorem hasFlag_eventAddTimeout (s : WbaEvtbase κ) (e : EvtId) :
    (s.eventAddTimeout e).hasFlag e wbaEvtlistTimeout = true := by
  unfold eventAddTimeout
  split_ifs with hflag
  · exact hflag
  · exact (hasFlag_setFlags _ e e (by decide)).2 (Or.inl rfl)

/-- The test of the flag `TIMEOUT` in front of `event_remove_timeout` is made again inside. -/
theorem eventRemoveTimeout_guard (s : WbaEvtbase κ) (e : EvtId) :
    (if s.hasFlag e wbaEvtlistTimeout then s.eventRemoveTimeout e else s) =
      s.eventRemoveTimeout e := by
  unfold eventRemoveTimeout
  split_ifs <;> rfl

theorem eventRemoveActive_guard (s : WbaEvtbase κ) (e : EvtId) :
    (if s.hasFlag e wbaEvtlistActive then s.eventRemoveActive e else s) =
      s.eventRemoveActive e := by
  unfold eventRemoveActive
  split_ifs <;> rfl

theorem eventRemoveTimeout_heap (s : WbaEvtbase κ) (e : EvtId) :
    (s.eventRemoveTimeout e).heap = s.heap := by
  unfold eventRemoveTimeout
  split_ifs <;> rfl

theorem eventSetTimeout_heap (s : WbaEvtbase κ) (e : EvtId) (tv : Timeval) (abs : Bool) :
    (s.eventSetTimeout K e tv abs).heap = s.heap := by
  unfold eventSetTimeout
  split_ifs <;> rfl

/-- The part of `event_add` that schedules the event again. -/
theorem WellFormed.reschedule (h : WellFormed s active slot) (he : e ∈ s.heap)
    (hreg : s.hasFlag e wbaEvtlistReg = true) (tv : Timeval) (abs : Bool) :
    WellFormed (((s.eventRemoveTimeout e).eventSetTimeout K e tv abs).eventAddTimeout e)
      active slot := by
  have hremove := hasFlag_eventRemoveTimeout s e
  have hset := sameBut_eventSetTimeout K (s.eventRemoveTimeout e) e tv abs
  have hwf := (h.eventRemoveTimeout he).eventSetTimeout K hremove tv abs
  refine hwf.eventAddTimeout ?_ ?_ ?_
  · rw [eventSetTimeout_heap, eventRemoveTimeout_heap]
    exact he
  · rw [hasFlag, hset.flag e _ (by decide),
      (sameBut_eventRemoveTimeout s e).flag e _ (by decide)]
    exact hreg
  · rw [hasFlag, hset.flag e _ (by decide)]
    exact hremove

/-- What `event_add` can do: nothing, register only, or register and schedule. -/
theorem eventAdd_cases (s : WbaEvtbase κ) (e : EvtId) (tv : Option Timeval) (abs : Bool) :
    ((s.eventAdd K e tv abs).2 = s ∧
        (e ∉ s.heap ∨ s.hasFlag e wbaEvtlistReg = true ∧ tv = none)) ∨
    (e ∈ s.heap ∧ (s.eventAdd K e tv abs).2 = (s.eventAddReg K e).2 ∧
      (tv = none ∨ (s.eventAddReg K e).1 = -1)) ∨
    (∃ t, e ∈ s.heap ∧ tv = some t ∧ (s.eventAddReg K e).1 ≠ -1 ∧
      s.eventAdd K e tv abs =
        (1, (((s.eventAddReg K e).2.eventRemoveTimeout e).eventSetTimeout K e t
          abs).eventAddTimeout e)) := by
  unfold eventAdd
  by_cases he : e ∈ s.heap
  · rw [if_neg (not_not.2 he)]
    cases tv with
    | none =>
        cases hreg : s.hasFlag e wbaEvtlistReg with
        | true => exact Or.inl ⟨by simp, Or.inr ⟨rfl, rfl⟩⟩
        | false => exact Or.inr (Or.inl ⟨he, by simp, Or.inl rfl⟩)
    | some t =>
        simp only [Option.isNone_some, Bool.and_false, Bool.false_eq_true, if_false]
        by_cases hres : (s.eventAddReg K e).1 = -1
        · exact Or.inr (Or.inl ⟨he, by rw [if_neg (not_not.2 hres)], Or.inr hres⟩)
        · refine Or.inr (Or.inr ⟨t, he, rfl, hres, ?_⟩)
          rw [if_pos hres, eventRemoveTimeout_guard]
  · rw [if_pos he]
    exact Or.inl ⟨rfl, Or.inl he⟩

theorem WellFormed.eventAdd (h : WellFormed s active slot) (e : EvtId) (tv : Option Timeval)
    (abs : Bool) : Consistent (s.eventAdd K e tv abs).2 active := by
  rcases eventAdd_cases K s e tv abs with ⟨heq, -⟩ | ⟨he, heq, -⟩ | ⟨t, he, -, hres, heq⟩
  · rw [heq]
    exact ⟨slot, h⟩
  · rw [heq]
    exact ⟨_, h.eventAddReg K he⟩
  · rw [heq]
    refine ⟨_, (h.eventAddReg K he).reschedule K ?_ (hasFlag_eventAddReg K hres) t abs⟩
    rw [eventAddReg_heap]
    exact he

theorem Consistent.eventAdd (h : Consistent s active) (e : EvtId) (tv : Option Timeval)
    (abs : Bool) : Consistent (s.eventAdd K e tv abs).2 active := by
  obtain ⟨slot, hwf⟩ := h
  exact hwf.eventAdd K e tv abs

theorem Consistent.wbaEventAdd (h : Consistent s active) (e : EvtId) (tv : Option Timeval) :
    Consistent (s.wbaEventAdd K e tv).2 active := by
  unfold WbaEvtbase.wbaEventAdd
  cases tv with
  | none => exact h.eventAdd K e none false
  | some t =>
      simp only
      split_ifs
      · exact h
      · exact h.eventAdd K e (some t) false

/-! ### Deleting -/

/-- What the deregistering part of `event_del` can do. -/
theorem eventDelReg_cases (s : WbaEvtbase κ) (e : EvtId) :
    (s.eventDelReg K e = (0, s) ∧ s.hasFlag e wbaEvtlistReg = false) ∨
    (s.eventDelReg K e = (0, s.clearFlags e wbaEvtlistReg) ∧
      ¬ (0 ≤ (s.evt e).fd ∧ s.hasEvent e wbaEvtIo = true)) ∨
    (∃ ok k, (s.eventDelReg K e).2 =
        (eventMapUnlink { s with kernel := k } e).clearFlags e wbaEvtlistReg ∧
      (s.eventDelReg K e).1 = (if ok then 1 else -1) ∧
      K.epollCtlDel s.kernel (s.evt e).fd = (ok, k) ∧ s.InMap e) := by
  unfold eventDelReg
  by_cases hreg : s.hasFlag e wbaEvtlistReg = true
  · rw [if_pos hreg]
    unfold eventMapRemove
    by_cases hfd : (s.evt e).fd < 0
    · exact Or.inr (Or.inl ⟨by rw [if_pos hfd], fun h => by omega⟩)
    · rw [if_neg hfd]
      by_cases hio : s.hasEvent e wbaEvtIo = true
      · rw [if_pos hio]
        cases hk : K.epollCtlDel s.kernel (s.evt e).fd with
        | mk ok k =>
            exact Or.inr (Or.inr ⟨ok, k, by simp [eventUnregister, hk],
              by simp [eventUnregister, hk], rfl, hreg, by omega, hio⟩)
      · rw [if_neg hio]
        exact Or.inr (Or.inl ⟨rfl, fun h => hio h.2⟩)
  · rw [if_neg hreg]
    exact Or.inl ⟨rfl, by simpa using hreg⟩

theorem WellFormed.eventDelReg (h : WellFormed s active slot) (he : e ∈ s.heap)
    (hflag : s.hasFlag e wbaEvtlistTimeout = false) :
    WellFormed (s.eventDelReg K e).2 active (fun i => (slot i).erase e) := by
  have hto : ∀ d ∈ s.heap, s.hasFlag d wbaEvtlistTimeout = true → d ≠ e ∧
      s.hasFlag d wbaEvtlistReg = true := by
    intro d hd hset
    refine ⟨?_, h.timeout_reg d hd hset⟩
    rintro rfl
    simp [hset] at hflag
  have hout : ¬ s.InMap e → ∀ i < evtMapSize, slot i = (slot i).erase e := by
    intro hnot i hi
    rw [List.erase_of_not_mem]
    exact fun hmem => hnot ((h.map.mem i hi e).1 hmem).2.1
  rcases eventDelReg_cases K s e with ⟨heq, hreg⟩ | ⟨heq, hnot⟩ | ⟨ok, k, heq, -, -, hin⟩
  · rw [heq]
    have hnot : ¬ s.InMap e := fun hin => by simp [hin.1] at hreg
    exact { h with map := h.map.congr_slot (hout hnot) }
  · rw [heq]
    have hmap := (h.map.clearReg hnot).congr_slot (hout fun hin => hnot hin.2)
    refine h.ofMap hmap (sameBut_clearFlags s e wbaEvtlistReg)
      (clearFlags_evtTimeout s e wbaEvtlistReg) rfl ⟨rfl, rfl⟩ ⟨rfl, rfl, rfl⟩
      (fun d hd hset => (hasFlag_clearFlags s e d _).2 (hto d hd hset)) ?_
    change s.eventCount - s.eventCount = s.used - s.used
    omega
  · rw [heq]
    have hk := h.setKernel k
    have hmap := (hk.map.unlinkReg he hin).congr_slot (hk.map.erase_slots e)
    refine hk.ofMap hmap (sameBut_clearFlags _ e wbaEvtlistReg)
      (clearFlags_evtTimeout _ e wbaEvtlistReg) rfl ⟨rfl, rfl⟩ ⟨rfl, rfl, rfl⟩
      (fun d hd hset => (hasFlag_clearFlags _ e d _).2 (hto d hd hset)) ?_
    change s.eventCount - 1 - s.eventCount = s.used - 1 - s.used
    omega

/-- What `event_del` can do: nothing, or take the event out of the three containers in turn. -/
theorem eventDel_cases (s : WbaEvtbase κ) (e : EvtId) :
    ((s.eventDel K e).2 = s ∧ (e ∉ s.heap ∨ s.hasFlag e wbaEvtlistReg = false ∧
      s.hasFlag e wbaEvtlistActive = false)) ∨
    (e ∈ s.heap ∧ (s.eventDel K e).2 =
      (((s.eventRemoveTimeout e).eventRemoveActive e).eventDelReg K e).2) := by
  unfold eventDel
  by_cases he : e ∈ s.heap
  · rw [if_neg (not_not.2 he)]
    by_cases hany : s.hasFlag e (wbaEvtlistReg ||| wbaEvtlistActive) = true
    · rw [if_neg (by simp [hany])]
      simp only [eventRemoveTimeout_guard, eventRemoveActive_guard]
      exact Or.inr ⟨he, trivial⟩
    · rw [if_pos (by simpa using hany)]
      rw [hasFlag, hasAny_or_mask, Bool.or_eq_true, not_or, Bool.not_eq_true,
        Bool.not_eq_true] at hany
      exact Or.inl ⟨rfl, Or.inr hany⟩
  · rw [if_pos he]
    exact Or.inl ⟨rfl, Or.inl he⟩

/-- On a well-formed base an event that is neither registered nor active is in no container, so
`event_del` is the same sequence of removals for every event. -/
theorem WellFormed.eventDel_eq (h : WellFormed s active slot) (he : e ∈ s.heap) :
    (s.eventDel K e).2 = (((s.eventRemoveTimeout e).eventRemoveActive e).eventDelReg K e).2 := by
  rcases eventDel_cases K s e with ⟨heq, hnot | ⟨hreg, hactive⟩⟩ | ⟨-, heq⟩
  · exact absurd he hnot
  · have htimeout : s.hasFlag e wbaEvtlistTimeout = false := by
      rw [← Bool.not_eq_true]
      intro hto
      simp [h.timeout_reg e he hto] at hreg
    rw [heq]
    simp [WbaEvtbase.eventRemoveTimeout, htimeout, WbaEvtbase.eventRemoveActive, hactive,
      WbaEvtbase.eventDelReg, hreg]
  · exact heq

theorem eventRemoveActive_heap (s : WbaEvtbase κ) (e : EvtId) :
    (s.eventRemoveActive e).heap = s.heap := by
  unfold eventRemoveActive
  split_ifs <;> rfl

theorem WellFormed.eventDel (h : WellFormed s active slot) (he : e ∈ s.heap) :
    WellFormed (s.eventDel K e).2 (active.erase e) (fun i => (slot i).erase e) := by
  have htimeout := hasFlag_eventRemoveTimeout s e
  have hactive := (h.eventRemoveTimeout he).eventRemoveActive
    (by rw [eventRemoveTimeout_heap]; exact he)
  rw [h.eventDel_eq K he]
  refine hactive.eventDelReg K ?_ ?_
  · rw [eventRemoveActive_heap, eventRemoveTimeout_heap]
    exact he
  · rw [hasFlag, (sameBut_eventRemoveActive _ e).flag e _ (by decide)]
    exact htimeout

theorem eventDel_of_notMem (he : e ∉ s.heap) : s.eventDel K e = (0, s) := by
  simp [eventDel, he]

theorem ActiveInv.erase_of_notMem (h : ActiveInv s active) (he : e ∉ s.heap) :
    active.erase e = active := by
  rw [List.erase_of_not_mem]
  exact fun hmem => he ((h.mem e).1 hmem).1

theorem Consistent.eventDel (h : Consistent s active) (e : EvtId) :
    Consistent (s.eventDel K e).2 (active.erase e) := by
  obtain ⟨slot, hwf⟩ := h
  by_cases he : e ∈ s.heap
  · exact ⟨_, hwf.eventDel K he⟩
  · rw [eventDel_of_notMem K he, hwf.active.erase_of_notMem he]
    exact ⟨slot, hwf⟩

/-! ### What is written -/

/-- From `s` to `t` only the flags of the event `e` are written, and no event is created or
freed. -/
def FlagsOnly (e : EvtId) (s t : WbaEvtbase κ) : Prop :=
  t.heap = s.heap ∧ ∃ fl, t.evt = Function.update s.evt e { s.evt e with flags := fl }

theorem FlagsOnly.refl (e : EvtId) (s : WbaEvtbase κ) : FlagsOnly e s s :=
  ⟨rfl, (s.evt e).flags, by simp⟩

theorem FlagsOnly.trans {s t u : WbaEvtbase κ} (hst : FlagsOnly e s t) (htu : FlagsOnly e t u) :
    FlagsOnly e s u := by
  obtain ⟨hheap, fl, hevt⟩ := hst
  obtain ⟨hheap', fl', hevt'⟩ := htu
  refine ⟨hheap'.trans hheap, fl', ?_⟩
  rw [hevt', hevt]
  simp

theorem FlagsOnly.evt_of_ne {s t : WbaEvtbase κ} (h : FlagsOnly e s t) {d : EvtId} (hde : d ≠ e) :
    t.evt d = s.evt d := by
  obtain ⟨-, fl, hevt⟩ := h
  rw [hevt, Function.update_of_ne hde]

theorem FlagsOnly.evt_self {s t : WbaEvtbase κ} (h : FlagsOnly e s t) :
    t.evt e = { s.evt e with flags := (t.evt e).flags } := by
  obtain ⟨-, fl, hevt⟩ := h
  rw [hevt, Function.update_self]

theorem flagsOnly_setFlags (s : WbaEvtbase κ) (e : EvtId) (m : BitVec 16) :
    FlagsOnly e s (s.setFlags e m) := ⟨rfl, _, rfl⟩

theorem flagsOnly_clearFlags (s : WbaEvtbase κ) (e : EvtId) (m : BitVec 16) :
    FlagsOnly e s (s.clearFlags e m) := ⟨rfl, _, rfl⟩

theorem flagsOnly_eventRemoveTimeout (s : WbaEvtbase κ) (e : EvtId) :
    FlagsOnly e s (s.eventRemoveTimeout e) := by
  unfold eventRemoveTimeout
  split_ifs
  · exact flagsOnly_clearFlags s e wbaEvtlistTimeout
  · exact FlagsOnly.refl e s

theorem flagsOnly_eventAddTimeout (s : WbaEvtbase κ) (e : EvtId) :
    FlagsOnly e s (s.eventAddTimeout e) := by
  unfold eventAddTimeout
  split_ifs
  · exact FlagsOnly.refl e s
  · exact flagsOnly_setFlags s e wbaEvtlistTimeout

theorem flagsOnly_eventRemoveActive (s : WbaEvtbase κ) (e : EvtId) :
    FlagsOnly e s (s.eventRemoveActive e) := by
  unfold eventRemoveActive
  split_ifs
  · exact flagsOnly_clearFlags s e wbaEvtlistActive
  · exact FlagsOnly.refl e s

theorem flagsOnly_eventAddReg (s : WbaEvtbase κ) (e : EvtId) :
    FlagsOnly e s (s.eventAddReg K e).2 := by
  rcases eventAddReg_cases K s e with ⟨hres, -⟩ | ⟨k, hres, -, -⟩ | ⟨k, hres, -, -, hfd, -⟩
  · rw [hres]
    exact flagsOnly_setFlags s e wbaEvtlistReg
  · rw [hres]
    exact FlagsOnly.refl e s
  · rw [hres, eventMapLink_eq (s := { s with kernel := k }) hfd]
    exact flagsOnly_setFlags s e wbaEvtlistReg

theorem flagsOnly_eventDelReg (s : WbaEvtbase κ) (e : EvtId) :
    FlagsOnly e s (s.eventDelReg K e).2 := by
  rcases eventDelReg_cases K s e with ⟨heq, -⟩ | ⟨heq, -⟩ | ⟨ok, k, heq, -, -, -⟩
  · rw [heq]
    exact FlagsOnly.refl e s
  · rw [heq]
    exact flagsOnly_clearFlags s e wbaEvtlistReg
  · rw [heq]
    exact flagsOnly_clearFlags s e wbaEvtlistReg

theorem flagsOnly_eventDel (s : WbaEvtbase κ) (e : EvtId) :
    FlagsOnly e s (s.eventDel K e).2 := by
  rcases eventDel_cases K s e with ⟨heq, -⟩ | ⟨-, heq⟩
  · rw [heq]
    exact FlagsOnly.refl e s
  · rw [heq]
    exact ((flagsOnly_eventRemoveTimeout s e).trans (flagsOnly_eventRemoveActive _ e)).trans
      (flagsOnly_eventDelReg K _ e)

/-- A deleted event has none of the flags `ACTIVE`, `TIMEOUT` and `REG`. -/
theorem WellFormed.hasFlag_eventDel (h : WellFormed s active slot) (he : e ∈ s.heap) :
    (s.eventDel K e).2.hasFlag e wbaEvtlistActive = false ∧
      (s.eventDel K e).2.hasFlag e wbaEvtlistTimeout = false ∧
      (s.eventDel K e).2.hasFlag e wbaEvtlistReg = false := by
  rw [h.eventDel_eq K he]
  set t := (s.eventRemoveTimeout e).eventRemoveActive e with ht
  have htimeout : t.hasFlag e wbaEvtlistTimeout = false := by
    rw [hasFlag, (sameBut_eventRemoveActive _ e).flag e _ (by decide)]
    exact hasFlag_eventRemoveTimeout s e
  have hactive : t.hasFlag e wbaEvtlistActive = false := by
    rw [ht, WbaEvtbase.eventRemoveActive]
    split_ifs with hflag
    · rw [← Bool.not_eq_true]
      intro hset
      exact ((hasFlag_clearFlags _ e e wbaEvtlistActive).1 hset).1 rfl
    · simpa using hflag
  rcases eventDelReg_cases K t e with ⟨heq, hreg⟩ | ⟨heq, -⟩ | ⟨ok, k, heq, -, -, -⟩
  · rw [heq]
    exact ⟨hactive, htimeout, hreg⟩
  · have hsame := sameBut_clearFlags t e wbaEvtlistReg
    rw [heq, hasFlag, hasFlag, hsame.flag e _ (by decide), hsame.flag e _ (by decide)]
    exact ⟨hactive, htimeout, by simp [hasFlag, clearFlags]⟩
  · have hsame := sameBut_clearFlags (eventMapUnlink { t with kernel := k } e) e wbaEvtlistReg
    rw [heq, hasFlag, hasFlag, hsame.flag e _ (by decide), hsame.flag e _ (by decide)]
    exact ⟨hactive, htimeout, by simp [hasFlag, clearFlags]⟩

/-! ### Creating and freeing -/

theorem WellFormed.eraseHeap (h : WellFormed s active slot)
    (hactive : s.hasFlag e wbaEvtlistActive = false)
    (htimeout : s.hasFlag e wbaEvtlistTimeout = false)
    (hreg : s.hasFlag e wbaEvtlistReg = false) :
    WellFormed { s with heap := s.heap.erase e } active slot := by
  have hmem : ∀ {d : EvtId} {p : Prop}, (p → d ≠ e) → (d ∈ s.heap ∧ p ↔
      d ∈ s.heap.erase e ∧ p) := by
    intro d p hp
    rw [h.heap_nodup.mem_erase_iff, and_assoc]
    tauto
  refine ⟨⟨h.active.ring, fun d => ?_, h.active.count⟩,
    ⟨h.map.size, h.map.sizemask, h.map.ring, fun i hi d => ?_, h.map.used⟩,
    ⟨h.timer.nodup, fun d => ?_, h.timer.sorted, h.timer.stamps⟩, fun d hd hto => ?_, h.count,
    h.heap_nodup.erase e⟩
  · rw [h.active.mem d]
    refine hmem ?_
    rintro hset rfl
    simp [hset] at hactive
  · rw [h.map.mem i hi d]
    refine hmem ?_
    rintro ⟨⟨hset, -⟩, -⟩ rfl
    simp [hset] at hreg
  · rw [h.timer.mem d]
    refine hmem ?_
    rintro hset rfl
    simp [hset] at htimeout
  · exact h.timeout_reg d (List.mem_of_mem_erase hd) hto

theorem Consistent.wbaEventFree (h : Consistent s active) (e : EvtId) :
    Consistent (s.wbaEventFree K e) (active.erase e) := by
  obtain ⟨slot, hwf⟩ := h
  unfold WbaEvtbase.wbaEventFree
  by_cases he : e ∈ s.heap
  · obtain ⟨hactive, htimeout, hreg⟩ := hwf.hasFlag_eventDel K he
    exact ⟨_, (hwf.eventDel K he).eraseHeap hactive htimeout hreg⟩
  · rw [eventDel_of_notMem K he, hwf.active.erase_of_notMem he]
    simp only [List.erase_of_not_mem he]
    exact ⟨slot, hwf⟩

/-- Placing a fresh event at an address that is not in use. -/
theorem WellFormed.placeEvt (h : WellFormed s active slot) (he : e ∉ s.heap) {v : WbaEvt}
    (hflags : v.flags = wbaEvtlistInit) : WellFormed (s.placeEvt e v) active slot := by
  have hold : ∀ d ∈ s.heap, (s.placeEvt e v).evt d = s.evt d := by
    intro d hd
    refine Function.update_of_ne ?_ _ _
    rintro rfl
    exact he hd
  -- The new event is in no container: it has none of the flags.
  have hnew : ∀ d m, hasAny wbaEvtlistInit m = false →
      (d ∈ (s.placeEvt e v).heap ∧ (s.placeEvt e v).hasFlag d m = true ↔
        d ∈ s.heap ∧ s.hasFlag d m = true) := by
    intro d m hm
    by_cases hde : d = e
    · subst hde
      simp [WbaEvtbase.placeEvt, hasFlag, hflags, hm, he]
    · simp [WbaEvtbase.placeEvt, hasFlag, hde]
  refine ⟨⟨?_, fun d => ?_, h.active.count⟩,
    ⟨h.map.size, h.map.sizemask, fun i hi => ?_, fun i hi d => ?_, h.map.used⟩,
    ⟨h.timer.nodup, fun d => ?_, ?_, h.timer.stamps⟩, fun d hd hto => ?_, h.count,
    List.nodup_cons.2 ⟨he, h.heap_nodup⟩⟩
  · have hne : ∀ y ∈ (head () : ListHead Unit EvtId) :: active.map entry, y ≠ entry e := by
      rintro y hy rfl
      exact he ((h.active.mem e).1 (by simpa using hy)).1
    refine h.active.ring.congr (fun y hy => ?_) fun y hy => ?_
    · exact Function.update_of_ne (hne y hy) _ _
    · exact Function.update_of_ne (hne y hy) _ _
  · rw [hnew d _ (by decide), h.active.mem d]
  · have hne : ∀ y ∈ (head i : ListHead ℕ EvtId) :: (slot i).map entry, y ≠ entry e := by
      rintro y hy rfl
      exact he ((h.map.mem i hi e).1 (by simpa using hy)).1
    refine (h.map.ring i hi).congr (fun y hy => ?_) fun y hy => ?_
    · exact Function.update_of_ne (hne y hy) _ _
    · exact Function.update_of_ne (hne y hy) _ _
  · rw [h.map.mem i hi d]
    have hreg := hnew d wbaEvtlistReg (by decide)
    by_cases hd : d ∈ s.heap
    · have hd' : d ∈ (s.placeEvt e v).heap := List.mem_cons_of_mem e hd
      simp only [hd, hd', true_and, InMap, slotOf, hasEvent, hold d hd] at hreg ⊢
      rw [hreg]
      rfl
    · constructor
      · exact fun h' => absurd h'.1 hd
      · exact fun h' => absurd (hreg.1 ⟨h'.1, h'.2.1.1⟩).1 hd
  · rw [hnew d _ (by decide)]
    exact h.timer.mem d
  · refine h.timer.sorted.imp_of_mem fun {c d} hc hd hlt => ?_
    have hc' := hold c ((h.timer.mem c).1 hc).1
    have hd' := hold d ((h.timer.mem d).1 hd).1
    rw [TimerLt, hc', hd']
    exact hlt
  · have hto' := (hnew d _ (by decide)).1 ⟨hd, hto⟩
    exact ((hnew d _ (by decide)).2 ⟨hto'.1, h.timeout_reg d hto'.1 hto'.2⟩).2

/-- What `wba_event_new` can do. -/
theorem wbaEventNew_cases (s : WbaEvtbase κ) (malloc : Option EvtId) (fd : ℤ) (events : BitVec 16)
    (fn : Option WbaEvtcbFn) (arg : CbArg) :
    s.wbaEventNew malloc fd events fn arg = (none, s) ∨
      ∃ e f, e ∉ s.heap ∧ s.wbaEventNew malloc fd events fn arg =
        (some e, s.placeEvt e (freshEvt e fd events f arg)) := by
  unfold wbaEventNew
  split
  · rename_i f e
    split_ifs with he
    · exact Or.inl rfl
    · exact Or.inr ⟨e, f, he, rfl⟩
  · exact Or.inl rfl

theorem Consistent.wbaEventNew (h : Consistent s active) (malloc : Option EvtId) (fd : ℤ)
    (events : BitVec 16) (fn : Option WbaEvtcbFn) (arg : CbArg) :
    Consistent (s.wbaEventNew malloc fd events fn arg).2 active := by
  obtain ⟨slot, hwf⟩ := h
  rcases wbaEventNew_cases s malloc fd events fn arg with heq | ⟨e, f, he, heq⟩
  · rw [heq]
    exact ⟨slot, hwf⟩
  · rw [heq]
    exact ⟨slot, hwf.placeEvt he rfl⟩

/-- What a call does to the active list. -/
def callActive (active : List EvtId) : Call → List EvtId
  | .new .. => active
  | .add .. => active
  | .del e => active.erase e
  | .free e => active.erase e

theorem Consistent.runCall (h : Consistent s active) (c : Call) :
    Consistent (s.runCall K c) (callActive active c) := by
  cases c with
  | new malloc fd events fn arg => exact h.wbaEventNew malloc fd events fn arg
  | add e tv => exact h.wbaEventAdd K e tv
  | del e => exact h.eventDel K e
  | free e => exact h.wbaEventFree K e

/-- No call makes an event active. -/
theorem callActive_nil (c : Call) : callActive [] c = [] := by
  cases c with
  | new malloc fd events fn arg => rfl
  | add e tv => rfl
  | del e => rfl
  | free e => rfl

theorem Consistent.runCall_nil (h : Consistent s []) (c : Call) :
    Consistent (s.runCall K c) [] := by
  have hcall := h.runCall K c
  rwa [callActive_nil] at hcall

theorem Consistent.runCalls (h : Consistent s active) (calls : List Call) :
    Consistent (s.runCalls K calls) (calls.foldl callActive active) := by
  induction calls generalizing s active with
  | nil => exact h
  | cons c calls ih => exact ih (h.runCall K c)

end WbaEvtbase

end Miscellany
