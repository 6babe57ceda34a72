import Miscellany.EventLoop.Preservation

/-!
# Activation by reports

`event_map_active` walks one slot of the map and puts the events it finds there on
the active list. The walk ends, because the slot is a ring of events of the base,
and it changes nothing but the active list and the events it puts there
(`ActiveOnly`). What the loop over all reports does to an event is decided by the
first report that reaches the slot of the event with one of its bits.
-/

namespace Miscellany

open ListHead

namespace WbaEvtbase

variable {κ : Type*} {s t u : WbaEvtbase κ}
variable {active : List EvtId} {slot : ℕ → List EvtId} {e d : EvtId}

/-! ### What activation leaves alone -/

/-- From `s` to `t` only the active list and the contents of events are written. -/
def ActiveOnly (s t : WbaEvtbase κ) : Prop :=
  t = { s with
    evt := t.evt
    evtActiveList := t.evtActiveList
    eventCountActive := t.eventCountActive }

theorem ActiveOnly.refl (s : WbaEvtbase κ) : ActiveOnly s s := rfl

theorem ActiveOnly.trans (hst : ActiveOnly s t) (htu : ActiveOnly t u) : ActiveOnly s u := by
  rw [ActiveOnly, htu, hst]

theorem ActiveOnly.heap (h : ActiveOnly s t) : t.heap = s.heap := by
  rw [h]

theorem ActiveOnly.evtList (h : ActiveOnly s t) : t.evtList = s.evtList := by
  rw [h]

theorem ActiveOnly.sizemask (h : ActiveOnly s t) : t.sizemask = s.sizemask := by
  rw [h]

theorem ActiveOnly.evtTimeRoot (h : ActiveOnly s t) : t.evtTimeRoot = s.evtTimeRoot := by
  rw [h]

theorem ActiveOnly.kernel (h : ActiveOnly s t) : t.kernel = s.kernel := by
  rw [h]

theorem activeOnly_eventAddActive (s : WbaEvtbase κ) (e : EvtId) (res : BitVec 16) :
    ActiveOnly s (s.eventAddActive e res) := by
  unfold eventAddActive
  split_ifs
  · exact ActiveOnly.refl s
  · rfl

/-- The event `v` after it has been put on the active list with the result `res`. -/
def activated (v : WbaEvt) (res : BitVec 16) : WbaEvt :=
  { v with res := res, flags := v.flags ||| wbaEvtlistActive }

theorem hasAny_activated (v : WbaEvt) (res : BitVec 16) :
    hasAny (activated v res).flags wbaEvtlistActive = true := by
  rw [activated, hasAny_or, Bool.or_eq_true]
  exact Or.inr (by decide)

/-- The other flags are kept. -/
theorem hasAny_activated_of_disjoint (v : WbaEvt) (res : BitVec 16) {m : BitVec 16}
    (hm : hasAny wbaEvtlistActive m = false) :
    hasAny (activated v res).flags m = hasAny v.flags m := by
  rw [activated, hasAny_or, hm, Bool.or_false]

theorem eventAddActive_evt (s : WbaEvtbase κ) (e d : EvtId) (res : BitVec 16) :
    (s.eventAddActive e res).evt d =
      if d = e ∧ s.hasFlag e wbaEvtlistActive = false then activated (s.evt d) res
      else s.evt d := by
  unfold eventAddActive
  by_cases hflag : s.hasFlag e wbaEvtlistActive = true
  · rw [if_pos hflag, if_neg (by simp [hflag])]
  · rw [if_neg hflag]
    by_cases hde : d = e
    · subst hde
      simp [hflag, activated, setFlags]
    · rw [if_neg (by simp [hde])]
      simp [setFlags, modifyEvt, Function.update_of_ne hde]

/-! ### One slot -/

/-- The body of the loop of `event_map_active`. -/
def visit (events : BitVec 16) (s : WbaEvtbase κ) (e : EvtId) : WbaEvtbase κ :=
  if s.hasEvent e events then s.eventAddActive e ((s.evt e).events &&& events) else s

theorem activeOnly_visit (events : BitVec 16) (s : WbaEvtbase κ) (e : EvtId) :
    ActiveOnly s (s.visit events e) := by
  unfold visit
  split_ifs
  · exact activeOnly_eventAddActive s e _
  · exact ActiveOnly.refl s

theorem visit_evt (events : BitVec 16) (s : WbaEvtbase κ) (e d : EvtId) :
    (s.visit events e).evt d =
      if d = e ∧ s.hasFlag d wbaEvtlistActive = false ∧ s.hasEvent d events = true then
        activated (s.evt d) ((s.evt d).events &&& events)
      else s.evt d := by
  unfold visit
  by_cases hev : s.hasEvent e events = true
  · rw [if_pos hev, eventAddActive_evt]
    by_cases hde : d = e
    · subst hde
      simp [hev]
    · simp [hde]
  · rw [if_neg hev, if_neg]
    rintro ⟨rfl, -, hev'⟩
    exact hev hev'

theorem WellFormed.visit (h : WellFormed s active slot) (he : e ∈ s.heap) (events : BitVec 16) :
    ∃ fresh, WellFormed (s.visit events e) (active ++ fresh) slot := by
  unfold WbaEvtbase.visit
  split_ifs
  · cases hflag : s.hasFlag e wbaEvtlistActive with
    | true => exact ⟨[], by simpa [eventAddActive_of_active _ hflag] using h⟩
    | false => exact ⟨[e], h.eventAddActive he hflag _⟩
  · exact ⟨[], by simpa using h⟩

/-- The loop of `event_map_active` visits the rest of the slot and returns. -/
theorem eventMapActiveLoop_eq (events : BitVec 16) {i : ℕ} (us vs : List EvtId)
    (hring : Ring s.evtList i (us ++ vs)) {fuel : ℕ} (hfuel : vs.length ≤ fuel) :
    eventMapActiveLoop events fuel (some ((vs.map entry).headD (head i))) s =
      some (vs.foldl (visit events) s) := by
  induction vs generalizing us s fuel with
  | nil =>
      cases fuel with
      | zero => rfl
      | succ fuel => rfl
  | cons v vs ih =>
      cases fuel with
      | zero => simp at hfuel
      | succ fuel =>
          have hlist := (activeOnly_visit events s v).evtList
          have hring' : Ring (s.visit events v).evtList i ((us ++ [v]) ++ vs) := by
            rw [hlist]
            simpa using hring
          change eventMapActiveLoop events fuel ((s.visit events v).evtList.next (entry v))
            (s.visit events v) = _
          rw [hlist, hring.next_entry]
          exact ih (us ++ [v]) hring' (Nat.le_of_succ_le_succ hfuel)

/-- What the visits of a list of events do. -/
theorem WellFormed.foldl_visit (h : WellFormed s active slot) (events : BitVec 16)
    (vs : List EvtId) (hvs : ∀ v ∈ vs, v ∈ s.heap) :
    (∃ fresh, WellFormed (vs.foldl (WbaEvtbase.visit events) s) (active ++ fresh) slot) ∧
      ActiveOnly s (vs.foldl (WbaEvtbase.visit events) s) ∧
      ∀ d, (vs.foldl (WbaEvtbase.visit events) s).evt d =
        if d ∈ vs ∧ s.hasFlag d wbaEvtlistActive = false ∧ s.hasEvent d events = true then
          activated (s.evt d) ((s.evt d).events &&& events)
        else s.evt d := by
  induction vs generalizing s active with
  | nil => exact ⟨⟨[], by simpa using h⟩, ActiveOnly.refl s, fun d => by simp⟩
  | cons v vs ih =>
      have honly := activeOnly_visit events s v
      obtain ⟨fresh, hwf⟩ := h.visit (hvs v (by simp)) events
      obtain ⟨⟨fresh', hwf'⟩, honly', hevt⟩ := ih hwf fun w hw => by
        rw [honly.heap]
        exact hvs w (List.mem_cons_of_mem v hw)
      refine ⟨⟨fresh ++ fresh', by simpa using hwf'⟩, honly.trans honly', fun d => ?_⟩
      rw [List.foldl_cons, hevt, hasFlag, hasEvent]
      have hvisit := visit_evt events s v d
      by_cases hhit : d = v ∧ s.hasFlag d wbaEvtlistActive = false ∧ s.hasEvent d events = true
      · obtain ⟨rfl, hflag, hev⟩ := hhit
        -- A second visit finds the event active.
        rw [if_pos ⟨rfl, hflag, hev⟩] at hvisit
        simp [hvisit, hasAny_activated, hflag, hev]
      · rw [if_neg hhit] at hvisit
        rw [hvisit]
        refine if_congr ?_ rfl rfl
        change d ∈ vs ∧ s.hasFlag d wbaEvtlistActive = false ∧ s.hasEvent d events = true ↔ _
        rw [List.mem_cons]
        tauto

/-! ### All reports -/

/-- The event waits for a report: it is in the map and not yet active. -/
def Waiting (s : WbaEvtbase κ) (d : EvtId) : Prop :=
  d ∈ s.heap ∧ s.InMap d ∧ s.hasFlag d wbaEvtlistActive = false

instance (s : WbaEvtbase κ) (d : EvtId) : Decidable (s.InMap d) :=
  inferInstanceAs (Decidable (_ ∧ _ ∧ _))

instance (s : WbaEvtbase κ) (d : EvtId) : Decidable (s.Waiting d) :=
  inferInstanceAs (Decidable (_ ∧ _ ∧ _))

/-- The descriptor `fd` belongs to the slot of the event and the event waits for one of the bits
`events`. -/
def reaches (s : WbaEvtbase κ) (fd : ℤ) (events : BitVec 16) (d : EvtId) : Bool :=
  decide (0 ≤ fd) && decide (fd.toNat &&& s.sizemask = s.slotOf d) && s.hasEvent d events

/-- The report reaches the slot of the event, with one of its bits. -/
def hits (s : WbaEvtbase κ) (r : EpollEvent) (d : EvtId) : Bool :=
  s.reaches r.fd (translate r.events) d

theorem hits_congr (hevt : t.evt d = s.evt d) (hmask : t.sizemask = s.sizemask)
    (r : EpollEvent) : t.hits r d = s.hits r d := by
  unfold hits reaches slotOf hasEvent
  rw [hevt, hmask]

theorem waiting_congr (hevt : t.evt d = s.evt d) (hheap : t.heap = s.heap) :
    t.Waiting d ↔ s.Waiting d := by
  simp only [Waiting, InMap, hasFlag, hasEvent, hevt, hheap]

/-- The result with which a report activates the event. -/
def resultOf (s : WbaEvtbase κ) (r : EpollEvent) (d : EvtId) : BitVec 16 :=
  (s.evt d).events &&& translate r.events

theorem not_waiting_activated {res : BitVec 16} (hevt : t.evt d = activated (s.evt d) res) :
    ¬ t.Waiting d := by
  rintro ⟨-, -, hflag⟩
  rw [hasFlag, hevt, hasAny_activated] at hflag
  exact absurd hflag (by decide)

/-- `event_map_active` returns, and activates the events it reaches. -/
theorem WellFormed.eventMapActive (h : WellFormed s active slot) (fd : ℤ) (events : BitVec 16) :
    ∃ t fresh, s.eventMapActive fd events = some t ∧
      WellFormed t (active ++ fresh) slot ∧ ActiveOnly s t ∧
      ∀ d, t.evt d =
        if s.Waiting d ∧ s.reaches fd events d = true then
          activated (s.evt d) ((s.evt d).events &&& events)
        else s.evt d := by
  unfold WbaEvtbase.eventMapActive eventMapGetSlot
  by_cases hfd : fd < 0
  · refine ⟨s, [], by rw [if_pos hfd], by simpa using h, ActiveOnly.refl s, fun d => ?_⟩
    rw [if_neg]
    rintro ⟨-, hhit⟩
    simp [reaches, not_le.2 hfd] at hhit
  · set i := fd.toNat &&& s.sizemask with hi
    have hlt : i < evtMapSize := by
      rw [hi, h.map.sizemask]
      exact lt_of_le_of_lt Nat.and_le_right (by decide)
    have hring := h.map.ring i hlt
    have hheap : ∀ v ∈ slot i, v ∈ s.heap := fun v hv => ((h.map.mem i hlt v).1 hv).1
    have hfuel : (slot i).length ≤ s.heap.length :=
      (List.subperm_of_subset hring.nodup hheap).length_le
    obtain ⟨⟨fresh, hwf⟩, honly, hevt⟩ := h.foldl_visit events (slot i) hheap
    refine ⟨_, fresh, ?_, hwf, honly, fun d => ?_⟩
    · simp only [if_neg hfd]
      rw [hring.next_head]
      exact eventMapActiveLoop_eq events [] (slot i) hring hfuel
    · rw [hevt]
      refine if_congr ?_ rfl rfl
      rw [h.map.mem i hlt d, Waiting, reaches, Bool.and_eq_true, Bool.and_eq_true,
        decide_eq_true_iff, decide_eq_true_iff, ← hi, eq_comm (a := i)]
      have hpos : 0 ≤ fd := not_lt.1 hfd
      tauto

/-- One round of the loop over the reports. -/
def processReport (s : WbaEvtbase κ) (r : EpollEvent) : Option (WbaEvtbase κ) :=
  if translate r.events = 0 then some s else s.eventMapActive r.fd (translate r.events)

theorem processReports_cons (r : EpollEvent) (rs : List EpollEvent) (s : WbaEvtbase κ) :
    processReports (r :: rs) s = (s.processReport r).bind (processReports rs) := by
  rw [processReports, processReport]
  split_ifs
  · rfl
  · cases s.eventMapActive r.fd (translate r.events) <;> rfl

theorem WellFormed.processReport (h : WellFormed s active slot) (r : EpollEvent) :
    ∃ t fresh, s.processReport r = some t ∧ WellFormed t (active ++ fresh) slot ∧
      ActiveOnly s t ∧
      ∀ d, t.evt d =
        if s.Waiting d ∧ s.hits r d = true then activated (s.evt d) (s.resultOf r d)
        else s.evt d := by
  unfold WbaEvtbase.processReport
  split_ifs with hzero
  · refine ⟨s, [], rfl, by simpa using h, ActiveOnly.refl s, fun d => ?_⟩
    rw [if_neg]
    rintro ⟨-, hhit⟩
    simp [hits, reaches, hasEvent, hasAny, hzero] at hhit
  · exact h.eventMapActive r.fd (translate r.events)

/-- The result with which the event is activated, if it is: that of the first report that
hits it. -/
def reported (s : WbaEvtbase κ) (rs : List EpollEvent) (d : EvtId) : Option (BitVec 16) :=
  if s.Waiting d then (rs.find? fun r => s.hits r d).map fun r => s.resultOf r d else none

theorem reported_of_waiting (h : s.Waiting d) (rs : List EpollEvent) :
    s.reported rs d = (rs.find? fun r => s.hits r d).map fun r => s.resultOf r d := by
  rw [reported, if_pos h]

theorem reported_cons (s : WbaEvtbase κ) (r : EpollEvent) (rs : List EpollEvent) (d : EvtId) :
    s.reported (r :: rs) d =
      if s.Waiting d ∧ s.hits r d = true then some (s.resultOf r d) else s.reported rs d := by
  by_cases hw : s.Waiting d
  · rw [reported_of_waiting hw, reported_of_waiting hw, List.find?_cons]
    cases hhit : s.hits r d <;> simp [hw]
  · simp [reported, hw]

theorem reported_congr (hevt : t.evt d = s.evt d) (honly : ActiveOnly s t)
    (rs : List EpollEvent) : t.reported rs d = s.reported rs d := by
  have hhits : (fun r => t.hits r d) = fun r => s.hits r d :=
    funext fun r => hits_congr hevt honly.sizemask r
  have hres : (fun r => t.resultOf r d) = fun r => s.resultOf r d := by
    funext r
    rw [resultOf, resultOf, hevt]
  unfold reported
  rw [hhits, hres]
  exact if_congr (waiting_congr hevt honly.heap) rfl rfl

/-- The loop over the reports returns. It activates each event that a report hits, with the
result of the first such report, and leaves everything else alone. -/
theorem WellFormed.processReports (h : WellFormed s active slot) (rs : List EpollEvent) :
    ∃ t fresh, WbaEvtbase.processReports rs s = some t ∧
      WellFormed t (active ++ fresh) slot ∧ ActiveOnly s t ∧
      ∀ d, t.evt d = ((s.reported rs d).map (activated (s.evt d))).getD (s.evt d) := by
  induction rs generalizing s active with
  | nil => exact ⟨s, [], rfl, by simpa using h, ActiveOnly.refl s, fun d => by simp [reported]⟩
  | cons r rs ih =>
      obtain ⟨t, fresh, heq, hwf, honly, hevt⟩ := h.processReport r
      obtain ⟨u, fresh', heq', hwf', honly', hevt'⟩ := ih hwf
      refine ⟨u, fresh ++ fresh', ?_, by simpa using hwf', honly.trans honly', fun d => ?_⟩
      · rw [processReports_cons, heq]
        exact heq'
      · have hd := hevt d
        rw [hevt' d]
        by_cases hhit : s.Waiting d ∧ s.hits r d = true
        -- Once active, the event is left alone by the remaining reports.
        · rw [if_pos hhit] at hd
          rw [reported, if_neg (not_waiting_activated hd), reported_cons, if_pos hhit, hd]
          rfl
        · rw [if_neg hhit] at hd
          rw [reported_congr hd honly, reported_cons, if_neg hhit, hd]

end WbaEvtbase

end Miscellany
