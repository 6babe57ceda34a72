import Miscellany.EventLoop.Activation

/-!
# Expiry of timers

`event_process_timeout` takes the events off the front of the time tree until it
meets one whose deadline lies after the clock reading. Because the tree is sorted,
these are all the events that are due (`due`). Each of them is deleted, which takes
it out of all three containers, and put at the end of the active list.
-/

namespace Miscellany

namespace WbaEvtbase

variable {κ : Type*} (K : Kernel κ)
variable {s : WbaEvtbase κ} {active : List EvtId} {slot : ℕ → List EvtId} {e d : EvtId}

/-! ### One expired event -/

theorem eventDelReg_evtTimeRoot (s : WbaEvtbase κ) (e : EvtId) :
    (s.eventDelReg K e).2.evtTimeRoot = s.evtTimeRoot := by
  rcases eventDelReg_cases K s e with ⟨heq, -⟩ | ⟨heq, -⟩ | ⟨ok, k, heq, -, -, -⟩
  · rw [heq]
  · rw [heq]
    rfl
  · rw [heq]
    rfl

theorem eventRemoveActive_evtTimeRoot (s : WbaEvtbase κ) (e : EvtId) :
    (s.eventRemoveActive e).evtTimeRoot = s.evtTimeRoot := by
  unfold eventRemoveActive
  split_ifs <;> rfl

theorem WellFormed.inorder_eventDel (h : WellFormed s active slot) (he : e ∈ s.heap) :
    (s.eventDel K e).2.evtTimeRoot.inorder = s.evtTimeRoot.inorder.erase e := by
  rw [h.eventDel_eq K he, eventDelReg_evtTimeRoot, eventRemoveActive_evtTimeRoot,
    h.timer.inorder_eventRemoveTimeout he]

/-- What `event_process_timeout` does to an event that is due. -/
def expire (s : WbaEvtbase κ) (e : EvtId) : WbaEvtbase κ :=
  (s.eventDel K e).2.eventAddActive e wbaEvtTimeout

/-- The event `w` is the event `v` after its timeout. -/
structure TimedOut (v w : WbaEvt) : Prop where
  eq : w = { v with flags := w.flags, res := wbaEvtTimeout }
  active : hasAny w.flags wbaEvtlistActive = true
  timeout : hasAny w.flags wbaEvtlistTimeout = false
  reg : hasAny w.flags wbaEvtlistReg = false

theorem expire_heap (s : WbaEvtbase κ) (e : EvtId) : (s.expire K e).heap = s.heap := by
  rw [expire, (activeOnly_eventAddActive _ e _).heap, (flagsOnly_eventDel K s e).1]

theorem expire_evt_of_ne (s : WbaEvtbase κ) (hde : d ≠ e) : (s.expire K e).evt d = s.evt d := by
  rw [expire, eventAddActive_evt, if_neg fun hc => hde hc.1,
    (flagsOnly_eventDel K s e).evt_of_ne hde]

theorem WellFormed.timedOut_expire (h : WellFormed s active slot) (he : e ∈ s.heap) :
    TimedOut (s.evt e) ((s.expire K e).evt e) := by
  obtain ⟨hactive, htimeout, hreg⟩ := h.hasFlag_eventDel K he
  have hevt : (s.expire K e).evt e = activated ((s.eventDel K e).2.evt e) wbaEvtTimeout := by
    rw [expire, eventAddActive_evt, if_pos ⟨rfl, hactive⟩]
  rw [hasFlag] at htimeout hreg
  refine ⟨?_, ?_, ?_, ?_⟩
  · rw [hevt, activated, (flagsOnly_eventDel K s e).evt_self]
  · rw [hevt, hasAny_activated]
  · rw [hevt, hasAny_activated_of_disjoint _ _ (by decide), htimeout]
  · rw [hevt, hasAny_activated_of_disjoint _ _ (by decide), hreg]

theorem WellFormed.expire (h : WellFormed s active slot) (he : e ∈ s.heap) :
    WellFormed (s.expire K e) (active.erase e ++ [e]) (fun i => (slot i).erase e) := by
  obtain ⟨hactive, -, -⟩ := h.hasFlag_eventDel K he
  refine (h.eventDel K he).eventAddActive ?_ hactive wbaEvtTimeout
  rw [(flagsOnly_eventDel K s e).1]
  exact he

theorem WellFormed.inorder_expire (h : WellFormed s active slot) (he : e ∈ s.heap) :
    (s.expire K e).evtTimeRoot.inorder = s.evtTimeRoot.inorder.erase e := by
  rw [WbaEvtbase.expire, (activeOnly_eventAddActive _ e _).evtTimeRoot, h.inorder_eventDel K he]

/-! ### All expired events -/

/-- The deadline of the event is not after `now`. -/
def isDue (s : WbaEvtbase κ) (now : Timeval) (d : EvtId) : Bool :=
  decide (eventTimecmp (s.evt d).evtTimeout now ≤ 0)

/-- The events of the time tree that are due, in the order of the tree. -/
def due (s : WbaEvtbase κ) (now : Timeval) : List EvtId :=
  s.evtTimeRoot.inorder.filter (s.isDue now)

theorem isDue_iff (s : WbaEvtbase κ) (now : Timeval) (d : EvtId) :
    s.isDue now d = true ↔ (s.evt d).evtTimeout.key ≤ now.key := by
  have hpos := eventTimecmp_pos_iff (s.evt d).evtTimeout now
  rw [isDue, decide_eq_true_iff, ← not_lt, ← not_lt, hpos]

/-- Behind an event that is not due no event of the tree is due. -/
theorem TimerInv.due_eq_nil (h : TimerInv s) {now : Timeval} {p : EvtId} {rest : List EvtId}
    (hin : s.evtTimeRoot.inorder = p :: rest) (hp : s.isDue now p = false) : s.due now = [] := by
  have hsorted := h.sorted
  rw [hin, List.pairwise_cons] at hsorted
  rw [← Bool.not_eq_true, isDue_iff, not_le] at hp
  rw [due, hin, List.filter_eq_nil_iff]
  intro d hd
  rw [isDue_iff, not_le]
  rcases List.mem_cons.1 hd with rfl | hd
  · exact hp
  · exact hp.trans_le (TimerLt.key_le (hsorted.1 d hd))

/-- The state `t` with the active list `active'` is what the expiry of the events `xs` makes of
the state `s`. -/
structure Expired (s t : WbaEvtbase κ) (xs : List EvtId) : Prop where
  heap : t.heap = s.heap
  inorder : t.evtTimeRoot.inorder = s.evtTimeRoot.inorder.diff xs
  timedOut : ∀ d ∈ xs, TimedOut (s.evt d) (t.evt d)
  other : ∀ d, d ∉ xs → t.evt d = s.evt d

theorem Expired.nil (s : WbaEvtbase κ) : Expired s s [] :=
  ⟨rfl, by simp, by simp, fun _ _ => rfl⟩

theorem WellFormed.expired_cons {t : WbaEvtbase κ} {xs : List EvtId}
    (h : WellFormed s active slot) (he : e ∈ s.heap) (hxs : e ∉ xs)
    (ht : Expired (s.expire K e) t xs) : Expired s t (e :: xs) := by
  refine ⟨ht.heap.trans (expire_heap K s e), ?_, fun d hd => ?_, fun d hd => ?_⟩
  · rw [ht.inorder, h.inorder_expire K he, List.diff_cons]
  · rcases List.mem_cons.1 hd with rfl | hd
    · rw [ht.other d hxs]
      exact h.timedOut_expire K he
    · have hde : d ≠ e := fun hde => hxs (hde ▸ hd)
      rw [← expire_evt_of_ne K s hde]
      exact ht.timedOut d hd
  · rw [List.mem_cons, not_or] at hd
    rw [ht.other d hd.2, expire_evt_of_ne K s hd.1]

/-- After its first event has expired, the events that are due are the remaining ones. -/
theorem WellFormed.due_expire (h : WellFormed s active slot) {now : Timeval} {p : EvtId}
    {rest : List EvtId} (hin : s.evtTimeRoot.inorder = p :: rest) (hp : s.isDue now p = true) :
    s.due now = p :: (s.expire K p).due now := by
  have he : p ∈ s.heap := ((h.timer.mem p).1 (by simp [hin])).1
  have hnodup := h.timer.nodup
  rw [hin, List.nodup_cons] at hnodup
  have hsame : ∀ d ∈ rest, s.isDue now d = (s.expire K p).isDue now d := by
    intro d hd
    have hdp : d ≠ p := fun hdp => hnodup.1 (hdp ▸ hd)
    rw [isDue, isDue, expire_evt_of_ne K s hdp]
  rw [due, due, h.inorder_expire K he, hin, List.erase_cons_head, List.filter_cons_of_pos hp,
    List.filter_congr hsame]

/-- Removing events leaves a last element that is not among them in place. -/
theorem diff_concat {l xs : List EvtId} {p : EvtId} (hp : p ∉ xs) :
    (l ++ [p]).diff xs = l.diff xs ++ [p] := by
  induction xs generalizing l with
  | nil => simp
  | cons x xs ih =>
      rw [List.mem_cons, not_or] at hp
      have hx : (l ++ [p]).erase x = l.erase x ++ [p] := by
        by_cases hmem : x ∈ l
        · exact List.erase_append_left [p] hmem
        · have hxp : x ∉ [p] := by simpa using Ne.symm hp.1
          rw [List.erase_append_right [p] hmem, List.erase_of_not_mem hmem,
            List.erase_of_not_mem hxp]
      rw [List.diff_cons, List.diff_cons, hx, ih hp.2]

/-- The loop of `event_process_timeout` from the first node of the tree on: it expires the
events that are due, in the order of the tree, and counts them. -/
theorem WellFormed.eventProcessTimeoutLoop (h : WellFormed s active slot) (now : Timeval)
    {fuel : ℕ} (hfuel : s.evtTimeRoot.inorder.length ≤ fuel) (cnt : ℤ) :
    ∃ t, WbaEvtbase.eventProcessTimeoutLoop K now fuel s.evtTimeRoot.inorder.head? cnt s =
        (cnt + (s.due now).length, t) ∧
      WellFormed t (active.diff (s.due now) ++ s.due now) (fun i => (slot i).diff (s.due now)) ∧
      Expired s t (s.due now) := by
  induction fuel generalizing s active slot cnt with
  | zero =>
      have hnil : s.evtTimeRoot.inorder = [] := List.eq_nil_of_length_eq_zero (by omega)
      have hdue : s.due now = [] := by simp [due, hnil]
      rw [hdue, hnil]
      exact ⟨s, by simp [WbaEvtbase.eventProcessTimeoutLoop], by simpa using h, Expired.nil s⟩
  | succ fuel ih =>
      cases hin : s.evtTimeRoot.inorder with
      | nil =>
          have hdue : s.due now = [] := by simp [due, hin]
          rw [hdue]
          exact ⟨s, by simp [WbaEvtbase.eventProcessTimeoutLoop], by simpa using h,
            Expired.nil s⟩
      | cons p rest =>
          have hgt : eventTimecmp (s.evt p).evtTimeout now > 0 ↔ s.isDue now p = false := by
            simp [isDue]
          cases hp : s.isDue now p with
          | false =>
              rw [h.timer.due_eq_nil hin hp]
              refine ⟨s, ?_, by simpa using h, Expired.nil s⟩
              simp [WbaEvtbase.eventProcessTimeoutLoop, hgt.2 hp]
          | true =>
              have he : p ∈ s.heap := ((h.timer.mem p).1 (by simp [hin])).1
              have hnext : s.evtTimeRoot.rbNext p = rest.head? := by
                have hin' : s.evtTimeRoot.inorder = [] ++ p :: rest := hin
                exact RbTree.rbNext_eq hin' h.timer.nodup
              have hrest : (s.expire K p).evtTimeRoot.inorder = rest := by
                rw [h.inorder_expire K he, hin, List.erase_cons_head]
              have hfuel' : (s.expire K p).evtTimeRoot.inorder.length ≤ fuel := by
                rw [hrest]
                simpa [hin] using hfuel
              obtain ⟨t, hloop, hwf, hexp⟩ := ih (h.expire K he) hfuel' (cnt + 1)
              have hnew : p ∉ (s.expire K p).due now := by
                intro hmem
                have hpmem := List.mem_of_mem_filter hmem
                rw [hrest] at hpmem
                exact (List.nodup_cons.1 (hin ▸ h.timer.nodup)).1 hpmem
              rw [h.due_expire K hin hp]
              refine ⟨t, ?_, ?_, h.expired_cons K he hnew hexp⟩
              · rw [hrest] at hloop
                have hle : ¬ eventTimecmp (s.evt p).evtTimeout now > 0 := by simp [hgt, hp]
                simp only [List.head?_cons, WbaEvtbase.eventProcessTimeoutLoop, if_neg hle, hnext]
                rw [show (s.eventDel K p).2.eventAddActive p wbaEvtTimeout = s.expire K p from rfl,
                  hloop, List.length_cons]
                push_cast
                rw [add_assoc, add_comm (1 : ℤ)]
              · rw [diff_concat hnew, List.append_assoc, List.singleton_append] at hwf
                simpa only [List.diff_cons] using hwf

/-- `event_process_timeout` at the clock reading `now`. -/
theorem WellFormed.eventProcessTimeout (h : WellFormed s active slot) {now : Timeval}
    (hnow : (s.eventTimeget K).1 = some now) :
    ∃ t, s.eventProcessTimeout K = (((s.due now).length : ℤ), t) ∧
      WellFormed t (active.diff (s.due now) ++ s.due now) (fun i => (slot i).diff (s.due now)) ∧
      Expired s t (s.due now) := by
  have hk := h.setKernel (K.clockGettime s.kernel).2
  obtain ⟨t, hloop, hwf, hexp⟩ := hk.eventProcessTimeoutLoop K now le_rfl 0
  refine ⟨t, ?_, hwf, ⟨hexp.heap, hexp.inorder, hexp.timedOut, hexp.other⟩⟩
  rw [zero_add, RbTree.length_inorder, ← RbTree.rbFirst_eq] at hloop
  unfold WbaEvtbase.eventProcessTimeout
  simp only [hnow]
  exact hloop

theorem Consistent.eventProcessTimeout (h : Consistent s active) :
    ∃ active', Consistent (s.eventProcessTimeout K).2 active' := by
  obtain ⟨slot, hwf⟩ := h
  cases hnow : (s.eventTimeget K).1 with
  | none =>
      have hres : (s.eventProcessTimeout K).2 = (s.eventTimeget K).2 := by
        simp [WbaEvtbase.eventProcessTimeout, hnow]
      rw [hres]
      exact ⟨active, slot, hwf.setKernel _⟩
  | some now =>
      obtain ⟨t, heq, hwf', -⟩ := hwf.eventProcessTimeout K hnow
      rw [heq]
      exact ⟨_, _, hwf'⟩

end WbaEvtbase

end Miscellany
