import Miscellany.EventLoop.Reachable

/-!
# The time tree of a reachable base

In a reachable base the time tree is sorted by deadline, and by insertion among equal
deadlines. `event_process_timeout` therefore moves exactly the events that are due
from the tree to the end of the active list.
-/

namespace Miscellany

namespace WbaEvtbase

variable {κ : Type*} {K : Kernel κ} {s : WbaEvtbase κ}
variable {active : List EvtId} {slot : ℕ → List EvtId}

/-- The order that `event_timecmp` gives, refined by the order of insertion. -/
def FiresBefore (s : WbaEvtbase κ) (d e : EvtId) : Prop :=
  eventTimecmp (s.evt d).evtTimeout (s.evt e).evtTimeout < 0 ∨
    eventTimecmp (s.evt d).evtTimeout (s.evt e).evtTimeout = 0 ∧ s.stamp d < s.stamp e

theorem firesBefore_iff (s : WbaEvtbase κ) (d e : EvtId) : s.FiresBefore d e ↔ s.TimerLt d e := by
  rw [FiresBefore, TimerLt, eventTimecmp_neg_iff, eventTimecmp_eq_zero_iff]

/-- The events that stay in the tree are those that are not due. -/
theorem inorder_diff_due (h : TimerInv s) (now : Timeval) :
    s.evtTimeRoot.inorder.diff (s.due now) =
      s.evtTimeRoot.inorder.filter fun d => !s.isDue now d := by
  rw [h.nodup.sdiff_eq_filter]
  refine List.filter_congr fun d hd => ?_
  simp [due, hd]

theorem WellFormed.filterDue {t : WbaEvtbase κ} {now : Timeval} (hs : WellFormed s active slot)
    (ht : WellFormed t (active.diff (s.due now) ++ s.due now)
      (fun i => (slot i).diff (s.due now))) :
    WellFormed t (active.filter (· ∉ s.due now) ++ s.due now)
      (fun i => (slot i).filter (· ∉ s.due now)) := by
  rw [hs.active.ring.nodup.sdiff_eq_filter] at ht
  refine { ht with map := ht.map.congr_slot fun i hi => ?_ }
  exact (hs.map.ring i hi).nodup.sdiff_eq_filter

/-- The tree of a reachable base is sorted. At a clock reading `now`, `event_process_timeout`
moves the events that are due, and no others, to the end of the active list, with the result
`TIMEOUT`, neither registered nor in the tree or the map, and returns their number. -/
theorem eventProcessTimeout_exact {k : κ} (h : Reachable K k s) :
    s.evtTimeRoot.inorder.Pairwise s.FiresBefore ∧
    ∀ now, (s.eventTimeget K).1 = some now →
      ∃ t active slot, Represents s active slot ∧
        s.eventProcessTimeout K = (((s.due now).length : ℤ), t) ∧
        Represents t (active.filter (· ∉ s.due now) ++ s.due now)
          (fun i => (slot i).filter (· ∉ s.due now)) ∧
        t.evtTimeRoot.inorder = s.evtTimeRoot.inorder.filter (fun d => !s.isDue now d) ∧
        (∀ d ∈ s.due now, TimedOut (s.evt d) (t.evt d)) ∧
        ∀ d, d ∉ s.due now → t.evt d = s.evt d := by
  obtain ⟨active, slot, hwf⟩ := h.consistent
  constructor
  · exact hwf.timer.sorted.imp fun {d e} hlt => (s.firesBefore_iff d e).2 hlt
  · intro now hnow
    obtain ⟨t, heq, hwf', hexp⟩ := hwf.eventProcessTimeout K hnow
    refine ⟨t, active, slot, hwf.represents, heq, (hwf.filterDue hwf').represents, ?_,
      hexp.timedOut, hexp.other⟩
    rw [hexp.inorder, inorder_diff_due hwf.timer]

/-- Two timers with one deadline and a later one. -/
def timersBase : WbaEvtbase SimState :=
  (newBase {}).runCalls simKernel
    [.new (some 0) (-1) 0 (some 1) .null, .new (some 1) (-1) 0 (some 1) .null,
      .new (some 2) (-1) 0 (some 1) .null, .add 0 (some ⟨5, 0⟩), .add 1 (some ⟨0, 0⟩),
      .add 2 (some ⟨0, 0⟩)]

theorem eventProcessTimeout_timersBase :
    timersBase.due ⟨0, 0⟩ = [1, 2] ∧ ∃ t, timersBase.eventProcessTimeout simKernel = (2, t) := by
  have hdue : timersBase.due ⟨0, 0⟩ = [1, 2] := by decide +kernel
  have hreach : Reachable simKernel {} timersBase := reachable_newBase _ _ _
  obtain ⟨t, -, -, -, heq, -⟩ := (eventProcessTimeout_exact hreach).2 ⟨0, 0⟩ (by decide +kernel)
  rw [hdue] at heq
  exact ⟨hdue, t, heq⟩

end WbaEvtbase

end Miscellany
