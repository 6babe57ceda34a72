import Miscellany.EventLoop.Run

/-!
# The return value of the loop

`wba_event_loop` returns the variable `res`. It is 1 at first, holds the number of reports
after each call of `epoll_wait`, and is set to 0 when `epoll_wait` fails. So a loop that
is left because the base is empty returns 0 as well if nothing was reported in the last
iteration, for example because the last event of the base was a timer.

The loop need not end, and neither need `event_process_active`; the model bounds the
iterations and the rounds of an iteration, and has a result if the bounds are enough.
-/

namespace Miscellany

namespace WbaEvtbase

variable {κ : Type*} {K : Kernel κ} {cbs : Callbacks κ} {s : WbaEvtbase κ}

/-- Why the loop is left. -/
inductive LoopExit where
  | emptyBase
  | epollError
deriving DecidableEq, Repr

/-- How a run of the loop ends: the return value, the reason, the results of all calls of
`epoll_wait`, where `none` is -1, and the base. -/
structure LoopResult (κ : Type*) where
  value : ℤ
  exit : LoopExit
  waits : List (Option (List EpollEvent))
  base : WbaEvtbase κ

/-- The loop of `wba_event_loop` with the variable `res`, for at most `fuel` iterations of at most
`rounds` rounds. -/
def eventLoop (K : Kernel κ) (cbs : Callbacks κ) (rounds : ℕ) :
    ℕ → ℤ → List (Option (List EpollEvent)) → WbaEvtbase κ → Option (LoopResult κ)
  | fuel, res, waits, s =>
      if s.isEmptyBase then some ⟨res, .emptyBase, waits, s⟩
      else
        match fuel with
        | 0 => none
        | fuel + 1 =>
            match (s.eventWait K).1 with
            | none => some ⟨0, .epollError, waits ++ [none], (s.eventWait K).2⟩
            | some rs =>
                (s.eventCollect K).bind fun s' =>
                  (s'.eventProcessActive K cbs rounds).bind fun r =>
                    eventLoop K cbs rounds fuel rs.length (waits ++ [some rs]) r.2.1

/-- `wba_event_loop`. -/
def wbaEventLoop (K : Kernel κ) (cbs : Callbacks κ) (rounds fuel : ℕ) (s : WbaEvtbase κ) :
    Option (LoopResult κ) :=
  eventLoop K cbs rounds fuel 1 [] s

/-- One evaluation of the head of the loop. -/
theorem eventLoop_cases {rounds fuel : ℕ} {res : ℤ} {waits : List (Option (List EpollEvent))}
    {r : LoopResult κ} (h : eventLoop K cbs rounds fuel res waits s = some r) :
    (s.isEmptyBase = true ∧ r = ⟨res, .emptyBase, waits, s⟩) ∨
    (s.isEmptyBase = false ∧ (s.eventWait K).1 = none ∧
      r = ⟨0, .epollError, waits ++ [none], (s.eventWait K).2⟩) ∨
    (∃ fuel' rs s' cnt t tr, fuel = fuel' + 1 ∧ s.isEmptyBase = false ∧
      (s.eventWait K).1 = some rs ∧ s.eventCollect K = some s' ∧
      s'.eventProcessActive K cbs rounds = some (cnt, t, tr) ∧
      eventLoop K cbs rounds fuel' rs.length (waits ++ [some rs]) t = some r) := by
  unfold eventLoop at h
  split_ifs at h with hempty
  · exact Or.inl ⟨hempty, (Option.some.inj h).symm⟩
  · rw [Bool.not_eq_true] at hempty
    cases fuel with
    | zero => exact absurd h (by simp)
    | succ fuel =>
        simp only at h
        split at h
        · rename_i hwait
          exact Or.inr (Or.inl ⟨hempty, hwait, (Option.some.inj h).symm⟩)
        · rename_i rs hwait
          obtain ⟨s', hcollect, h⟩ := Option.bind_eq_some_iff.1 h
          obtain ⟨⟨cnt, t, tr⟩, hrun, h⟩ := Option.bind_eq_some_iff.1 h
          exact Or.inr (Or.inr ⟨fuel, rs, s', cnt, t, tr, rfl, hempty, hwait, hcollect, hrun, h⟩)

/-- A loop that is left because the base is empty is a run to this evaluation of its head. -/
theorem LoopRun.of_eventLoop {rounds fuel : ℕ} {res : ℤ}
    {waits : List (Option (List EpollEvent))} {t : WbaEvtbase κ}
    {its : List (WbaEvtbase κ × List (Invocation κ))} {r : LoopResult κ}
    (hprev : LoopRun K cbs s res its t)
    (h : eventLoop K cbs rounds fuel res waits t = some r) (hexit : r.exit = .emptyBase) :
    r.base.isEmptyBase = true ∧ ∃ its, LoopRun K cbs s r.value its r.base := by
  induction fuel using Nat.strong_induction_on generalizing res waits t its with
  | _ fuel ih =>
      rcases eventLoop_cases h with ⟨hempty, rfl⟩ | ⟨-, -, rfl⟩ |
        ⟨fuel', rs, t', cnt, u, tr, rfl, hpending, hwait, hcollect, hrun, hrest⟩
      · exact ⟨hempty, its, hprev⟩
      · cases hexit
      · exact ih fuel' (Nat.lt_succ_self fuel') (hprev.iterate hpending hwait hcollect hrun) hrest

/-- The variable `res` is 0 at the head of the loop exactly when the last `epoll_wait` reported
nothing. This is carried to the end of the loop; a failed `epoll_wait` is always the last one. -/
theorem eventLoop_value {rounds fuel : ℕ} {res : ℤ} {waits : List (Option (List EpollEvent))}
    {r : LoopResult κ} (hres : res = 0 ↔ waits.getLast? = some (some []))
    (h : eventLoop K cbs rounds fuel res waits s = some r) :
    (r.exit = .emptyBase ∧ (r.value = 0 ↔ r.waits.getLast? = some (some []))) ∨
      (r.exit = .epollError ∧ r.value = 0 ∧ r.waits.getLast? = some none) := by
  induction fuel using Nat.strong_induction_on generalizing res waits s with
  | _ fuel ih =>
      rcases eventLoop_cases h with ⟨-, rfl⟩ | ⟨-, -, rfl⟩ |
        ⟨fuel', rs, _, _, _, _, rfl, -, -, -, -, hrest⟩
      · exact Or.inl ⟨rfl, hres⟩
      · exact Or.inr ⟨rfl, rfl, List.getLast?_concat⟩
      · apply ih fuel' (Nat.lt_succ_self fuel') _ hrest
        rw [List.getLast?_concat, Option.some_inj, Option.some_inj, Int.natCast_eq_zero,
          List.length_eq_zero_iff]

/-- The return value tells an error from completion. -/
def TellsError (r : LoopResult κ) : Prop :=
  (r.value = 0 ↔ r.exit = .epollError) ∧ (r.value ≠ 0 ↔ r.exit = .emptyBase)

/-- The return value of a loop that ends tells an error from completion exactly when the last
call of `epoll_wait`, if there was one, did not return 0. -/
theorem tellsError_iff {rounds fuel : ℕ} {r : LoopResult κ}
    (h : s.wbaEventLoop K cbs rounds fuel = some r) :
    TellsError r ↔ r.waits.getLast? ≠ some (some []) := by
  unfold TellsError
  rcases eventLoop_value (by simp) h with ⟨hexit, hvalue⟩ | ⟨hexit, hvalue, hlast⟩
  · rw [hexit, Ne, Ne, ← hvalue]
    simp
  · rw [hexit, hvalue, hlast]
    simp

/-- The only event is a timer that has expired. -/
def timerBase : WbaEvtbase SimState :=
  (newBase {}).runCalls simKernel [.new (some 0) (-1) 0 (some 1) .selfptr, .add 0 (some ⟨0, 0⟩)]

/-- The loop runs the timer and is left because the base is empty, but its return value is that of
an error. -/
theorem not_tellsError_timerBase :
    ∃ r, timerBase.wbaEventLoop simKernel quiet 1 1 = some r ∧ r.exit = .emptyBase ∧
      r.value = 0 ∧ ¬ TellsError r := by
  have hrun : (timerBase.wbaEventLoop simKernel quiet 1 1).map (fun r => (r.exit, r.value)) =
      some (.emptyBase, 0) := by decide +kernel
  obtain ⟨r, hr, hpair⟩ := Option.map_eq_some_iff.1 hrun
  obtain ⟨hexit, hvalue⟩ := Prod.mk.inj hpair
  refine ⟨r, hr, hexit, hvalue, ?_⟩
  intro htells
  have herror := htells.1.1 hvalue
  rw [hexit] at herror
  cases herror

/-- A reader that is reported once. -/
def reportedBase : WbaEvtbase SimState :=
  (newBase { reports := [[⟨epollIn, 7⟩]] }).runCalls simKernel
    [.new (some 0) 7 wbaEvtRead (some 1) .null, .add 0 none]

theorem tellsError_reportedBase :
    ∃ r, reportedBase.wbaEventLoop simKernel quiet 1 1 = some r ∧ r.value = 1 ∧ TellsError r := by
  have hrun : (reportedBase.wbaEventLoop simKernel quiet 1 1).map (fun r => (r.value, r.waits)) =
      some (1, [some [⟨epollIn, 7⟩]]) := by decide +kernel
  obtain ⟨r, hr, hpair⟩ := Option.map_eq_some_iff.1 hrun
  obtain ⟨hvalue, hwaits⟩ := Prod.mk.inj hpair
  refine ⟨r, hr, hvalue, (tellsError_iff hr).2 ?_⟩
  rw [hwaits]
  simp

end WbaEvtbase

end Miscellany
