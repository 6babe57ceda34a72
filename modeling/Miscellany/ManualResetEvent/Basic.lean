import Mathlib.Data.Bool.Basic
import Mathlib.Logic.Function.Basic

/-!
# The manual reset event

`set`, `reset` and the two `wait` of `ManualResetEvent`, called by any number of threads. What a
thread does while it holds `mtx_` is one step, and so is `notify_one`, which `set` calls after
the mutex is released. `cond_.wait` adds the thread to those parked on the condition variable and
releases the mutex, so that the test of `signaled_` and the parking are the same step.

`notify_one` wakes one of the parked threads, whichever it may be. A thread that is parked may
also wake up by itself, and one in `wait(int)` when its time has passed.
-/

namespace Miscellany

/-- Where a thread is. -/
inductive Pc where
  /-- Between two calls, with what the last one returned. -/
  | idle (returned : Option Bool)
  /-- In `set`, after the mutex is released and before `notify_one`. -/
  | notifying
  /-- Parked on `cond_` in `wait()`, or in `wait(int)` when `timed`. -/
  | parked (timed : Bool)
  /-- Woken up, and not yet in possession of the mutex. -/
  | woken (timed : Bool)
  /-- The time of `wait(int)` has passed, and the mutex is not yet locked again. -/
  | expired
deriving DecidableEq

/-- An event with the threads that use it. -/
structure ManualResetEvent (ι : Type*) where
  signaled : Bool
  pc : ι → Pc

namespace ManualResetEvent

/-- A step of a thread. -/
inductive Action (ι : Type*) where
  | set (i : ι)
  | notifyOne (i : ι)
  | reset (i : ι)
  | wait (i : ι) (timed : Bool)
  | wakeUp (i : ι)
  | recheck (i : ι)
  | timeout (i : ι)
  | expire (i : ι)

/-- The constructor. -/
def init (ι : Type*) (signaled : Bool) : ManualResetEvent ι where
  signaled := signaled
  pc := fun _ => .idle none

section Steps

variable {ι : Type*}

def Parked (s : ManualResetEvent ι) (i : ι) : Prop := ∃ timed, s.pc i = .parked timed

instance (s : ManualResetEvent ι) (i : ι) : Decidable (s.Parked i) :=
  inferInstanceAs (Decidable (∃ timed, s.pc i = .parked timed))

/-- The event is not signaled, or a `set` is about to notify, or nobody is parked. -/
def NoneParked (s : ManualResetEvent ι) : Prop :=
  s.signaled = true → (∀ i, s.pc i ≠ .notifying) → ∀ i, ¬ s.Parked i

/-- The last notification of a signaled event is sufficient: at most one thread is parked. -/
def NotifiesAll (s : ManualResetEvent ι) : Action ι → Prop
  | .notifyOne i => s.signaled = true → (∀ j, j ≠ i → s.pc j ≠ .notifying) →
      ∀ j k, s.Parked j → s.Parked k → j = k
  | _ => True

theorem NoneParked.of_not_signaled {s : ManualResetEvent ι} (h : s.signaled = false) :
    s.NoneParked := by
  intro hsignaled
  rw [h] at hsignaled
  exact absurd hsignaled (by decide)

theorem NoneParked.of_notifying {s : ManualResetEvent ι} {i : ι} (h : s.pc i = .notifying) :
    s.NoneParked := by
  intro _ hquiet
  exact absurd h (hquiet i)

theorem noneParked_init (signaled : Bool) : (init ι signaled).NoneParked := by
  rintro _ _ i ⟨timed, htimed⟩
  exact absurd htimed (by simp [init])

variable [DecidableEq ι]

def goto (s : ManualResetEvent ι) (i : ι) (p : Pc) : ManualResetEvent ι :=
  { s with pc := Function.update s.pc i p }

/-- The loop of `wait` while the mutex is held: the call returns, or the thread is parked. The
predicate of `timed_wait` is `is_signaled`, and `wait(int)` returns its value. -/
def await (s : ManualResetEvent ι) (i : ι) (timed : Bool) : ManualResetEvent ι :=
  if s.signaled then s.goto i (.idle (if timed then some true else none))
  else s.goto i (.parked timed)

inductive Step : ManualResetEvent ι → Action ι → ManualResetEvent ι → Prop where
  | set {s : ManualResetEvent ι} {i : ι} {r : Option Bool} (hi : s.pc i = .idle r) :
      Step s (.set i) ({ s with signaled := true }.goto i .notifying)
  | notifyNobody {s : ManualResetEvent ι} {i : ι} (hi : s.pc i = .notifying)
      (hnone : ∀ j, ¬ s.Parked j) :
      Step s (.notifyOne i) (s.goto i (.idle none))
  | notifyOne {s : ManualResetEvent ι} {i j : ι} {timed : Bool} (hi : s.pc i = .notifying)
      (hj : s.pc j = .parked timed) :
      Step s (.notifyOne i) ((s.goto j (.woken timed)).goto i (.idle none))
  | reset {s : ManualResetEvent ι} {i : ι} {r : Option Bool} (hi : s.pc i = .idle r) :
      Step s (.reset i) ({ s with signaled := false }.goto i (.idle none))
  | wait {s : ManualResetEvent ι} {i : ι} {r : Option Bool} (timed : Bool)
      (hi : s.pc i = .idle r) :
      Step s (.wait i timed) (s.await i timed)
  | wakeUp {s : ManualResetEvent ι} {i : ι} {timed : Bool} (hi : s.pc i = .parked timed) :
      Step s (.wakeUp i) (s.goto i (.woken timed))
  | recheck {s : ManualResetEvent ι} {i : ι} {timed : Bool} (hi : s.pc i = .woken timed) :
      Step s (.recheck i) (s.await i timed)
  | timeout {s : ManualResetEvent ι} {i : ι} (hi : s.pc i = .parked true) :
      Step s (.timeout i) (s.goto i .expired)
  -- `timed_wait` gives the value of its predicate after the time has passed
  | expire {s : ManualResetEvent ι} {i : ι} (hi : s.pc i = .expired) :
      Step s (.expire i) (s.goto i (.idle (some s.signaled)))

/-- The steps of a run with the states that they are made from. -/
inductive Run : ManualResetEvent ι → List (ManualResetEvent ι × Action ι) →
    ManualResetEvent ι → Prop where
  | nil (s : ManualResetEvent ι) : Run s [] s
  | cons {s s' t : ManualResetEvent ι} {a : Action ι}
      {steps : List (ManualResetEvent ι × Action ι)} (hstep : Step s a s')
      (hrun : Run s' steps t) :
      Run s ((s, a) :: steps) t

/-! ### Steps -/

@[simp]
theorem pc_goto_self (s : ManualResetEvent ι) (i : ι) (p : Pc) : (s.goto i p).pc i = p := by
  simp [goto]

@[simp]
theorem pc_goto_of_ne (s : ManualResetEvent ι) {i j : ι} (p : Pc) (hj : j ≠ i) :
    (s.goto i p).pc j = s.pc j := by
  simp [goto, hj]

theorem parked_goto_iff (s : ManualResetEvent ι) {i : ι} {p : Pc}
    (hp : ∀ timed, p ≠ .parked timed) (j : ι) :
    (s.goto i p).Parked j ↔ j ≠ i ∧ s.Parked j := by
  unfold Parked
  by_cases hj : j = i
  · subst hj
    simp [hp]
  · simp [hj]

/-- A thread that does not notify goes on, and does not park. -/
theorem NoneParked.goto {s : ManualResetEvent ι} (hs : s.NoneParked) {i : ι} {p : Pc}
    (hi : s.pc i ≠ .notifying) (hp : ∀ timed, p ≠ .parked timed) :
    (s.goto i p).NoneParked := by
  intro hsignaled hquiet j hparked
  obtain ⟨-, hj⟩ := (s.parked_goto_iff hp j).1 hparked
  refine hs hsignaled (fun k => ?_) j hj
  by_cases hk : k = i
  · rw [hk]
    exact hi
  · have hquietk := hquiet k
    rwa [pc_goto_of_ne s p hk] at hquietk

theorem NoneParked.await {s : ManualResetEvent ι} (hs : s.NoneParked) {i : ι} (timed : Bool)
    (hi : s.pc i ≠ .notifying) : (s.await i timed).NoneParked := by
  unfold ManualResetEvent.await
  by_cases hsignaled : s.signaled = true
  · rw [if_pos hsignaled]
    exact hs.goto hi (by simp)
  · rw [if_neg hsignaled]
    rw [Bool.not_eq_true] at hsignaled
    exact .of_not_signaled hsignaled

/-- After one of the parked threads is woken, the others are those that are still parked. -/
theorem noneParked_notifyOne_iff {s : ManualResetEvent ι} {i j : ι} {timed : Bool}
    (hi : s.pc i = .notifying) (hj : s.pc j = .parked timed) :
    ((s.goto j (.woken timed)).goto i (.idle none)).NoneParked ↔
      s.NotifiesAll (.notifyOne i) := by
  have hij : i ≠ j := by
    rintro rfl
    rw [hi] at hj
    exact absurd hj (by simp)
  have hpc : ∀ k, k ≠ i → (((s.goto j (.woken timed)).goto i (.idle none)).pc k = .notifying ↔
      s.pc k = .notifying) := by
    intro k hk
    rw [pc_goto_of_ne _ _ hk]
    by_cases hkj : k = j
    · subst hkj
      simp [hj]
    · rw [pc_goto_of_ne _ _ hkj]
  have hparked : ∀ k, ((s.goto j (.woken timed)).goto i (.idle none)).Parked k ↔
      k ≠ j ∧ s.Parked k := by
    intro k
    rw [parked_goto_iff _ (by simp), parked_goto_iff _ (by simp)]
    refine ⟨fun h => h.2, fun h => ⟨?_, h⟩⟩
    rintro rfl
    obtain ⟨t, ht⟩ := h.2
    rw [hi] at ht
    exact absurd ht (by simp)
  constructor
  · intro hnone hsignaled hquiet k l hk hl
    have heq : ∀ m, s.Parked m → m = j := by
      intro m hm
      by_contra hmj
      refine hnone hsignaled (fun n => ?_) m ((hparked m).2 ⟨hmj, hm⟩)
      by_cases hn : n = i
      · subst hn
        simp
      · rw [Ne, hpc n hn]
        exact hquiet n hn
    rw [heq k hk, heq l hl]
  · intro hall hsignaled hquiet k hk
    obtain ⟨hkj, hk⟩ := (hparked k).1 hk
    refine hkj (hall hsignaled (fun n hn => ?_) k j hk ⟨timed, hj⟩)
    rw [Ne, ← hpc n hn]
    exact hquiet n

/-- What one step does: only a notification can leave a thread behind. -/
theorem Step.noneParked_iff {s s' : ManualResetEvent ι} {a : Action ι} (hstep : Step s a s')
    (hs : s.NoneParked) : s'.NoneParked ↔ s.NotifiesAll a := by
  cases hstep with
  | set hi => exact iff_of_true (.of_notifying (pc_goto_self _ _ _)) trivial
  | notifyNobody hi hnone =>
    refine iff_of_true (fun _ _ j hj => ?_) (fun _ _ j k hj => absurd hj (hnone j))
    exact hnone j ((s.parked_goto_iff (by simp) j).1 hj).2
  | notifyOne hi hj => exact noneParked_notifyOne_iff hi hj
  | reset hi => exact iff_of_true (.of_not_signaled rfl) trivial
  | wait timed hi => exact iff_of_true (hs.await timed (by simp [hi])) trivial
  | wakeUp hi => exact iff_of_true (hs.goto (by simp [hi]) (by simp)) trivial
  | recheck hi => exact iff_of_true (hs.await _ (by simp [hi])) trivial
  | timeout hi => exact iff_of_true (hs.goto (by simp [hi]) (by simp)) trivial
  | expire hi => exact iff_of_true (hs.goto (by simp [hi]) (by simp)) trivial

/-! ### Runs -/

theorem Run.noneParked_head {s t : ManualResetEvent ι}
    {steps : List (ManualResetEvent ι × Action ι)} (hrun : Run s steps t)
    (hsteps : ∀ x ∈ steps, x.1.NoneParked) (ht : t.NoneParked) : s.NoneParked := by
  cases hrun with
  | nil => exact ht
  | cons hstep hrun => exact hsteps _ List.mem_cons_self

theorem Run.noneParked_iff {s t : ManualResetEvent ι}
    {steps : List (ManualResetEvent ι × Action ι)} (hrun : Run s steps t) (hs : s.NoneParked) :
    ((∀ x ∈ steps, x.1.NoneParked) ∧ t.NoneParked) ↔
      ∀ x ∈ steps, x.1.NotifiesAll x.2 := by
  induction hrun with
  | nil s => simp [hs]
  | @cons s s' t a steps hstep hrun ih =>
    simp only [List.forall_mem_cons, hs, true_and]
    constructor
    · rintro ⟨hsteps, ht⟩
      have hs' := hrun.noneParked_head hsteps ht
      exact ⟨(hstep.noneParked_iff hs).1 hs', (ih hs').1 ⟨hsteps, ht⟩⟩
    · rintro ⟨ha, hsteps⟩
      exact (ih ((hstep.noneParked_iff hs).2 ha)).2 hsteps

/-- No thread is parked on a signaled event, in any state of a run in which no `set` is between
its unlock and its notification, exactly when every notification of the run that is the last one
for a signaled event finds at most one parked thread. -/
theorem run_noneParked_iff {signaled : Bool} {t : ManualResetEvent ι}
    {steps : List (ManualResetEvent ι × Action ι)} (hrun : Run (init ι signaled) steps t) :
    ((∀ x ∈ steps, x.1.NoneParked) ∧ t.NoneParked) ↔
      ∀ x ∈ steps, x.1.NotifiesAll x.2 :=
  hrun.noneParked_iff (noneParked_init signaled)

/-- One thread waits, and another one sets the event. -/
theorem run_noneParked_of_one_waiter :
    ∃ steps t, Run (init (Fin 2) false) steps t ∧ steps.length = 3 ∧ t.signaled = true ∧
      (∀ x ∈ steps, x.1.NoneParked) ∧ t.NoneParked := by
  have hrun : Run (init (Fin 2) false) _ _ :=
    .cons (.wait (i := 0) false rfl) <| .cons (.set (i := 1) (r := none) rfl) <|
      .cons (.notifyOne (i := 1) (j := 0) rfl rfl) <| .nil _
  refine ⟨_, _, hrun, rfl, rfl, (run_noneParked_iff hrun).2 ?_⟩
  simp only [List.forall_mem_cons, NotifiesAll, true_and]
  refine ⟨?_, by simp⟩
  decide

/-- Two threads wait, and the event is set: one of them stays parked. -/
theorem not_noneParked_of_two_waiters :
    ∃ steps t, Run (init (Fin 3) false) steps t ∧ ¬ t.NoneParked := by
  have hrun : Run (init (Fin 3) false) _ _ :=
    .cons (.wait (i := 0) false rfl) <| .cons (.wait (i := 1) false rfl) <|
      .cons (.set (i := 2) (r := none) rfl) <|
        .cons (.notifyOne (i := 2) (j := 0) rfl rfl) <| .nil _
  refine ⟨_, _, hrun, fun hnone => hnone rfl ?_ 1 ⟨false, rfl⟩⟩
  decide

end Steps

end ManualResetEvent

end Miscellany
