import Mathlib.Tactic.Linarith
import Mathlib.Tactic.Ring

/-!
# Periodic schedules that catch up

A periodic task with the period `p` runs at or after its deadline. The next deadline is
one period after the last one, unless that is already past when the task runs; then it
is one period after the time of the run (`catchUp`). A schedule is the list of the runs,
each with the time it happens at and the deadline it sets.

No run is early, deadlines are at least one period apart, and a deadline is the nominal
one exactly if every run so far happened before the nominal deadline of the next.
-/

namespace Miscellany

/-- The deadline that a run at the time `r` sets when its own deadline was `d`. -/
def catchUp (p d r : ℤ) : ℤ := if d + p < r then r + p else d + p

/-- A list of runs, with the times and the deadlines they set, that starts with the deadline
`d`. -/
inductive Schedule (p : ℤ) : ℤ → List (ℤ × ℤ) → Prop where
  | nil (d : ℤ) : Schedule p d []
  | cons {d r : ℤ} {runs : List (ℤ × ℤ)} (hdue : d ≤ r)
      (hrest : Schedule p (catchUp p d r) runs) : Schedule p d ((r, catchUp p d r) :: runs)

variable {p d r c : ℤ} {runs : List (ℤ × ℤ)} {i : ℕ}

theorem add_le_catchUp (hp : 0 ≤ p) (d r : ℤ) : d + p ≤ catchUp p d r := by
  unfold catchUp
  split_ifs <;> omega

theorem catchUp_eq_iff (hp : 0 ≤ p) (d r : ℤ) : catchUp p d r = d + p ↔ r ≤ d + p := by
  unfold catchUp
  split_ifs <;> omega

/-- Consecutive deadlines are at least one period apart. -/
theorem Schedule.consecutive (h : Schedule p d runs) (hp : 0 ≤ p) (hrun : runs[i]? = some (r, c))
    {b : ℤ} (hb : (d :: runs.map Prod.snd)[i]? = some b) : b ≤ r ∧ b + p ≤ c := by
  induction h generalizing i with
  | nil d => simp at hrun
  | @cons d r' runs hdue hrest ih =>
      cases i with
      | zero =>
          obtain ⟨rfl, rfl⟩ : r' = r ∧ catchUp p d r' = c := by simpa using hrun
          obtain rfl : d = b := by simpa using hb
          exact ⟨hdue, add_le_catchUp hp d r'⟩
      | succ i => exact ih (by simpa using hrun) (by simpa using hb)

/-- A run is not before its nominal deadline, and neither is the deadline it sets. -/
theorem Schedule.nominal_le (h : Schedule p d runs) (hp : 0 ≤ p) (hrun : runs[i]? = some (r, c)) :
    d + i * p ≤ r ∧ d + (i + 1) * p ≤ c := by
  induction h generalizing i with
  | nil d => simp at hrun
  | @cons d r' runs hdue hrest ih =>
      have hle := add_le_catchUp hp d r'
      cases i with
      | zero =>
          obtain ⟨rfl, rfl⟩ : r' = r ∧ catchUp p d r' = c := by simpa using hrun
          constructor
          · simpa using hdue
          · simpa using hle
      | succ i =>
          obtain ⟨hr, hc⟩ := ih (by simpa using hrun)
          push_cast
          constructor
          · linarith
          · linarith

/-- The deadline that a run sets is the nominal one exactly if no run up to it was late. -/
theorem Schedule.nominal_iff (h : Schedule p d runs) (hp : 0 ≤ p)
    (hrun : runs[i]? = some (r, c)) :
    c = d + (i + 1) * p ↔ ∀ j ≤ i, ∀ run, runs[j]? = some run → run.1 ≤ d + (j + 1) * p := by
  induction h generalizing i with
  | nil d => simp at hrun
  | @cons d r' runs hdue hrest ih =>
      have hle := add_le_catchUp hp d r'
      have heq := catchUp_eq_iff hp d r'
      cases i with
      | zero =>
          obtain ⟨rfl, rfl⟩ : r' = r ∧ catchUp p d r' = c := by simpa using hrun
          simpa using heq
      | succ i =>
          have hrun' : runs[i]? = some (r, c) := by simpa using hrun
          have hih := ih hrun'
          have hlater := (hrest.nominal_le hp hrun').2
          constructor
          -- A late first run would push this deadline past the nominal one.
          · intro hc j hj run hj'
            push_cast at hc
            have hfirst : catchUp p d r' = d + p := by linarith
            cases j with
            | zero =>
                obtain rfl : (r', catchUp p d r') = run := by simpa using hj'
                simpa using heq.1 hfirst
            | succ j =>
                have hc' : c = catchUp p d r' + (i + 1) * p := by rw [hfirst]; linarith
                have hle' := hih.1 hc' j (by omega) run (by simpa using hj')
                rw [hfirst] at hle'
                push_cast
                linarith
          · intro hall
            have hfirst : catchUp p d r' = d + p := by
              rw [heq]
              simpa using hall 0 (by omega) (r', catchUp p d r') (by simp)
            have hc := hih.2 fun j hj run hj' => by
              have hle' := hall (j + 1) (by omega) run (by simpa using hj')
              push_cast at hle'
              rw [hfirst]
              linarith
            rw [hc, hfirst]
            push_cast
            ring

end Miscellany
