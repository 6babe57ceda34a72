import Mathlib.Data.Prod.Lex
import Mathlib.Order.Defs.LinearOrder

/-!
# Times of the event loop

`struct timeval` with the addition, subtraction and comparison of
`wba_evloop.c`. The comparison is the lexicographic order on seconds and
microseconds, whatever the microseconds are (`eventTimecmp_neg_iff`); on
normalised times, with `0 ≤ tv_usec < 10^6`, it is the order of the number of
microseconds and `event_timeadd` adds that number. The seconds are integers in place
of `time_t`: no sum of a clock reading and a timeout leaves 64 bits.
-/

namespace Miscellany

structure Timeval where
  tvSec : ℤ
  tvUsec : ℤ
deriving DecidableEq, Repr

structure Timespec where
  tvSec : ℤ
  tvNsec : ℤ
deriving DecidableEq, Repr

def eventTimeadd (a b : Timeval) : Timeval :=
  let sec := a.tvSec + b.tvSec
  let usec := a.tvUsec + b.tvUsec
  if usec ≥ 1000000 then ⟨sec + 1, usec - 1000000⟩ else ⟨sec, usec⟩

def eventTimesub (a b : Timeval) : Timeval :=
  let sec := a.tvSec - b.tvSec
  let usec := a.tvUsec - b.tvUsec
  if usec < 0 then ⟨sec - 1, usec + 1000000⟩ else ⟨sec, usec⟩

def eventTimecmp (a b : Timeval) : ℤ :=
  if a.tvSec ≠ b.tvSec then
    if a.tvSec > b.tvSec then 1 else -1
  else if a.tvUsec ≠ b.tvUsec then
    if a.tvUsec > b.tvUsec then 1 else -1
  else 0

namespace Timeval

/-- A time as an element of the lexicographic order that `event_timecmp` decides. -/
def key (t : Timeval) : ℤ ×ₗ ℤ := toLex (t.tvSec, t.tvUsec)

/-- The number of microseconds a time denotes. -/
def micros (t : Timeval) : ℤ := t.tvSec * 1000000 + t.tvUsec

/-- The microseconds are less than a second. -/
def Normalised (t : Timeval) : Prop := 0 ≤ t.tvUsec ∧ t.tvUsec < 1000000

instance (t : Timeval) : Decidable t.Normalised := inferInstanceAs (Decidable (_ ∧ _))

end Timeval

open Timeval

theorem eventTimecmp_neg_iff (a b : Timeval) : eventTimecmp a b < 0 ↔ a.key < b.key := by
  rw [key, key, Prod.Lex.toLex_lt_toLex]
  unfold eventTimecmp
  split_ifs <;> omega

theorem eventTimecmp_pos_iff (a b : Timeval) : 0 < eventTimecmp a b ↔ b.key < a.key := by
  rw [key, key, Prod.Lex.toLex_lt_toLex]
  unfold eventTimecmp
  split_ifs <;> omega

theorem eventTimecmp_eq_zero_iff (a b : Timeval) : eventTimecmp a b = 0 ↔ a.key = b.key := by
  have hneg := eventTimecmp_neg_iff a b
  have hpos := eventTimecmp_pos_iff a b
  constructor
  · intro hzero
    refine le_antisymm (not_lt.1 fun hlt => ?_) (not_lt.1 fun hlt => ?_)
    · exact absurd (hpos.2 hlt) (by omega)
    · exact absurd (hneg.2 hlt) (by omega)
  · intro heq
    have h1 : ¬ eventTimecmp a b < 0 := fun h => absurd (hneg.1 h) (by simp [heq])
    have h2 : ¬ 0 < eventTimecmp a b := fun h => absurd (hpos.1 h) (by simp [heq])
    omega

theorem key_lt_iff_micros {a b : Timeval} (ha : a.Normalised) (hb : b.Normalised) :
    a.key < b.key ↔ a.micros < b.micros := by
  rw [key, key, Prod.Lex.toLex_lt_toLex]
  unfold Normalised at ha hb
  simp only [micros]
  omega

theorem eventTimeadd_normalised {a b : Timeval} (ha : a.Normalised) (hb : b.Normalised) :
    (eventTimeadd a b).Normalised := by
  unfold Normalised at *
  simp only [eventTimeadd]
  split_ifs <;> simp only <;> omega

theorem micros_eventTimeadd (a b : Timeval) :
    (eventTimeadd a b).micros = a.micros + b.micros := by
  simp only [eventTimeadd, micros]
  split_ifs <;> simp only <;> omega

end Miscellany
