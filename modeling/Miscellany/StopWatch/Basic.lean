import Mathlib.Data.List.Infix
import Miscellany.Library.Rounding

/-!
# The stop watch

The classes `stime_duration`, `stime` and `stop_watch`. A `long` has 64 bits. The instants of the
local clock are given in milliseconds from the beginning of some day on, so that the time of day
is what is left when whole days are taken off.
-/

namespace Miscellany

/-- The value of a `long`. -/
def wrapLong (n : ℤ) : ℤ := Int.bmod n (2 ^ 64)

structure StimeDuration where
  milliseconds : ℤ
deriving DecidableEq

namespace StimeDuration

/-- The constructor from hours, minutes, seconds and milliseconds, which are added up as `int`. -/
def ofTime (h m s ms : ℤ) : StimeDuration :=
  ⟨Int.bmod (((h * 60 + m) * 60 + s) * 1000 + ms) (2 ^ 32)⟩

/-- The double that is nearest. -/
def totalMilliseconds (d : StimeDuration) : ℤ := roundInt 53 d.milliseconds

/-- `operator+=`. -/
def add (d st : StimeDuration) : StimeDuration := ⟨wrapLong (d.milliseconds + st.milliseconds)⟩

/-- `operator-`. -/
def sub (d st : StimeDuration) : StimeDuration := ⟨wrapLong (d.milliseconds - st.milliseconds)⟩

end StimeDuration

structure Stime where
  hour : ℤ
  minute : ℤ
  second : ℤ
  millisecond : ℤ
deriving DecidableEq

namespace Stime

/-- The default constructor. -/
def new : Stime := ⟨0, 0, 0, 0⟩

/-- `cur_time` at an instant of the local clock. -/
def curTime (now : ℤ) : Stime where
  hour := now / 3600000 % 24
  minute := now / 60000 % 60
  second := now / 1000 % 60
  millisecond := now % 1000

def timeOfDay (t : Stime) : StimeDuration :=
  StimeDuration.ofTime t.hour t.minute t.second t.millisecond

/-- `operator-`. -/
def sub (t st : Stime) : StimeDuration := t.timeOfDay.sub st.timeOfDay

end Stime

structure StopWatch where
  running : Bool
  duration : StimeDuration
  timePoint : Stime
deriving DecidableEq

namespace StopWatch

/-- The constructor. -/
def new : StopWatch := ⟨false, ⟨0⟩, Stime.new⟩

def isRunning (w : StopWatch) : Bool := w.running

def reset (w : StopWatch) : StopWatch := { w with duration := ⟨0⟩, running := false }

def restart (now : ℤ) : StopWatch := ⟨true, ⟨0⟩, Stime.curTime now⟩

def start (w : StopWatch) (now : ℤ) : StopWatch :=
  if !w.running then { w with timePoint := Stime.curTime now, running := true } else w

def stop (w : StopWatch) (now : ℤ) : StopWatch :=
  if w.running then
    { w with duration := w.duration.add ((Stime.curTime now).sub w.timePoint), running := false }
  else w

/-- The double is converted to `long`. -/
def elapsed (w : StopWatch) : ℤ := wrapLong w.duration.totalMilliseconds

/-! ### Calls -/

inductive Call
  | start
  | stop
  | restart
  | reset
deriving DecidableEq

/-- A call at an instant. -/
def step (w : StopWatch) : Call × ℤ → StopWatch
  | (.start, now) => w.start now
  | (.stop, now) => w.stop now
  | (.restart, now) => restart now
  | (.reset, _) => w.reset

/-- The watch after the calls. -/
def run (calls : List (Call × ℤ)) : StopWatch := calls.foldl step new

end StopWatch

/-! ### Intervals -/

/-- The begin of the interval that has not ended, and the begins and ends of the intervals that have
ended since the last reset or restart. -/
structure Intervals where
  since : Option ℤ
  ended : List (ℤ × ℤ)

namespace Intervals

open StopWatch (Call)

def none : Intervals := ⟨.none, []⟩

def step (r : Intervals) : Call × ℤ → Intervals
  | (.start, now) => { r with since := some (r.since.getD now) }
  | (.stop, now) => ⟨.none, (r.since.map fun t => (t, now)).toList ++ r.ended⟩
  | (.restart, now) => ⟨some now, []⟩
  | (.reset, _) => none

/-- The intervals that the calls make. -/
def ofCalls (calls : List (Call × ℤ)) : Intervals := calls.foldl step none

/-- The sum of the lengths. -/
def total (r : Intervals) : ℤ := (r.ended.map fun x => x.2 - x.1).sum

end Intervals

end Miscellany
