import Miscellany.EventLoop.Operations

/-!
# One iteration of the event loop

The parts of the body of `wba_event_loop`: waiting, the loop over the reports of
`epoll_wait`, `event_process_timeout` and `event_process_active`.

A callback is user code. What it does to the base is the sequence of calls it
makes, so a family of callbacks is a function that gives, for the arguments of a
callback and the base it is started in, the calls it performs (`Callbacks`).

`event_process_active` walks the active list with `list_for_each_entry_safe`
while the callbacks change that list. A `Pass` is the state of this loop: the
cursor `evt`, the saved `p`, and the callbacks invoked so far. The loop is
stepped explicitly (`Pass.step`), because it need not terminate; it has ended
when the cursor is the sentinel again. A cursor that is a null pointer, or the
address of an event that has been freed, is `none`: the source then reads memory
that is not its own, and the pass is stuck.
-/

namespace Miscellany

open ListHead

namespace WbaEvtbase

variable {κ : Type*} (K : Kernel κ)

/-! ### Waiting -/

/-- The time to wait when there is no timer, in milliseconds. -/
def evtDefWaitMs : ℤ := 60 * 1000

/-- `event_next_timeout`: the time until the first deadline, in milliseconds. The sum is
computed in 64 bits and stored in an `s32`. -/
def eventNextTimeout (s : WbaEvtbase κ) : ℤ × WbaEvtbase κ :=
  match s.evtTimeRoot.rbFirst with
  | none => (evtDefWaitMs, s)
  | some e =>
      let r := s.eventTimeget K
      match r.1 with
      | none => (evtDefWaitMs, r.2)
      | some now =>
          if eventTimecmp (s.evt e).evtTimeout now ≤ 0 then (0, r.2)
          else
            let tv := eventTimesub (s.evt e).evtTimeout now
            (Int.bmod (tv.tvSec * 1000 + tv.tvUsec.tdiv 1000 + 1) (2 ^ 32), r.2)

/-- The call of `epoll_wait` in `wba_event_loop`; `none` is the result -1. -/
def eventWait (s : WbaEvtbase κ) : Option (List EpollEvent) × WbaEvtbase κ :=
  let r := s.eventNextTimeout K
  let w := K.epollWait r.2.kernel r.2.nevts r.1
  (w.1, { r.2 with kernel := w.2 })

/-! ### Reports of `epoll_wait` -/

/-- The events that `wba_event_loop` derives from the bits of a report. -/
def translate (what : BitVec 32) : BitVec 16 :=
  if hasAny what (epollHup ||| epollErr) then wbaEvtRead ||| wbaEvtWrite
  else
    (if hasAny what epollIn then wbaEvtRead else 0) |||
      (if hasAny what epollOut then wbaEvtWrite else 0) |||
      (if hasAny what epollRdhup then wbaEvtClosed else 0)

/-- The loop of `wba_event_loop` over the reports. -/
def processReports : List EpollEvent → WbaEvtbase κ → Option (WbaEvtbase κ)
  | [], s => some s
  | r :: rs, s =>
      if translate r.events = 0 then processReports rs s
      else
        match s.eventMapActive r.fd (translate r.events) with
        | none => none
        | some s' => processReports rs s'

/-! ### Timeouts -/

/-- The loop of `event_process_timeout` from `node` on. A round moves on to the next node of
the tree, so there are at most as many rounds as the tree has nodes. -/
def eventProcessTimeoutLoop (now : Timeval) :
    ℕ → Option EvtId → ℤ → WbaEvtbase κ → ℤ × WbaEvtbase κ
  | _, none, cnt, s => (cnt, s)
  | 0, some _, cnt, s => (cnt, s)
  | fuel + 1, some p, cnt, s =>
      let node := s.evtTimeRoot.rbNext p
      if eventTimecmp (s.evt p).evtTimeout now > 0 then (cnt, s)
      else
        let s := (s.eventDel K p).2
        let s := s.eventAddActive p wbaEvtTimeout
        eventProcessTimeoutLoop now fuel node (cnt + 1) s

def eventProcessTimeout (s : WbaEvtbase κ) : ℤ × WbaEvtbase κ :=
  let r := s.eventTimeget K
  match r.1 with
  | none => (0, r.2)
  | some now =>
      eventProcessTimeoutLoop K now r.2.evtTimeRoot.size r.2.evtTimeRoot.rbFirst 0 r.2

/-! ### Callbacks -/

/-- A call of the interface, as a callback or the main program makes it. -/
inductive Call where
  | new (malloc : Option EvtId) (fd : ℤ) (events : BitVec 16) (fn : Option WbaEvtcbFn)
      (arg : CbArg)
  | add (e : EvtId) (tv : Option Timeval)
  | del (e : EvtId)
  | free (e : EvtId)
deriving DecidableEq

def runCall (s : WbaEvtbase κ) : Call → WbaEvtbase κ
  | .new malloc fd events fn arg => (s.wbaEventNew malloc fd events fn arg).2
  | .add e tv => (s.wbaEventAdd K e tv).2
  | .del e => (s.wbaEventDel K e).2
  | .free e => s.wbaEventFree K e

def runCalls (s : WbaEvtbase κ) (calls : List Call) : WbaEvtbase κ :=
  calls.foldl (fun s c => s.runCall K c) s

/-- The calls that a callback function, given its arguments, makes in a base. -/
abbrev Callbacks (κ : Type*) := WbaEvtcbFn → ℤ → BitVec 16 → CbArg → WbaEvtbase κ → List Call

/-- The deadline for which `event_process_active` schedules a persistent event again: one period
after the last one if there was a timeout, and never before `now`. -/
def nextDeadline (v : WbaEvt) (now : Timeval) : Timeval :=
  let last := if hasAny v.res wbaEvtTimeout then v.evtTimeout else now
  let next := eventTimeadd last v.timeout
  if eventTimecmp next now < 0 then eventTimeadd now v.timeout else next

/-- The part of the loop of `event_process_active` that schedules a persistent event again. -/
def eventReschedule (s : WbaEvtbase κ) (e : EvtId) : WbaEvtbase κ :=
  if (s.evt e).timeout.tvSec ≠ 0 ∨ (s.evt e).timeout.tvUsec ≠ 0 then
    let r := s.eventTimegetNow K
    (r.2.eventAdd K e (some (nextDeadline (r.2.evt e) r.1)) true).2
  else s

/-- The body of the loop of `event_process_active` up to the callback. -/
def eventProcessActiveBody (s : WbaEvtbase κ) (e : EvtId) : WbaEvtbase κ :=
  if s.hasEvent e wbaEvtPersist then (s.eventRemoveActive e).eventReschedule K e
  else (s.eventDel K e).2

/-- One invocation of a callback: the event, the arguments, the base in which it starts and
the calls it makes. -/
structure Invocation (κ : Type*) where
  evt : EvtId
  fd : ℤ
  events : BitVec 16
  arg : CbArg
  base : WbaEvtbase κ
  calls : List Call

/-- The callback of the event `e`, started in the base `s`. -/
def invocation (cbs : Callbacks κ) (s : WbaEvtbase κ) (e : EvtId) : Invocation κ :=
  let v := s.evt e
  { evt := e, fd := v.fd, events := v.res, arg := v.cb.arg, base := s,
    calls := cbs v.cb.fn v.fd v.res v.cb.arg s }

/-- `pos->member.next`, which is `none` when `pos` is no longer an event. -/
def readNext (s : WbaEvtbase κ) : Option (ListHead Unit EvtId) → Option (ListHead Unit EvtId)
  | none => none
  | some (head i) => s.evtActiveList.next (head i)
  | some (entry e) => if e ∈ s.heap then s.evtActiveList.next (entry e) else none

end WbaEvtbase

open WbaEvtbase

/-- The state of the loop of `event_process_active`. -/
structure Pass (κ : Type*) where
  base : WbaEvtbase κ
  evt : Option (ListHead Unit EvtId)
  p : Option (ListHead Unit EvtId)
  trace : List (Invocation κ)

namespace Pass

variable {κ : Type*} (K : Kernel κ) (cbs : Callbacks κ)

/-- The initialisation of `list_for_each_entry_safe`. -/
def start (s : WbaEvtbase κ) : Pass κ :=
  let evt := s.readNext (some (head ()))
  { base := s, evt := evt, p := s.readNext evt, trace := [] }

/-- One round of the loop. A pass that has ended or is stuck stays as it is. -/
def step (st : Pass κ) : Pass κ :=
  match st.evt with
  | some (entry e) =>
      if e ∈ st.base.heap then
        let s := st.base.eventProcessActiveBody K e
        let inv := s.invocation cbs e
        let s := s.runCalls K inv.calls
        { base := s, evt := st.p, p := s.readNext st.p, trace := st.trace ++ [inv] }
      else st
  | _ => st

/-- The pass after `n` rounds. -/
def steps : ℕ → Pass κ → Pass κ
  | 0, st => st
  | n + 1, st => steps n (step K cbs st)

/-- The cursor is back at the sentinel. -/
def Ended (st : Pass κ) : Prop := st.evt = some (head ())

instance (st : Pass κ) : Decidable st.Ended := inferInstanceAs (Decidable (_ = _))

end Pass

namespace WbaEvtbase

variable {κ : Type*} (K : Kernel κ) (cbs : Callbacks κ)

/-- `event_process_active`, run for at most `fuel` rounds: the return value, the base and the
callbacks invoked, or `none` when the loop has not ended. -/
def eventProcessActive (fuel : ℕ) (s : WbaEvtbase κ) :
    Option (ℕ × WbaEvtbase κ × List (Invocation κ)) :=
  let st := Pass.steps K cbs fuel (Pass.start s)
  if st.Ended then some (st.trace.length, st.base, st.trace) else none

/-- The body of the loop of `wba_event_loop` up to `event_process_active`; `none` when
`epoll_wait` fails. -/
def eventCollect (s : WbaEvtbase κ) : Option (WbaEvtbase κ) :=
  let w := s.eventWait K
  match w.1 with
  | none => none
  | some rs => (processReports rs w.2).map fun s => (s.eventProcessTimeout K).2

end WbaEvtbase

end Miscellany
