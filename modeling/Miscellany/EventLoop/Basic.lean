import Miscellany.EventLoop.RbTree
import Miscellany.EventLoop.Time
import Miscellany.Library.BitMask
import Miscellany.Library.IntrusiveList

/-!
# The data of the event loop

An event is named by its address. The memory is a total map from addresses to
events, with the list of addresses that `malloc` has handed out and `free` has
not taken back; an address outside that list plays the part of a null pointer.
The links of the two intrusive lists of an event, `evt_active_next` and
`evt_next`, are kept beside the base in one value of `Links` each: the active
list has the sentinel `head ()` and the slot `i` of the event map the sentinel
`head i`. There is one base, so the `base` pointer of an event is left out.

The operating system is a parameter. A `Kernel` answers `epoll_ctl`,
`epoll_wait` and `clock_gettime` from a state of its own, which is part of the
base; quantifying over it gives every outcome of every call. `stack` is what an
uninitialised `struct timeval` holds.

The counters `used`, `event_count` and `event_count_active` are integers in place of
`u32`, so that a counter that went below zero would show; with fewer than `2 ^ 31`
events none of them leaves the range of `u32` (`run_counters`).

The order in which events entered the time tree is recorded in `stamp`, which
no operation reads.
-/

namespace Miscellany

/-! ### Constants -/

def wbaEvtRead : BitVec 16 := 0x01
def wbaEvtWrite : BitVec 16 := 0x02
def wbaEvtTimeout : BitVec 16 := 0x04
def wbaEvtClosed : BitVec 16 := 0x08
def wbaEvtPersist : BitVec 16 := 0x10

def wbaEvtlistInit : BitVec 16 := 0x01
def wbaEvtlistReg : BitVec 16 := 0x02
def wbaEvtlistActive : BitVec 16 := 0x04
/-- The event is in the time tree. -/
def wbaEvtlistTimeout : BitVec 16 := 0x08

def epollIn : BitVec 32 := 0x001
def epollOut : BitVec 32 := 0x004
def epollErr : BitVec 32 := 0x008
def epollHup : BitVec 32 := 0x010
def epollRdhup : BitVec 32 := 0x2000

def evtNumEvents : ℕ := 32
def evtMapSize : ℕ := 32

/-! ### Events and the base -/

/-- The address of a `wba_evt_t`. -/
abbrev EvtId := ℕ

/-- The name of a callback function. -/
abbrev WbaEvtcbFn := ℕ

/-- A `void *` argument of a callback; `selfptr` is the address that
`wba_event_selfptr` returns. -/
inductive CbArg where
  | null
  | selfptr
  | evt (e : EvtId)
  | other (n : ℕ)
deriving DecidableEq, Repr

structure WbaEvtcb where
  fn : WbaEvtcbFn
  arg : CbArg
deriving DecidableEq, Repr

structure WbaEvt where
  cb : WbaEvtcb
  fd : ℤ
  flags : BitVec 16
  events : BitVec 16
  res : BitVec 16
  /-- The timeout set by the user. -/
  timeout : Timeval
  /-- The timeout used for comparison. -/
  evtTimeout : Timeval
deriving DecidableEq, Repr

/-- What `epoll_wait` reports: `events` and `data.fd`. -/
structure EpollEvent where
  events : BitVec 32
  fd : ℤ
deriving DecidableEq, Repr

/-- The operating system, as a state machine with states `κ`. The first component of an
answer says whether the call succeeded. -/
structure Kernel (κ : Type*) where
  epollCtlAdd : κ → ℤ → BitVec 32 → Bool × κ
  epollCtlDel : κ → ℤ → Bool × κ
  epollWait : κ → ℕ → ℤ → Option (List EpollEvent) × κ
  clockGettime : κ → Option Timespec × κ
  stack : κ → Timeval

structure WbaEvtbase (κ : Type*) where
  evt : EvtId → WbaEvt
  heap : List EvtId
  /-- The slots of the event map and the `evt_next` of the events. -/
  evtList : Links ℕ EvtId
  size : ℕ
  sizemask : ℕ
  used : ℤ
  nevts : ℕ
  evtTimeRoot : RbTree EvtId
  /-- The active list and the `evt_active_next` of the events. -/
  evtActiveList : Links Unit EvtId
  eventCount : ℤ
  eventCountActive : ℤ
  stamp : EvtId → ℕ
  stamps : ℕ
  kernel : κ

namespace WbaEvtbase

variable {κ : Type*}

/-- Writing to the event at an address. -/
def modifyEvt (s : WbaEvtbase κ) (e : EvtId) (f : WbaEvt → WbaEvt) : WbaEvtbase κ :=
  { s with evt := Function.update s.evt e (f (s.evt e)) }

/-- `evt->flags |= m`. -/
def setFlags (s : WbaEvtbase κ) (e : EvtId) (m : BitVec 16) : WbaEvtbase κ :=
  s.modifyEvt e fun v => { v with flags := v.flags ||| m }

/-- `evt->flags &= ~m`. -/
def clearFlags (s : WbaEvtbase κ) (e : EvtId) (m : BitVec 16) : WbaEvtbase κ :=
  s.modifyEvt e fun v => { v with flags := v.flags &&& ~~~m }

/-- The test `evt->flags & m`. -/
def hasFlag (s : WbaEvtbase κ) (e : EvtId) (m : BitVec 16) : Bool := hasAny (s.evt e).flags m

/-- The test `evt->events & m`. -/
def hasEvent (s : WbaEvtbase κ) (e : EvtId) (m : BitVec 16) : Bool := hasAny (s.evt e).events m

@[simp] theorem modifyEvt_evt_self (s : WbaEvtbase κ) (e : EvtId) (f : WbaEvt → WbaEvt) :
    (s.modifyEvt e f).evt e = f (s.evt e) := by
  simp [modifyEvt]

theorem modifyEvt_evt_of_ne (s : WbaEvtbase κ) {e d : EvtId} (f : WbaEvt → WbaEvt) (h : d ≠ e) :
    (s.modifyEvt e f).evt d = s.evt d := by
  simp [modifyEvt, Function.update_of_ne h]

end WbaEvtbase

end Miscellany
