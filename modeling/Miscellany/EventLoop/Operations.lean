import Miscellany.EventLoop.Basic

/-!
# The operations of the event loop

The functions of `wba_evloop.c`, in the order of the source: the kernel calls,
the three containers (active list, event map, time tree), then creating, adding,
deleting and freeing events. Each takes the base and returns it changed. The
debug output is left out.

The guard `!evt` of `event_add` and `event_del` is the test that the address
holds an event. `wbaEventNew` takes the answer of `malloc`, any address that is
not in use or `none`.
-/

namespace Miscellany

open ListHead

namespace WbaEvtbase

variable {κ : Type*} (K : Kernel κ)

/-! ### Kernel calls -/

/-- The mask that `event_register` builds for `epoll_ctl`. -/
def epollMask (events : BitVec 16) : BitVec 32 :=
  (if hasAny events wbaEvtRead then epollIn else 0) |||
    (if hasAny events wbaEvtWrite then epollOut else 0) |||
    (if hasAny events wbaEvtClosed then epollRdhup else 0)

def eventRegister (s : WbaEvtbase κ) (e : EvtId) : Bool × WbaEvtbase κ :=
  let r := K.epollCtlAdd s.kernel (s.evt e).fd (epollMask (s.evt e).events)
  (r.1, { s with kernel := r.2 })

def eventUnregister (s : WbaEvtbase κ) (e : EvtId) : Bool × WbaEvtbase κ :=
  let r := K.epollCtlDel s.kernel (s.evt e).fd
  (r.1, { s with kernel := r.2 })

/-- `event_timeget`; `none` is the return value 0, which leaves `tv` as it was. -/
def eventTimeget (s : WbaEvtbase κ) : Option Timeval × WbaEvtbase κ :=
  let r := K.clockGettime s.kernel
  (r.1.map fun ts => ⟨ts.tvSec, ts.tvNsec.tdiv 1000⟩, { s with kernel := r.2 })

/-- The contents of a fresh `struct timeval now` after `event_timeget(&now)`, whose result
the caller ignores. -/
def eventTimegetNow (s : WbaEvtbase κ) : Timeval × WbaEvtbase κ :=
  let r := s.eventTimeget K
  (r.1.getD (K.stack s.kernel), r.2)

/-! ### The active list -/

def eventAddActive (s : WbaEvtbase κ) (e : EvtId) (res : BitVec 16) : WbaEvtbase κ :=
  if s.hasFlag e wbaEvtlistActive then s
  else
    let s := s.modifyEvt e fun v => { v with res := res }
    let s := { s with evtActiveList := s.evtActiveList.listAddTail (entry e) (head ()) }
    let s := s.setFlags e wbaEvtlistActive
    { s with eventCountActive := s.eventCountActive + 1 }

def eventRemoveActive (s : WbaEvtbase κ) (e : EvtId) : WbaEvtbase κ :=
  if s.hasFlag e wbaEvtlistActive then
    let s := { s with evtActiveList := s.evtActiveList.listDelInit (entry e) }
    let s := s.clearFlags e wbaEvtlistActive
    { s with eventCountActive := s.eventCountActive - 1 }
  else s

/-! ### The event map -/

def eventMapGetSlot (s : WbaEvtbase κ) (fd : ℤ) : Option ℕ :=
  if fd < 0 then none else some (fd.toNat &&& s.sizemask)

/-- The events that `epoll` is asked for. -/
def wbaEvtIo : BitVec 16 := wbaEvtRead ||| wbaEvtWrite ||| wbaEvtClosed

/-- The part of `event_map_add` behind a successful registration. -/
def eventMapLink (s : WbaEvtbase κ) (e : EvtId) : WbaEvtbase κ :=
  match s.eventMapGetSlot (s.evt e).fd with
  | none => s
  | some i =>
      { s with
        evtList := s.evtList.listAddTail (entry e) (head i)
        used := s.used + 1
        eventCount := s.eventCount + 1 }

/-- `event_map_add`: 0 for nothing changed, -1 for failure, 1 for success. -/
def eventMapAdd (s : WbaEvtbase κ) (e : EvtId) : ℤ × WbaEvtbase κ :=
  if (s.evt e).fd < 0 then (0, s)
  else if s.hasEvent e wbaEvtIo then
    let r := s.eventRegister K e
    if r.1 then (1, r.2.eventMapLink e) else (-1, r.2)
  else (0, s)

/-- The part of `event_map_remove` behind the deregistration. -/
def eventMapUnlink (s : WbaEvtbase κ) (e : EvtId) : WbaEvtbase κ :=
  { s with
    evtList := s.evtList.listDelInit (entry e)
    used := s.used - 1
    eventCount := s.eventCount - 1 }

/-- `event_map_remove`: a failed deregistration is reported and otherwise ignored. -/
def eventMapRemove (s : WbaEvtbase κ) (e : EvtId) : ℤ × WbaEvtbase κ :=
  if (s.evt e).fd < 0 then (0, s)
  else if s.hasEvent e wbaEvtIo then
    let r := s.eventUnregister K e
    (if r.1 then 1 else -1, r.2.eventMapUnlink e)
  else (0, s)

/-- The loop of `event_map_active` from the entry `pos` of a slot on. The body leaves the
links of the map alone, so a walk over more entries than there are events runs for ever;
`fuel` bounds it and `none` stands for that, and for a null link. -/
def eventMapActiveLoop (events : BitVec 16) :
    ℕ → Option (ListHead ℕ EvtId) → WbaEvtbase κ → Option (WbaEvtbase κ)
  | _, none, _ => none
  | _, some (head _), s => some s
  | 0, some (entry _), _ => none
  | fuel + 1, some (entry e), s =>
      let s' := if s.hasEvent e events then s.eventAddActive e ((s.evt e).events &&& events) else s
      eventMapActiveLoop events fuel (s'.evtList.next (entry e)) s'

def eventMapActive (s : WbaEvtbase κ) (fd : ℤ) (events : BitVec 16) : Option (WbaEvtbase κ) :=
  match s.eventMapGetSlot fd with
  | none => some s
  | some i => eventMapActiveLoop events s.heap.length (s.evtList.next (head i)) s

/-! ### The time tree -/

/-- The descent of `event_add_timeout`: the path of the free place for a node that compares
with the nodes of the tree as `less` says. -/
def timeoutLink (less : EvtId → Bool) : RbTree EvtId → RbPath EvtId → RbPath EvtId
  | .nil, p => p
  | .node c l x r, p =>
      if less x then timeoutLink less l (.left c x r :: p)
      else timeoutLink less r (.right c l x :: p)

def eventAddTimeout (s : WbaEvtbase κ) (e : EvtId) : WbaEvtbase κ :=
  if s.hasFlag e wbaEvtlistTimeout then s
  else
    let less := fun d => decide (eventTimecmp (s.evt e).evtTimeout (s.evt d).evtTimeout < 0)
    let p := timeoutLink less s.evtTimeRoot []
    let s := { s with
      evtTimeRoot := RbTree.rbInsertColor (.node .red .nil e .nil) p
      stamp := Function.update s.stamp e s.stamps
      stamps := s.stamps + 1 }
    let s := s.setFlags e wbaEvtlistTimeout
    { s with eventCount := s.eventCount + 1 }

def eventRemoveTimeout (s : WbaEvtbase κ) (e : EvtId) : WbaEvtbase κ :=
  if s.hasFlag e wbaEvtlistTimeout then
    let s := { s with evtTimeRoot := s.evtTimeRoot.rbErase e }
    let s := s.clearFlags e wbaEvtlistTimeout
    { s with eventCount := s.eventCount - 1 }
  else s

/-! ### Creating a base and events -/

/-- The event that `memset` leaves. -/
def zeroEvt : WbaEvt :=
  { cb := ⟨0, .null⟩, fd := 0, flags := 0, events := 0, res := 0, timeout := ⟨0, 0⟩,
    evtTimeout := ⟨0, 0⟩ }

/-- `INIT_LIST_HEAD` on the slots below `n`. -/
def initSlots : ℕ → Links ℕ EvtId → Links ℕ EvtId
  | 0, L => L
  | n + 1, L => (initSlots n L).initListHead (head n)

/-- `wba_evtbase_new`, given the result of `epoll_create` and whether the three calls of
`malloc` succeed. -/
def wbaEvtbaseNew (k : κ) (epfd : ℤ) (mallocBase mallocEvents mallocList : Bool) :
    Option (WbaEvtbase κ) :=
  if epfd = -1 then none
  else if !mallocBase then none
  else if !mallocEvents then none
  else if !mallocList then none
  else some
    { evt := fun _ => zeroEvt
      heap := []
      evtList := initSlots evtMapSize ⟨fun _ => none, fun _ => none⟩
      size := evtMapSize
      sizemask := evtMapSize - 1
      used := 0
      nevts := evtNumEvents
      evtTimeRoot := .nil
      evtActiveList := Links.initListHead ⟨fun _ => none, fun _ => none⟩ (head ())
      eventCount := 0
      eventCountActive := 0
      stamp := fun _ => 0
      stamps := 0
      kernel := k }

/-- The event that `wba_event_new` sets up at the address `e`. -/
def freshEvt (e : EvtId) (fd : ℤ) (events : BitVec 16) (fn : WbaEvtcbFn) (arg : CbArg) : WbaEvt :=
  { zeroEvt with
    fd := if fd < 0 then -1 else fd
    cb := ⟨fn, if arg = .selfptr then .evt e else arg⟩
    events := events
    flags := wbaEvtlistInit }

/-- The base after `malloc` has handed out the address `e` and the event `v` has been written
to it. The links of the event are zeroed with the rest. -/
def placeEvt (s : WbaEvtbase κ) (e : EvtId) (v : WbaEvt) : WbaEvtbase κ :=
  { s with
    evt := Function.update s.evt e v
    heap := e :: s.heap
    evtList := s.evtList.clear (entry e)
    evtActiveList := s.evtActiveList.clear (entry e) }

def wbaEventNew (s : WbaEvtbase κ) (malloc : Option EvtId) (fd : ℤ) (events : BitVec 16)
    (fn : Option WbaEvtcbFn) (arg : CbArg) : Option EvtId × WbaEvtbase κ :=
  match fn, malloc with
  | some fn, some e =>
      if e ∈ s.heap then (none, s) else (some e, s.placeEvt e (freshEvt e fd events fn arg))
  | _, _ => (none, s)

/-! ### Adding, deleting and freeing events -/

/-- The part of `event_add` that registers the event. -/
def eventAddReg (s : WbaEvtbase κ) (e : EvtId) : ℤ × WbaEvtbase κ :=
  let r := if s.hasFlag e wbaEvtlistReg then (0, s) else s.eventMapAdd K e
  if r.1 ≠ -1 then (r.1, r.2.setFlags e wbaEvtlistReg) else r

/-- The part of `event_add` that computes `evt->evt_timeout`. -/
def eventSetTimeout (s : WbaEvtbase κ) (e : EvtId) (tv : Timeval) (tvIsAbsolute : Bool) :
    WbaEvtbase κ :=
  if tvIsAbsolute then s.modifyEvt e fun v => { v with evtTimeout := tv }
  else
    let s := if s.hasEvent e wbaEvtPersist then s.modifyEvt e fun v => { v with timeout := tv }
      else s
    let now := s.eventTimegetNow K
    now.2.modifyEvt e fun v => { v with evtTimeout := eventTimeadd now.1 tv }

def eventAdd (s : WbaEvtbase κ) (e : EvtId) (tv : Option Timeval) (tvIsAbsolute : Bool) :
    ℤ × WbaEvtbase κ :=
  if e ∉ s.heap then (0, s)
  else if s.hasFlag e wbaEvtlistReg && tv.isNone then (1, s)
  else
    let r := s.eventAddReg K e
    match tv with
    | some tv =>
        if r.1 ≠ -1 then
          let s := if r.2.hasFlag e wbaEvtlistTimeout then r.2.eventRemoveTimeout e else r.2
          (1, (s.eventSetTimeout K e tv tvIsAbsolute).eventAddTimeout e)
        else (0, r.2)
    | none => (if r.1 > 0 then r.1 else 0, r.2)

def wbaEventAdd (s : WbaEvtbase κ) (e : EvtId) (tv : Option Timeval) : ℤ × WbaEvtbase κ :=
  match tv with
  | some t => if t.tvSec < 0 ∨ t.tvUsec < 0 then (0, s) else s.eventAdd K e tv false
  | none => s.eventAdd K e tv false

/-- The part of `event_del` that takes the event out of the map. -/
def eventDelReg (s : WbaEvtbase κ) (e : EvtId) : ℤ × WbaEvtbase κ :=
  if s.hasFlag e wbaEvtlistReg then
    let r := s.eventMapRemove K e
    (r.1, r.2.clearFlags e wbaEvtlistReg)
  else (0, s)

def eventDel (s : WbaEvtbase κ) (e : EvtId) : ℤ × WbaEvtbase κ :=
  if e ∉ s.heap then (0, s)
  else if !s.hasFlag e (wbaEvtlistReg ||| wbaEvtlistActive) then (1, s)
  else
    let s := if s.hasFlag e wbaEvtlistTimeout then s.eventRemoveTimeout e else s
    let s := if s.hasFlag e wbaEvtlistActive then s.eventRemoveActive e else s
    let r := s.eventDelReg K e
    (if r.1 > 0 then r.1 else 0, r.2)

def wbaEventDel (s : WbaEvtbase κ) (e : EvtId) : ℤ × WbaEvtbase κ := s.eventDel K e

def wbaEventFree (s : WbaEvtbase κ) (e : EvtId) : WbaEvtbase κ :=
  let s := (s.eventDel K e).2
  { s with heap := s.heap.erase e }

end WbaEvtbase

end Miscellany
