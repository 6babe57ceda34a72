import Miscellany.EventLoop.AddDelete
import Miscellany.EventLoop.Assign
import Miscellany.EventLoop.Guarded

/-!
# The test program

The callbacks of `test.c`. What `malloc`, `accept`, `read`, `write` and `rand` give to a callback
is a parameter (`TestSystem`), and so are the globals `io_events` and `io_rw_cb` and the text in the
buffer that `io_read_cb03` keeps from one call to the next.

Every event of the program has itself as the argument of its callback, or has the callback
`timeout_cb`, which does not look at its argument (`Wired`). The loop keeps this, so no callback
touches an event that has been freed, whatever the system does (`testProgram_live`).

`io_read_cb03` gives its event to `wba_event_assign`. The event is not active while its callback
runs, and the assignment then has the effect of freeing the event and making a new one at its
address (`Consistent.runCalls_assignCalls`).
-/

namespace Miscellany

open ListHead

namespace WbaEvtbase

variable {κ : Type*}

/-! ### The callbacks -/

def timeoutCbFn : WbaEvtcbFn := 0
def timeoutCb2Fn : WbaEvtcbFn := 1
def timeoutCb3Fn : WbaEvtcbFn := 2
def timeoutCb4Fn : WbaEvtcbFn := 3
def ioAcceptCbFn : WbaEvtcbFn := 4
def ioReadCb01Fn : WbaEvtcbFn := 5
def ioReadCb02Fn : WbaEvtcbFn := 6
def ioReadCb03Fn : WbaEvtcbFn := 7
def ioReadCb04Fn : WbaEvtcbFn := 8
def ioReadCb05Fn : WbaEvtcbFn := 9

/-- What the system gives to a callback that is started in a base, the globals, and the text in the
buffer of `io_read_cb03`. The result of `read` is `none` for -1, and the end of a file is the empty
text. -/
structure TestSystem (κ : Type*) where
  malloc : WbaEvtbase κ → Option EvtId
  accept : WbaEvtbase κ → ℤ → Option ℤ
  read : WbaEvtbase κ → ℤ → Option (List UInt8)
  write : WbaEvtbase κ → ℤ → List UInt8 → ℤ
  rand : WbaEvtbase κ → ℕ
  buf : WbaEvtbase κ → List UInt8
  ioEvents : BitVec 16
  ioRwCb : Option WbaEvtcbFn

/-- `wba_event_new`, and `wba_event_add` of its result, which does nothing for a null pointer.
`malloc` gives no address that is in use. -/
def newAndAdd (heap : List EvtId) (malloc : Option EvtId) (fd : ℤ) (events : BitVec 16)
    (fn : Option WbaEvtcbFn) (arg : CbArg) (tv : Option Timeval) : List Call :=
  match fn, malloc with
  | some fn, some e =>
      if e ∈ heap then [] else [.new (some e) fd events (some fn) arg, .add e tv]
  | fn, malloc => [.new malloc fd events fn arg]

/-- `wba_event_assign` of an event with itself as the argument: nothing when it is registered, and
otherwise a new event at its address. -/
def assignCalls (s : WbaEvtbase κ) (e : EvtId) (fd : ℤ) (events : BitVec 16) (fn : WbaEvtcbFn) :
    List Call :=
  if s.hasFlag e wbaEvtlistReg then [] else [.free e, .new (some e) fd events (some fn) (.evt e)]

def timeoutCb2 (e : EvtId) : List Call := [.add e (some ⟨3, 100⟩)]

def timeoutCb3 (e : EvtId) : List Call := [.del e]

def timeoutCb4 (T : TestSystem κ) (s : WbaEvtbase κ) (e : EvtId) : List Call :=
  .free e :: newAndAdd (s.heap.erase e) (T.malloc s) (-1) (wbaEvtTimeout ||| wbaEvtPersist)
    (some timeoutCb4Fn) .selfptr (some ⟨T.rand s % 10 + 1, 10086⟩)

def ioAcceptCb (T : TestSystem κ) (s : WbaEvtbase κ) (fd : ℤ) (events : BitVec 16) : List Call :=
  if hasAny events wbaEvtRead then
    match T.accept s fd with
    | none => []
    | some newFd =>
        newAndAdd s.heap (T.malloc s) newFd T.ioEvents T.ioRwCb .selfptr (some ⟨60, 10086⟩)
  else []

def ioReadCb01 (T : TestSystem κ) (s : WbaEvtbase κ) (fd : ℤ) (events : BitVec 16) (e : EvtId) :
    List Call :=
  if hasAny events wbaEvtTimeout then [.free e]
  else if hasAny events wbaEvtRead then
    match T.read s fd with
    | some (_ :: _) => [.add e (some ⟨60, 10086⟩)]
    | _ => [.free e]
  else []

def ioReadCb02 (events : BitVec 16) (e : EvtId) : List Call :=
  if hasAny events wbaEvtClosed then [.free e] else []

def ioReadCb03 (T : TestSystem κ) (s : WbaEvtbase κ) (fd : ℤ) (events : BitVec 16) (e : EvtId) :
    List Call :=
  if hasAny events wbaEvtRead then
    match T.read s fd with
    | some (_ :: _) =>
        assignCalls s e fd wbaEvtWrite ioReadCb03Fn ++ [.add e (some ⟨60, 10086⟩)]
    | _ => [.free e]
  else if hasAny events wbaEvtWrite then
    if T.write s fd (T.buf s) ≤ 0 then [.free e]
    else assignCalls s e fd wbaEvtRead ioReadCb03Fn ++ [.add e (some ⟨60, 10086⟩)]
  else []

def ioReadCb04 (T : TestSystem κ) (s : WbaEvtbase κ) (fd : ℤ) (events : BitVec 16) (e : EvtId) :
    List Call :=
  if hasAny events wbaEvtTimeout then [.free e]
  else if hasAny events wbaEvtRead then
    match T.read s fd with
    | some (_ :: _) => []
    | _ => [.free e]
  else []

/-- The text in `buf` that `io_read_cb05` writes: what has been read, up to the first zero. -/
def readText (T : TestSystem κ) (s : WbaEvtbase κ) (fd : ℤ) (events : BitVec 16) : List UInt8 :=
  if hasAny events wbaEvtRead then ((T.read s fd).getD []).takeWhile (fun c => c != 0) else []

def ioReadCb05 (T : TestSystem κ) (s : WbaEvtbase κ) (fd : ℤ) (events : BitVec 16) (e : EvtId) :
    List Call :=
  let buf := readText T s fd events
  (if hasAny events wbaEvtRead then
    match T.read s fd with
    | some (_ :: _) => []
    | _ => [.free e]
  else []) ++
    if hasAny events wbaEvtWrite then
      if 0 < buf.length then if T.write s fd buf ≤ 0 then [.free e] else [] else []
    else []

/-- The callbacks of the program, with the event that is their argument. -/
def testCallbacks (T : TestSystem κ) : Callbacks κ := fun fn fd events arg s =>
  match arg with
  | .evt e =>
      if fn = timeoutCb2Fn then timeoutCb2 e
      else if fn = timeoutCb3Fn then timeoutCb3 e
      else if fn = timeoutCb4Fn then timeoutCb4 T s e
      else if fn = ioAcceptCbFn then ioAcceptCb T s fd events
      else if fn = ioReadCb01Fn then ioReadCb01 T s fd events e
      else if fn = ioReadCb02Fn then ioReadCb02 events e
      else if fn = ioReadCb03Fn then ioReadCb03 T s fd events e
      else if fn = ioReadCb04Fn then ioReadCb04 T s fd events e
      else if fn = ioReadCb05Fn then ioReadCb05 T s fd events e
      else []
  | _ => []

/-- `timeout_test`. -/
def timeoutTest (s : WbaEvtbase κ) (malloc : Option EvtId) (tv : Timeval) (events : BitVec 16)
    (arg : CbArg) : List Call :=
  newAndAdd s.heap malloc (-1) events (some timeoutCbFn) arg (some tv)

/-- `io_start_listen`, with the descriptor of the socket. -/
def ioStartListen (s : WbaEvtbase κ) (malloc : Option EvtId) (fd : ℤ) : List Call :=
  newAndAdd s.heap malloc fd (wbaEvtRead ||| wbaEvtPersist) (some ioAcceptCbFn) .selfptr none

/-! ### The assignment of an event -/

variable {K : Kernel κ} {s t u : WbaEvtbase κ} {active : List EvtId} {e : EvtId}

/-- The calls that stand for `wba_event_assign` do what it does to an event that is not active. -/
theorem Consistent.runCalls_assignCalls (h : Consistent s active)
    (hidle : s.hasFlag e wbaEvtlistActive = false) (fd : ℤ) (events : BitVec 16)
    (fn : WbaEvtcbFn) :
    s.runCalls K (assignCalls s e fd events fn) =
      (wbaEventAssign (fun _ : Unit => s) () e () fd events (some fn) (.evt e)).2 () := by
  unfold assignCalls wbaEventAssign
  cases hreg : s.hasFlag e wbaEvtlistReg with
  | true => rfl
  | false =>
      have hfree : s.runCall K (.free e) = s.release e := by
        rw [WbaEvtbase.runCall, WbaEvtbase.wbaEventFree, eventDel_of_idle hreg hidle]
        rfl
      have hnew : ∀ t : WbaEvtbase κ, e ∉ t.heap →
          t.runCall K (.new (some e) fd events (some fn) (.evt e)) =
            t.placeEvt e (assignedEvt fd events fn (.evt e)) := by
        intro t he
        rw [WbaEvtbase.runCall, WbaEvtbase.wbaEventNew, if_neg he]
        rfl
      simp only [Bool.false_eq_true, if_false, Function.update_self]
      rw [WbaEvtbase.runCalls, List.foldl_cons, List.foldl_cons, List.foldl_nil, hfree,
        hnew _ (h.notMem_release e)]

/-! ### The callback of an event -/

/-- From `s` to `t` no event gets another callback. -/
def KeepsCb (s t : WbaEvtbase κ) : Prop := ∀ e, (t.evt e).cb = (s.evt e).cb

theorem KeepsCb.refl (s : WbaEvtbase κ) : KeepsCb s s := fun _ => rfl

theorem KeepsCb.trans (hst : KeepsCb s t) (htu : KeepsCb t u) : KeepsCb s u :=
  fun e => (htu e).trans (hst e)

theorem keepsCb_modifyEvt (s : WbaEvtbase κ) (e : EvtId) {f : WbaEvt → WbaEvt}
    (hf : ∀ v, (f v).cb = v.cb) : KeepsCb s (s.modifyEvt e f) := by
  intro d
  by_cases hd : d = e
  · rw [hd, modifyEvt_evt_self, hf]
  · rw [modifyEvt_evt_of_ne s f hd]

theorem FlagsOnly.keepsCb (h : FlagsOnly e s t) : KeepsCb s t := by
  intro d
  by_cases hd : d = e
  · rw [hd, h.evt_self]
  · rw [h.evt_of_ne hd]

theorem keepsCb_eventAddActive (s : WbaEvtbase κ) (e : EvtId) (res : BitVec 16) :
    KeepsCb s (s.eventAddActive e res) := by
  unfold eventAddActive
  split_ifs
  · exact KeepsCb.refl s
  · have hres : KeepsCb s (s.modifyEvt e fun v => { v with res := res }) :=
      keepsCb_modifyEvt s e fun _ => rfl
    have hflag := (flagsOnly_setFlags (s.modifyEvt e fun v => { v with res := res }) e
      wbaEvtlistActive).keepsCb
    exact fun d => (hflag d).trans (hres d)

theorem keepsCb_eventSetTimeout (s : WbaEvtbase κ) (e : EvtId) (tv : Timeval) (abs : Bool) :
    KeepsCb s (s.eventSetTimeout K e tv abs) := by
  unfold eventSetTimeout
  split_ifs
  · exact keepsCb_modifyEvt s e fun _ => rfl
  · have hperiod : KeepsCb s (s.modifyEvt e fun v => { v with timeout := tv }) :=
      keepsCb_modifyEvt s e fun _ => rfl
    exact hperiod.trans (keepsCb_modifyEvt _ e fun _ => rfl)
  · have hclock : KeepsCb s (s.eventTimegetNow K).2 := KeepsCb.refl s
    exact hclock.trans (keepsCb_modifyEvt _ e fun _ => rfl)

theorem keepsCb_eventAdd (s : WbaEvtbase κ) (e : EvtId) (tv : Option Timeval) (abs : Bool) :
    KeepsCb s (s.eventAdd K e tv abs).2 := by
  rcases eventAdd_cases K s e tv abs with ⟨heq, -⟩ | ⟨-, heq, -⟩ | ⟨t, -, -, -, heq⟩
  · rw [heq]
    exact KeepsCb.refl s
  · rw [heq]
    exact (flagsOnly_eventAddReg K s e).keepsCb
  · rw [heq]
    have hreg := (flagsOnly_eventAddReg K s e).keepsCb
    exact ((hreg.trans (flagsOnly_eventRemoveTimeout _ e).keepsCb).trans
      (keepsCb_eventSetTimeout _ e t abs)).trans (flagsOnly_eventAddTimeout _ e).keepsCb

theorem keepsCb_wbaEventAdd (s : WbaEvtbase κ) (e : EvtId) (tv : Option Timeval) :
    KeepsCb s (s.wbaEventAdd K e tv).2 := by
  unfold wbaEventAdd
  cases tv with
  | none => exact keepsCb_eventAdd s e none false
  | some t =>
      simp only
      split_ifs
      · exact KeepsCb.refl s
      · exact keepsCb_eventAdd s e (some t) false

theorem keepsCb_eventDel (s : WbaEvtbase κ) (e : EvtId) : KeepsCb s (s.eventDel K e).2 :=
  (flagsOnly_eventDel K s e).keepsCb

theorem keepsCb_eventProcessActiveBody (s : WbaEvtbase κ) (e : EvtId) :
    KeepsCb s (s.eventProcessActiveBody K e) := by
  have hremove := (flagsOnly_eventRemoveActive s e).keepsCb
  unfold eventProcessActiveBody eventReschedule
  split_ifs
  · have hclock : KeepsCb (s.eventRemoveActive e) ((s.eventRemoveActive e).eventTimegetNow K).2 :=
      KeepsCb.refl _
    exact (hremove.trans hclock).trans (keepsCb_eventAdd _ e _ true)
  · exact hremove
  · exact keepsCb_eventDel s e

theorem keepsCb_eventMapActiveLoop {events : BitVec 16} {fuel : ℕ}
    {pos : Option (ListHead ℕ EvtId)} (h : eventMapActiveLoop events fuel pos s = some t) :
    KeepsCb s t := by
  induction fuel generalizing pos s with
  | zero =>
      rcases pos with - | (i | e)
      · cases h
      · cases h
        exact KeepsCb.refl _
      · cases h
  | succ fuel ih =>
      rcases pos with - | (i | e)
      · cases h
      · cases h
        exact KeepsCb.refl _
      · rw [eventMapActiveLoop] at h
        refine KeepsCb.trans ?_ (ih h)
        split_ifs
        · exact keepsCb_eventAddActive _ e _
        · exact KeepsCb.refl _

theorem keepsCb_processReports {rs : List EpollEvent} (h : processReports rs s = some t) :
    KeepsCb s t := by
  induction rs generalizing s with
  | nil =>
      cases h
      exact KeepsCb.refl _
  | cons r rs ih =>
      rw [processReports] at h
      split_ifs at h
      · exact ih h
      · cases hmap : s.eventMapActive r.fd (translate r.events) with
        | none =>
            rw [hmap] at h
            cases h
        | some s' =>
            rw [hmap] at h
            refine KeepsCb.trans ?_ (ih h)
            unfold eventMapActive at hmap
            split at hmap
            · cases hmap
              exact KeepsCb.refl _
            · exact keepsCb_eventMapActiveLoop hmap

theorem keepsCb_eventProcessTimeoutLoop (now : Timeval) (fuel : ℕ) (node : Option EvtId) (cnt : ℤ)
    (s : WbaEvtbase κ) : KeepsCb s (eventProcessTimeoutLoop K now fuel node cnt s).2 := by
  induction fuel generalizing node cnt s with
  | zero =>
      cases node with
      | none => exact KeepsCb.refl s
      | some p => exact KeepsCb.refl s
  | succ fuel ih =>
      cases node with
      | none => exact KeepsCb.refl s
      | some p =>
          rw [eventProcessTimeoutLoop]
          simp only
          split_ifs
          · exact KeepsCb.refl s
          · exact ((keepsCb_eventDel s p).trans (keepsCb_eventAddActive _ p _)).trans (ih _ _ _)

theorem keepsCb_eventCollect (h : s.eventCollect K = some t) : KeepsCb s t := by
  obtain ⟨rs, u, -, hreports, rfl⟩ := eventCollect_eq_some K h
  obtain ⟨k, hwait⟩ := eventWait_eq K s
  have hfirst : KeepsCb s (s.eventWait K).2 := by
    rw [hwait]
    exact KeepsCb.refl s
  refine (hfirst.trans (keepsCb_processReports hreports)).trans ?_
  unfold eventProcessTimeout
  simp only
  split
  · exact KeepsCb.refl _
  · exact keepsCb_eventProcessTimeoutLoop _ _ _ _ _

/-! ### Events with their own argument -/

/-- The argument of every callback is its own event, or the callback is `timeout_cb`. -/
def Wired (s : WbaEvtbase κ) : Prop :=
  ∀ e, (s.evt e).cb.fn = timeoutCbFn ∨ (s.evt e).cb.arg = .evt e

/-- The calls that the program makes, and those that stand for an assignment. -/
def Call.Wires : Call → Prop
  | .new malloc _ _ fn arg =>
      fn = some timeoutCbFn ∨ arg = .selfptr ∨ ∃ e, malloc = some e ∧ arg = .evt e
  | _ => True

theorem Wired.of_keepsCb (h : Wired s) (hcb : KeepsCb s t) : Wired t := by
  intro e
  rw [hcb e]
  exact h e

theorem Wired.runCall (h : Wired s) {c : Call} (hc : c.Wires) : Wired (s.runCall K c) := by
  cases c with
  | new malloc fd events fn arg =>
      change Wired (s.wbaEventNew malloc fd events fn arg).2
      unfold wbaEventNew
      split
      · rename_i f e
        split_ifs
        · exact h
        · intro d
          by_cases hd : d = e
          · subst hd
            have hevt : ((s.placeEvt d (freshEvt d fd events f arg)).evt d).cb =
                ⟨f, if arg = .selfptr then .evt d else arg⟩ := by
              simp [placeEvt, freshEvt]
            rw [hevt]
            rcases hc with hf | harg | ⟨a, ha, harg⟩
            · exact Or.inl (Option.some.inj hf)
            · exact Or.inr (if_pos harg)
            · obtain rfl : d = a := Option.some.inj ha
              rw [harg]
              exact Or.inr rfl
          · have hevt : (s.placeEvt e (freshEvt e fd events f arg)).evt d = s.evt d :=
              Function.update_of_ne hd _ _
            rw [hevt]
            exact h d
      · exact h
  | add e tv => exact h.of_keepsCb (keepsCb_wbaEventAdd s e tv)
  | del e => exact h.of_keepsCb (keepsCb_eventDel s e)
  | free e => exact h.of_keepsCb (keepsCb_eventDel s e)

theorem Wired.runCalls (h : Wired s) {calls : List Call} (hcalls : ∀ c ∈ calls, c.Wires) :
    Wired (s.runCalls K calls) := by
  induction calls generalizing s with
  | nil => exact h
  | cons c calls ih =>
      rw [List.forall_mem_cons] at hcalls
      exact ih (h.runCall hcalls.1) hcalls.2

/-! ### Calls on events that have not been freed -/

/-- The calls use the events of `heap` and those that they create, and none that they have freed. -/
def Live : List EvtId → List Call → Prop
  | _, [] => True
  | heap, .new (some e) _ _ (some _) _ :: calls => Live (e :: heap) calls
  | heap, .new _ _ _ _ _ :: calls => Live heap calls
  | heap, .add e _ :: calls => e ∈ heap ∧ Live heap calls
  | heap, .del e :: calls => e ∈ heap ∧ Live heap calls
  | heap, .free e :: calls => e ∈ heap ∧ Live (heap.erase e) calls

/-- The calls of the callback of the event `e` in a base with the events `heap`. -/
structure Behaves (heap : List EvtId) (e : EvtId) (calls : List Call) : Prop where
  live : e ∈ heap → Live heap calls
  own : ∀ c ∈ calls, ∀ d, c.Removes d → d = e
  wires : ∀ c ∈ calls, c.Wires

variable {heap : List EvtId}

theorem behaves_nil (heap : List EvtId) (e : EvtId) : Behaves heap e [] :=
  ⟨fun _ => trivial, List.forall_mem_nil _, List.forall_mem_nil _⟩

theorem behaves_add (heap : List EvtId) (e : EvtId) (tv : Option Timeval) :
    Behaves heap e [.add e tv] := by
  refine ⟨fun he => ⟨he, trivial⟩, List.forall_mem_singleton.2 fun d hd => ?_,
    List.forall_mem_singleton.2 trivial⟩
  simp [Call.Removes] at hd

theorem behaves_del (heap : List EvtId) (e : EvtId) : Behaves heap e [.del e] := by
  refine ⟨fun he => ⟨he, trivial⟩, List.forall_mem_singleton.2 fun d hd => ?_,
    List.forall_mem_singleton.2 trivial⟩
  simpa [Call.Removes, eq_comm] using hd

theorem Behaves.free {calls : List Call} (h : Behaves (heap.erase e) e calls)
    (hlive : Live (heap.erase e) calls) : Behaves heap e (.free e :: calls) := by
  refine ⟨fun he => ⟨he, hlive⟩, List.forall_mem_cons.2 ⟨fun d hd => ?_, h.own⟩,
    List.forall_mem_cons.2 ⟨trivial, h.wires⟩⟩
  simpa [Call.Removes, eq_comm] using hd

theorem live_newAndAdd (heap : List EvtId) (malloc : Option EvtId) (fd : ℤ) (events : BitVec 16)
    (fn : Option WbaEvtcbFn) (arg : CbArg) (tv : Option Timeval) :
    Live heap (newAndAdd heap malloc fd events fn arg tv) := by
  unfold newAndAdd
  split
  · split_ifs
    · trivial
    · exact ⟨List.mem_cons_self, trivial⟩
  · cases malloc with
    | none => trivial
    | some a =>
        cases fn with
        | none => trivial
        | some f => trivial

theorem behaves_newAndAdd (heap : List EvtId) (e : EvtId) (malloc : Option EvtId) (fd : ℤ)
    (events : BitVec 16) {fn : Option WbaEvtcbFn} {arg : CbArg} (tv : Option Timeval)
    (hfn : fn = some timeoutCbFn ∨ arg = .selfptr) :
    Behaves heap e (newAndAdd heap malloc fd events fn arg tv) := by
  refine ⟨fun _ => live_newAndAdd heap malloc fd events fn arg tv, ?_, ?_⟩
  · unfold newAndAdd
    split
    · split_ifs
      · exact List.forall_mem_nil _
      · refine List.forall_mem_cons.2 ⟨fun d hd => ?_, List.forall_mem_singleton.2 fun d hd => ?_⟩
        · simp [Call.Removes] at hd
        · simp [Call.Removes] at hd
    · refine List.forall_mem_singleton.2 fun d hd => ?_
      simp [Call.Removes] at hd
  · unfold newAndAdd
    split
    · split_ifs
      · exact List.forall_mem_nil _
      · exact List.forall_mem_cons.2 ⟨hfn.imp_right Or.inl, List.forall_mem_singleton.2 trivial⟩
    · exact List.forall_mem_singleton.2 (hfn.imp_right Or.inl)

/-- The set-up of a timer, whose callback is `timeout_cb`. -/
theorem timeoutTest_wires (s : WbaEvtbase κ) (malloc : Option EvtId) (tv : Timeval)
    (events : BitVec 16) (arg : CbArg) : ∀ c ∈ timeoutTest s malloc tv events arg, c.Wires :=
  (behaves_newAndAdd s.heap 0 malloc (-1) events (some tv) (Or.inl rfl)).wires

/-- The set-up of the socket that accepts. -/
theorem ioStartListen_wires (s : WbaEvtbase κ) (malloc : Option EvtId) (fd : ℤ) :
    ∀ c ∈ ioStartListen s malloc fd, c.Wires :=
  (behaves_newAndAdd s.heap 0 malloc fd _ none (Or.inr rfl)).wires

theorem behaves_free (heap : List EvtId) (e : EvtId) : Behaves heap e [.free e] :=
  (behaves_nil _ e).free trivial

/-- The event is assigned, which it survives, and added. -/
theorem behaves_assignCalls (s : WbaEvtbase κ) (e : EvtId) (fd : ℤ) (events : BitVec 16)
    (fn : WbaEvtcbFn) (tv : Option Timeval) :
    Behaves s.heap e (assignCalls s e fd events fn ++ [.add e tv]) := by
  unfold assignCalls
  split_ifs
  · exact behaves_add s.heap e tv
  · have hadd := behaves_add (e :: s.heap.erase e) e tv
    refine Behaves.free ⟨fun _ => hadd.live List.mem_cons_self, ?_, ?_⟩
      (hadd.live List.mem_cons_self)
    · refine List.forall_mem_cons.2 ⟨fun d hd => ?_, hadd.own⟩
      simp [Call.Removes] at hd
    · exact List.forall_mem_cons.2 ⟨Or.inr (Or.inr ⟨e, rfl, rfl⟩), hadd.wires⟩

/-- The event is freed once only, for nothing is written when nothing has been read. -/
theorem behaves_ioReadCb05 (T : TestSystem κ) (fd : ℤ) (events : BitVec 16) (e : EvtId) :
    Behaves s.heap e (ioReadCb05 T s fd events e) := by
  have hnil := behaves_nil s.heap e
  have hfree := behaves_free s.heap e
  have hwrite : ∀ buf : List UInt8, Behaves s.heap e (if hasAny events wbaEvtWrite then
      if 0 < buf.length then if T.write s fd buf ≤ 0 then [.free e] else [] else [] else []) := by
    intro buf
    split_ifs
    · exact hfree
    · exact hnil
    · exact hnil
    · exact hnil
  unfold ioReadCb05 readText
  dsimp only
  by_cases hread : hasAny events wbaEvtRead = true
  · rw [if_pos hread, if_pos hread]
    cases hget : T.read s fd with
    | none => simpa using hfree
    | some text =>
        cases text with
        | nil => simpa using hfree
        | cons c text => exact hwrite _
  · rw [if_neg hread, if_neg hread]
    exact hwrite _

/-- A callback of the program that is called with its event. -/
theorem behaves_testCallbacks (T : TestSystem κ) (fn : WbaEvtcbFn) (fd : ℤ) (events : BitVec 16)
    (e : EvtId) (s : WbaEvtbase κ) :
    Behaves s.heap e (testCallbacks T fn fd events (.evt e) s) := by
  have hnil := behaves_nil s.heap e
  have hfree := behaves_free s.heap e
  unfold testCallbacks
  dsimp only
  split_ifs
  · exact behaves_add s.heap e _
  · exact behaves_del s.heap e
  · exact (behaves_newAndAdd _ e _ _ _ _ (Or.inr rfl)).free (live_newAndAdd _ _ _ _ _ _ _)
  · unfold ioAcceptCb
    split_ifs
    · split
      · exact hnil
      · exact behaves_newAndAdd _ e _ _ _ _ (Or.inr rfl)
    · exact hnil
  · unfold ioReadCb01
    split_ifs
    · exact hfree
    · split
      · exact behaves_add s.heap e _
      · exact hfree
    · exact hnil
  · unfold ioReadCb02
    split_ifs
    · exact hfree
    · exact hnil
  · unfold ioReadCb03
    split_ifs
    · split
      · exact behaves_assignCalls s e _ _ _ _
      · exact hfree
    · exact hfree
    · exact behaves_assignCalls s e _ _ _ _
    · exact hnil
  · unfold ioReadCb04
    split_ifs
    · exact hfree
    · split
      · exact hnil
      · exact hfree
    · exact hnil
  · exact behaves_ioReadCb05 T fd events e
  · exact hnil

theorem testCallbacks_timeoutCb (T : TestSystem κ) (fd : ℤ) (events : BitVec 16) (arg : CbArg)
    (s : WbaEvtbase κ) : testCallbacks T timeoutCbFn fd events arg s = [] := by
  unfold testCallbacks
  split
  · rfl
  · rfl

theorem Wired.behaves (h : Wired s) (T : TestSystem κ) (e : EvtId) :
    Behaves s.heap e (s.invocation (testCallbacks T) e).calls := by
  rw [invocation]
  dsimp only
  rcases h e with hfn | harg
  · rw [hfn, testCallbacks_timeoutCb]
    exact behaves_nil s.heap e
  · rw [harg]
    exact behaves_testCallbacks T _ _ _ e s

/-- What the loop keeps. -/
structure Prepared (s : WbaEvtbase κ) : Prop where
  wired : Wired s
  consistent : ∃ active, Consistent s active

theorem keptBy_prepared (T : TestSystem κ) : KeptBy K (testCallbacks T) Prepared where
  consistent _ hs := hs.consistent
  collect _ _ hs h :=
    ⟨hs.wired.of_keepsCb (keepsCb_eventCollect h),
      hs.consistent.elim fun _ hcons => hcons.eventCollect K h⟩
  body s e he hs :=
    ⟨hs.wired.of_keepsCb (keepsCb_eventProcessActiveBody s e),
      hs.consistent.elim fun _ hcons => ⟨_, hcons.eventProcessActiveBody K he⟩⟩
  calls _ e _ hs :=
    ⟨hs.wired.runCalls (hs.wired.behaves T e).wires,
      hs.consistent.elim fun _ hcons => ⟨_, hcons.runCalls K _⟩⟩

/-- A callback of the program that the loop invokes. -/
theorem Sound.behaves {T : TestSystem κ} {inv : Invocation κ}
    (h : Sound Prepared (testCallbacks T) inv) : Behaves inv.base.heap inv.evt inv.calls := by
  rw [h.eq]
  exact h.base.wired.behaves T inv.evt

theorem Sound.removesOwn {T : TestSystem κ} {inv : Invocation κ}
    (h : Sound Prepared (testCallbacks T) inv) : inv.RemovesOwn := by
  rintro d ⟨c, hc, hd⟩
  exact h.behaves.own c hc d hd

theorem Sound.arg_eq {T : TestSystem κ} {inv : Invocation κ}
    (h : Sound Prepared (testCallbacks T) inv) : inv.arg = .evt inv.evt ∨ inv.calls = [] := by
  rw [h.eq]
  rcases h.base.wired inv.evt with hfn | harg
  · right
    rw [invocation]
    dsimp only
    rw [hfn, testCallbacks_timeoutCb]
  · exact Or.inl harg

theorem wired_new {k : κ} {epfd : ℤ} {mallocBase mallocEvents mallocList : Bool}
    (hnew : wbaEvtbaseNew k epfd mallocBase mallocEvents mallocList = some s) : Wired s := by
  unfold wbaEvtbaseNew at hnew
  split_ifs at hnew
  cases hnew
  exact fun _ => Or.inl rfl

/-- Whatever the program sets up and whatever the system does, every iteration of the loop runs
its active list once and in order, every callback is called with an event that has not been freed
and makes its calls on such events only, an assignment in a callback is one that
`wba_event_assign` makes, and the loop goes on until nothing is left or `epoll_wait` fails. -/
theorem testProgram_live {k : κ} {epfd : ℤ} {mallocBase mallocEvents mallocList : Bool}
    (T : TestSystem κ)
    (hnew : wbaEvtbaseNew k epfd mallocBase mallocEvents mallocList = some s) {setup : List Call}
    (hsetup : ∀ c ∈ setup, c.Wires) {res : ℤ}
    {its : List (WbaEvtbase κ × List (Invocation κ))}
    (hrun : LoopRun K (testCallbacks T) (s.runCalls K setup) res its t) :
    (∀ it ∈ its, Ring it.1.evtActiveList () (it.2.map Invocation.evt)) ∧
      (∀ it ∈ its, ∀ inv ∈ it.2, inv.evt ∈ inv.base.heap ∧ Live inv.base.heap inv.calls ∧
        (inv.arg = .evt inv.evt ∨ inv.calls = []) ∧
        ∀ fd events fn, inv.base.runCalls K (assignCalls inv.base inv.evt fd events fn) =
          (wbaEventAssign (fun _ : Unit => inv.base) () inv.evt () fd events (some fn)
            (.evt inv.evt)).2 ()) ∧
      ∀ rs, t.isEmptyBase = false → (t.eventWait K).1 = some rs →
        ∃ t' tr u, LoopRun K (testCallbacks T) (s.runCalls K setup) rs.length
          (its ++ [(t', tr)]) u := by
  have hcons := ((LoopHead.new hnew).runCalls setup (K := K)).consistent
  have hprep : Prepared (s.runCalls K setup) := ⟨(wired_new hnew).runCalls hsetup, _, hcons⟩
  have hkept := keptBy_prepared T (K := K)
  have hsound := (hrun.sound hkept hprep).2
  obtain ⟨hring, hnext⟩ := hrun.sound_next hkept hcons hprep fun _ hinv => hinv.removesOwn
  refine ⟨hring, fun it hit inv hmem => ?_, hnext⟩
  have hinv := hsound it hit inv hmem
  refine ⟨hinv.live, hinv.behaves.live hinv.live, hinv.arg_eq, ?_⟩
  obtain ⟨active, hbase⟩ := hinv.base.consistent
  exact hbase.runCalls_assignCalls hinv.idle

/-- A system that gives the address 2 and has some text to read. -/
def echoSystem : TestSystem SimState where
  malloc _ := some 2
  accept _ _ := none
  read _ _ := some [104, 105]
  write _ _ _ := 2
  rand _ := 4
  buf _ := [104, 105]
  ioEvents := wbaEvtRead
  ioRwCb := some ioReadCb03Fn

/-- A timer that has expired, and a socket that is to be read. -/
def echoSetup : List Call :=
  [.new (some 0) (-1) (wbaEvtTimeout ||| wbaEvtPersist) (some timeoutCb4Fn) .selfptr,
    .add 0 (some ⟨0, 0⟩), .new (some 1) 5 wbaEvtRead (some ioReadCb03Fn) .selfptr,
    .add 1 (some ⟨60, 10086⟩)]

/-- `timeout_cb4` frees its event and makes another one, and `io_read_cb03` assigns its event. -/
theorem testProgram_live_echo :
    ∃ t' tr u, LoopRun simKernel (testCallbacks echoSystem)
        ((newBase { reports := [[⟨epollIn, 5⟩]] }).runCalls simKernel echoSetup) 1 [(t', tr)] u ∧
      ∀ inv ∈ tr, inv.evt ∈ inv.base.heap ∧ Live inv.base.heap inv.calls := by
  have hsetup : ∀ c ∈ echoSetup, c.Wires :=
    List.forall_mem_cons.2 ⟨Or.inr (Or.inl rfl), List.forall_mem_cons.2 ⟨trivial,
      List.forall_mem_cons.2 ⟨Or.inr (Or.inl rfl), List.forall_mem_singleton.2 trivial⟩⟩⟩
  have hnew := wbaEvtbaseNew_newBase ({ reports := [[⟨epollIn, 5⟩]] } : SimState)
  obtain ⟨-, -, hnext⟩ := testProgram_live (K := simKernel) echoSystem hnew hsetup LoopRun.start
  obtain ⟨t', tr, u, hrun⟩ := hnext [⟨epollIn, 5⟩] (by decide +kernel) (by decide +kernel)
  obtain ⟨-, hlive, -⟩ := testProgram_live echoSystem hnew hsetup hrun
  refine ⟨t', tr, u, hrun, fun inv hinv => ?_⟩
  obtain ⟨hmem, hcalls, -, -⟩ := hlive (t', tr) (List.mem_singleton_self _) inv hinv
  exact ⟨hmem, hcalls⟩

end WbaEvtbase

end Miscellany
