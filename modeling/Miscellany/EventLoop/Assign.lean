import Miscellany.EventLoop.Dispatch

/-!
# Assigning an event again

`wba_event_assign` clears the memory of an event with its links and gives the event to a
base, which may be another one than before. It refuses an event that is registered, and
looks at no other flag. So an event that has expired, or that was reported and then
deleted from the map by its expiry, is accepted while it waits on the active list.

Several bases are a family `W` of them. An event belongs to the base whose memory it is
in, and no address is in the memory of two bases (`Apart`). The steps of the bases are
interleaved in any order; since a callback is a sequence of calls, this includes what
callbacks do in the middle of an iteration.
-/

namespace Miscellany

namespace WbaEvtbase

variable {κ : Type*} {ι : Type*} [DecidableEq ι]

/-! ### The call -/

/-- The event that `wba_event_assign` sets up. Unlike `wba_event_new` it does not replace the
argument `wba_event_selfptr()`. -/
def assignedEvt (fd : ℤ) (events : BitVec 16) (fn : WbaEvtcbFn) (arg : CbArg) : WbaEvt :=
  { zeroEvt with
    fd := if fd < 0 then -1 else fd
    cb := ⟨fn, arg⟩
    events := events
    flags := wbaEvtlistInit }

/-- The base without the memory at the address `e`. -/
def release (s : WbaEvtbase κ) (e : EvtId) : WbaEvtbase κ := { s with heap := s.heap.erase e }

/-- `wba_event_assign`, for the event at the address `e` in the memory of the base `i`, and the
base `j`: the return value and the bases. -/
def wbaEventAssign (W : ι → WbaEvtbase κ) (i : ι) (e : EvtId) (j : ι) (fd : ℤ)
    (events : BitVec 16) (fn : Option WbaEvtcbFn) (arg : CbArg) : ℤ × (ι → WbaEvtbase κ) :=
  match fn with
  | none => (0, W)
  | some fn =>
      if (W i).hasFlag e wbaEvtlistReg then (0, W)
      else
        let W := Function.update W i ((W i).release e)
        (1, Function.update W j ((W j).placeEvt e (assignedEvt fd events fn arg)))

/-! ### Runs of several bases -/

/-- The bases that occur in a run in which no event is assigned while it is active. The address
that is assigned is that of an event, or memory of the caller that is not in use. -/
inductive Interleaved (K : Kernel κ) (k : ι → κ) : (ι → WbaEvtbase κ) → Prop where
  | new {W : ι → WbaEvtbase κ} (hnew : ∀ i, ∃ epfd mallocBase mallocEvents mallocList,
      wbaEvtbaseNew (k i) epfd mallocBase mallocEvents mallocList = some (W i)) :
      Interleaved K k W
  | step {W : ι → WbaEvtbase κ} (h : Interleaved K k W) (i : ι) (op : Op) {t : WbaEvtbase κ}
      (hop : (W i).runOp K op = some t) (hmalloc : ∀ j, j ≠ i → ∀ d ∈ t.heap, d ∉ (W j).heap) :
      Interleaved K k (Function.update W i t)
  | assign {W : ι → WbaEvtbase κ} (h : Interleaved K k W) (i : ι) (e : EvtId)
      (howner : e ∈ (W i).heap ∨ ∀ l, e ∉ (W l).heap)
      (hidle : e ∈ (W i).heap → (W i).hasFlag e wbaEvtlistActive = false) (j : ι) (fd : ℤ)
      (events : BitVec 16) (fn : Option WbaEvtcbFn) (arg : CbArg) :
      Interleaved K k (wbaEventAssign W i e j fd events fn arg).2

/-- Each base is consistent, and no address is in the memory of two bases. -/
structure Apart (W : ι → WbaEvtbase κ) : Prop where
  consistent : ∀ i, ∃ active, Consistent (W i) active
  disjoint : ∀ i j, i ≠ j → ∀ d ∈ (W i).heap, d ∉ (W j).heap

variable {W : ι → WbaEvtbase κ} {s : WbaEvtbase κ} {active : List EvtId} {e : EvtId} {i j : ι}

/-- An event without the flags `REG` and `ACTIVE` is in no container. -/
theorem Consistent.release (h : Consistent s active)
    (hreg : e ∈ s.heap → s.hasFlag e wbaEvtlistReg = false)
    (hactive : e ∈ s.heap → s.hasFlag e wbaEvtlistActive = false) :
    Consistent (s.release e) active := by
  obtain ⟨slot, hwf⟩ := h
  unfold WbaEvtbase.release
  by_cases he : e ∈ s.heap
  · have htimeout := hwf.not_timeout_of_not_reg he (hreg he)
    exact ⟨slot, hwf.eraseHeap (hactive he) htimeout (hreg he)⟩
  · rw [List.erase_of_not_mem he]
    exact ⟨slot, hwf⟩

theorem Consistent.placeEvt (h : Consistent s active) (he : e ∉ s.heap) {v : WbaEvt}
    (hflags : v.flags = wbaEvtlistInit) : Consistent (s.placeEvt e v) active := by
  obtain ⟨slot, hwf⟩ := h
  exact ⟨slot, hwf.placeEvt he hflags⟩

theorem Consistent.notMem_release (h : Consistent s active) (e : EvtId) :
    e ∉ (s.release e).heap := by
  obtain ⟨slot, hwf⟩ := h
  exact hwf.heap_nodup.not_mem_erase

theorem Apart.release (h : Apart W) (hreg : e ∈ (W i).heap → (W i).hasFlag e wbaEvtlistReg = false)
    (hactive : e ∈ (W i).heap → (W i).hasFlag e wbaEvtlistActive = false) :
    Apart (Function.update W i ((W i).release e)) := by
  have hsub : ∀ l, ∀ d ∈ (Function.update W i ((W i).release e) l).heap, d ∈ (W l).heap := by
    intro l d hd
    by_cases hl : l = i
    · subst hl
      rw [Function.update_self] at hd
      exact List.mem_of_mem_erase hd
    · rwa [Function.update_of_ne hl] at hd
  constructor
  · intro l
    by_cases hl : l = i
    · subst hl
      rw [Function.update_self]
      obtain ⟨active, hcons⟩ := h.consistent l
      exact ⟨active, hcons.release hreg hactive⟩
    · rw [Function.update_of_ne hl]
      exact h.consistent l
  · intro a b hab d hd hd'
    exact h.disjoint a b hab d (hsub a d hd) (hsub b d hd')

theorem Apart.placeEvt (h : Apart W) (he : ∀ l, e ∉ (W l).heap) {v : WbaEvt}
    (hflags : v.flags = wbaEvtlistInit) :
    Apart (Function.update W j ((W j).placeEvt e v)) := by
  have hmem : ∀ l, ∀ d ∈ (Function.update W j ((W j).placeEvt e v) l).heap,
      d ∈ (W l).heap ∨ l = j ∧ d = e := by
    intro l d hd
    by_cases hl : l = j
    · subst hl
      rw [Function.update_self] at hd
      rcases List.mem_cons.1 hd with rfl | hd
      · exact Or.inr ⟨rfl, rfl⟩
      · exact Or.inl hd
    · rw [Function.update_of_ne hl] at hd
      exact Or.inl hd
  constructor
  · intro l
    by_cases hl : l = j
    · subst hl
      rw [Function.update_self]
      obtain ⟨active, hcons⟩ := h.consistent l
      exact ⟨active, hcons.placeEvt (he l) hflags⟩
    · rw [Function.update_of_ne hl]
      exact h.consistent l
  · intro a b hab d hd hd'
    rcases hmem a d hd with hold | ⟨ha, hde⟩
    · rcases hmem b d hd' with hold' | ⟨-, hde⟩
      · exact h.disjoint a b hab d hold hold'
      · rw [hde] at hold
        exact he a hold
    · rcases hmem b d hd' with hold' | ⟨hb, -⟩
      · rw [hde] at hold'
        exact he b hold'
      · exact hab (ha.trans hb.symm)

/-- Assigning an event that is not active keeps the bases consistent. -/
theorem Apart.wbaEventAssign (h : Apart W) (howner : e ∈ (W i).heap ∨ ∀ l, e ∉ (W l).heap)
    (hidle : e ∈ (W i).heap → (W i).hasFlag e wbaEvtlistActive = false) (j : ι) (fd : ℤ)
    (events : BitVec 16) (fn : Option WbaEvtcbFn) (arg : CbArg) :
    Apart (wbaEventAssign W i e j fd events fn arg).2 := by
  unfold WbaEvtbase.wbaEventAssign
  cases fn with
  | none => exact h
  | some fn =>
      simp only
      split_ifs with hreg
      · exact h
      · rw [Bool.not_eq_true] at hreg
        have hrelease : Apart (Function.update W i ((W i).release e)) :=
          h.release (fun _ => hreg) hidle
        refine hrelease.placeEvt (fun l => ?_) rfl
        by_cases hl : l = i
        · subst hl
          rw [Function.update_self]
          obtain ⟨active, hcons⟩ := h.consistent l
          exact hcons.notMem_release e
        · rw [Function.update_of_ne hl]
          rcases howner with he | he
          · exact h.disjoint i l (Ne.symm hl) e he
          · exact he l

theorem Interleaved.apart {K : Kernel κ} {k : ι → κ} (h : Interleaved K k W) : Apart W := by
  induction h with
  | new hnew =>
      constructor
      · intro i
        obtain ⟨epfd, mallocBase, mallocEvents, mallocList, heq⟩ := hnew i
        exact ⟨[], _, wellFormed_new heq⟩
      · intro a b hab d hd
        obtain ⟨epfd, mallocBase, mallocEvents, mallocList, heq⟩ := hnew a
        unfold wbaEvtbaseNew at heq
        split_ifs at heq
        rw [← Option.some.inj heq] at hd
        simp at hd
  | @step W h i op t hop hmalloc ih =>
      constructor
      · intro l
        by_cases hl : l = i
        · subst hl
          rw [Function.update_self]
          obtain ⟨active, hcons⟩ := ih.consistent l
          obtain ⟨t', active', heq, ht⟩ := hcons.runOp K op
          obtain rfl : t' = t := Option.some.inj (heq.symm.trans hop)
          exact ⟨active', ht⟩
        · rw [Function.update_of_ne hl]
          exact ih.consistent l
      · intro a b hab d hd hd'
        by_cases ha : a = i
        · subst ha
          rw [Function.update_self] at hd
          rw [Function.update_of_ne (Ne.symm hab)] at hd'
          exact hmalloc b (Ne.symm hab) d hd hd'
        · rw [Function.update_of_ne ha] at hd
          by_cases hb : b = i
          · subst hb
            rw [Function.update_self] at hd'
            exact hmalloc a ha d hd' hd
          · rw [Function.update_of_ne hb] at hd'
            exact ih.disjoint a b hab d hd hd'
  | assign h i e howner hidle j fd events fn arg ih =>
      exact ih.wbaEventAssign howner hidle j fd events fn arg

/-! ### Which events can be assigned -/

/-- The event is in no container of any base. -/
def Unlinked (W : ι → WbaEvtbase κ) (e : EvtId) : Prop :=
  ∀ l, ∃ active slot, Represents (W l) active slot ∧ e ∉ active ∧
    e ∉ (W l).evtTimeRoot.inorder ∧ ∀ n < (W l).size, e ∉ slot n

/-- Each base is represented by some lists. -/
def AllRepresented (W : ι → WbaEvtbase κ) : Prop :=
  ∀ l, ∃ active slot, Represents (W l) active slot

omit [DecidableEq ι] in
theorem Apart.allRepresented (h : Apart W) : AllRepresented W := by
  intro l
  obtain ⟨active, slot, hwf⟩ := h.consistent l
  exact ⟨active, slot, hwf.represents⟩

/-- The containers of a base hold events of that base only. -/
theorem Apart.unlinked (h : Apart W) (he : e ∈ (W i).heap)
    (hreg : (W i).hasFlag e wbaEvtlistReg = false)
    (hactive : (W i).hasFlag e wbaEvtlistActive = false) : Unlinked W e := by
  intro l
  obtain ⟨active, slot, hwf⟩ := h.consistent l
  have hsize := hwf.map.size
  by_cases hl : l = i
  · subst hl
    refine ⟨active, slot, hwf.represents, hwf.active.notMem hactive, ?_, fun n hn => ?_⟩
    · exact hwf.timer.notMem (hwf.not_timeout_of_not_reg he hreg)
    · exact hwf.map.notMem hreg (hsize ▸ hn)
  · have hnot := h.disjoint i l (Ne.symm hl) e he
    refine ⟨active, slot, hwf.represents, fun hmem => ?_, fun hmem => ?_, fun n hn hmem => ?_⟩
    · exact hnot ((hwf.active.mem e).1 hmem).1
    · exact hnot ((hwf.timer.mem e).1 hmem).1
    · exact hnot ((hwf.map.mem n (hsize ▸ hn) e).1 hmem).1

theorem wbaEventAssign_accepted {fd : ℤ} {events : BitVec 16} {fn : Option WbaEvtcbFn}
    {arg : CbArg} (h : (wbaEventAssign W i e j fd events fn arg).1 = 1) :
    (W i).hasFlag e wbaEvtlistReg = false := by
  unfold wbaEventAssign at h
  cases fn with
  | none => simp at h
  | some fn =>
      simp only at h
      split_ifs at h with hreg
      · simp at h
      · rwa [Bool.not_eq_true] at hreg

/-- In every run in which no event is assigned while it is active, an event that
`wba_event_assign` accepts is in no container, and all bases are consistent afterwards, exactly
when the event is not active. -/
theorem assign_safe_iff {K : Kernel κ} {k : ι → κ} (h : Interleaved K k W) (he : e ∈ (W i).heap)
    {fd : ℤ} {events : BitVec 16} {fn : Option WbaEvtcbFn} {arg : CbArg}
    (haccepted : (wbaEventAssign W i e j fd events fn arg).1 = 1) :
    Unlinked W e ∧ AllRepresented (wbaEventAssign W i e j fd events fn arg).2 ↔
      (W i).hasFlag e wbaEvtlistActive = false := by
  have hreg := wbaEventAssign_accepted haccepted
  constructor
  · intro hsafe
    obtain ⟨active, slot, hrep, hnot, -, -⟩ := hsafe.1 i
    have hcount := hrep.active_count e
    rw [List.count_eq_zero_of_not_mem hnot] at hcount
    rw [← Bool.not_eq_true]
    intro hset
    rw [if_pos ⟨he, hset⟩] at hcount
    exact absurd hcount (by decide)
  · intro hactive
    refine ⟨h.apart.unlinked he hreg hactive, ?_⟩
    apply Apart.allRepresented
    exact h.apart.wbaEventAssign (Or.inl he) (fun _ => hactive) j fd events fn arg

/-- The one base of `expiredBase` in the middle of an iteration: the callback of the event 0 has
been started, and the events 1 and 2 are still to be run. -/
def iteratingBases : Unit → WbaEvtbase SimState :=
  fun _ => expiredBase.eventProcessActiveBody simKernel 0

theorem interleaved_of_reachable {K : Kernel κ} {k : κ} (h : Reachable K k s) :
    Interleaved K (fun _ : Unit => k) fun _ => s := by
  induction h with
  | new hnew => exact Interleaved.new fun _ => ⟨_, _, _, _, hnew⟩
  | @step s t h op hop ih =>
      have hstep := ih.step () op hop fun j hj => absurd rfl hj
      have heq : Function.update (fun _ : Unit => s) () t = fun _ => t := by
        funext l
        exact Function.update_self _ _ _
      rwa [heq] at hstep

theorem interleaved_iteratingBases :
    Interleaved simKernel (fun _ : Unit => {}) iteratingBases := by
  have hmem : 0 ∈ expiredBase.heap := by decide +kernel
  apply interleaved_of_reachable
  apply reachable_expiredBase.step (.processActive 0 [])
  simp only [runOp, if_pos hmem]
  rfl

/-- A callback can assign an event that has expired and is still to be run. It is accepted, and
the event is on the active list. -/
theorem not_unlinked_iteratingBases :
    Interleaved simKernel (fun _ : Unit => {}) iteratingBases ∧ 1 ∈ (iteratingBases ()).heap ∧
      (wbaEventAssign iteratingBases () 1 () (-1) 0 (some 1) .null).1 = 1 ∧
      ¬ Unlinked iteratingBases 1 := by
  refine ⟨interleaved_iteratingBases, by decide +kernel, by decide +kernel, fun hunlinked => ?_⟩
  obtain ⟨active, slot, hrep, hnot, -, -⟩ := hunlinked ()
  have hcount := hrep.active_count 1
  rw [List.count_eq_zero_of_not_mem hnot, if_pos (by decide +kernel)] at hcount
  exact absurd hcount (by decide)

/-- The event whose callback is running is not active any more and can be assigned. -/
theorem assign_safe_iteratingBases :
    Unlinked iteratingBases 0 ∧ AllRepresented
      (wbaEventAssign iteratingBases () 0 () 7 wbaEvtWrite (some 1) .null).2 :=
  (assign_safe_iff interleaved_iteratingBases (by decide +kernel) (by decide +kernel)).2
    (by decide +kernel)

end WbaEvtbase

end Miscellany
