import Mathlib.Algebra.BigOperators.Ring.Finset
import Mathlib.Algebra.Order.BigOperators.Group.Finset
import Miscellany.EventLoop.Expiry

/-!
# Reachable bases

A base is used in steps: the calls of the interface, waiting, the activation of a
slot, `event_process_timeout` and one round of `event_process_active`, whose callback
may make any calls. A run of such steps from `wba_evtbase_new` never gets stuck, and
the representation invariant holds after each step.
-/

namespace Miscellany

open ListHead

namespace WbaEvtbase

variable {κ : Type*} (K : Kernel κ)

/-! ### Runs -/

/-- A step in the life of a base. -/
inductive Op where
  /-- A call of the interface. -/
  | call (c : Call)
  /-- `event_next_timeout` and `epoll_wait`. -/
  | wait
  /-- `event_map_active`. -/
  | mapActive (fd : ℤ) (events : BitVec 16)
  /-- `event_process_timeout`. -/
  | processTimeout
  /-- One round of `event_process_active`, in which the callback makes the given calls. -/
  | processActive (e : EvtId) (calls : List Call)
deriving DecidableEq

/-- The effect of a step; `none` is a step that does not end. -/
def runOp (s : WbaEvtbase κ) : Op → Option (WbaEvtbase κ)
  | .call c => some (s.runCall K c)
  | .wait => some (s.eventWait K).2
  | .mapActive fd events => s.eventMapActive fd events
  | .processTimeout => some (s.eventProcessTimeout K).2
  | .processActive e calls =>
      if e ∈ s.heap then some ((s.eventProcessActiveBody K e).runCalls K calls) else some s

def run (s : WbaEvtbase κ) (ops : List Op) : Option (WbaEvtbase κ) :=
  ops.foldlM (fun s op => s.runOp K op) s

/-- The bases that occur in a run that starts with the kernel in the state `k`. -/
inductive Reachable (k : κ) : WbaEvtbase κ → Prop where
  | new {epfd : ℤ} {mallocBase mallocEvents mallocList : Bool} {s : WbaEvtbase κ}
      (hnew : wbaEvtbaseNew k epfd mallocBase mallocEvents mallocList = some s) : Reachable k s
  | step {s t : WbaEvtbase κ} (h : Reachable k s) (op : Op) (hop : s.runOp K op = some t) :
      Reachable k t

/-! ### The new base -/

theorem ring_initSlots (L : Links ℕ EvtId) {n i : ℕ} (hi : i < n) :
    Ring (initSlots n L) i [] := by
  induction n with
  | zero => simp at hi
  | succ n ih =>
      by_cases hin : i = n
      · subst hin
        exact Ring.ofInit _ _
      · have hne : (head i : ListHead ℕ EvtId) ≠ head n := by simpa using hin
        refine (ih (by omega)).congr (fun y hy => ?_) fun y hy => ?_
        · obtain rfl : y = head i := by simpa using hy
          exact Function.update_of_ne hne _ _
        · obtain rfl : y = head i := by simpa using hy
          exact Function.update_of_ne hne _ _

theorem wellFormed_new {k : κ} {epfd : ℤ} {mallocBase mallocEvents mallocList : Bool}
    {s : WbaEvtbase κ} (hnew : wbaEvtbaseNew k epfd mallocBase mallocEvents mallocList = some s) :
    WellFormed s [] fun _ => [] := by
  unfold wbaEvtbaseNew at hnew
  split_ifs at hnew
  cases hnew
  refine ⟨⟨Ring.ofInit _ _, by simp, by simp⟩, ⟨rfl, rfl, fun i hi => ring_initSlots _ hi, ?_, ?_⟩,
    ⟨?_, ?_, ?_, ?_⟩, by simp, by simp, List.nodup_nil⟩
  all_goals simp

/-! ### Steps keep the invariant -/

variable {s : WbaEvtbase κ} {active : List EvtId} {e : EvtId}

/-- Waiting only changes the kernel. -/
theorem eventWait_eq (s : WbaEvtbase κ) : ∃ k, (s.eventWait K).2 = { s with kernel := k } := by
  have hnext : ∃ k, (s.eventNextTimeout K).2 = { s with kernel := k } := by
    unfold eventNextTimeout
    cases s.evtTimeRoot.rbFirst with
    | none => exact ⟨s.kernel, rfl⟩
    | some e =>
        simp only
        cases (s.eventTimeget K).1 with
        | none => exact ⟨_, rfl⟩
        | some now =>
            simp only
            split_ifs <;> exact ⟨_, rfl⟩
  obtain ⟨k, hk⟩ := hnext
  unfold eventWait
  simp only [hk]
  exact ⟨_, rfl⟩

theorem Consistent.setKernel (h : Consistent s active) (k : κ) :
    Consistent { s with kernel := k } active := by
  obtain ⟨slot, hwf⟩ := h
  exact ⟨slot, hwf.setKernel k⟩

theorem Consistent.eventRemoveActive (h : Consistent s active) (he : e ∈ s.heap) :
    Consistent (s.eventRemoveActive e) (active.erase e) := by
  obtain ⟨slot, hwf⟩ := h
  exact ⟨slot, hwf.eventRemoveActive he⟩

/-- A round of `event_process_active` takes the event off the active list before it invokes the
callback. -/
theorem Consistent.eventProcessActiveBody (h : Consistent s active) (he : e ∈ s.heap) :
    Consistent (s.eventProcessActiveBody K e) (active.erase e) := by
  have hremove := h.eventRemoveActive he
  unfold WbaEvtbase.eventProcessActiveBody eventReschedule
  split_ifs
  · exact (hremove.setKernel _).eventAdd K e _ true
  · exact hremove
  · exact h.eventDel K e

theorem Consistent.runOp (h : Consistent s active) (op : Op) :
    ∃ t active', s.runOp K op = some t ∧ Consistent t active' := by
  cases op with
  | call c => exact ⟨_, _, rfl, h.runCall K c⟩
  | wait =>
      obtain ⟨k, hk⟩ := eventWait_eq K s
      refine ⟨_, active, rfl, ?_⟩
      rw [hk]
      exact h.setKernel k
  | mapActive fd events =>
      obtain ⟨slot, hwf⟩ := h
      obtain ⟨t, fresh, heq, hwf', -, -⟩ := hwf.eventMapActive fd events
      exact ⟨t, _, heq, slot, hwf'⟩
  | processTimeout =>
      obtain ⟨active', h'⟩ := h.eventProcessTimeout K
      exact ⟨_, active', rfl, h'⟩
  | processActive e calls =>
      by_cases he : e ∈ s.heap
      · refine ⟨_, _, ?_, (h.eventProcessActiveBody K he).runCalls K calls⟩
        simp only [WbaEvtbase.runOp, if_pos he]
      · exact ⟨s, active, by simp only [WbaEvtbase.runOp, if_neg he], h⟩

theorem Consistent.run (h : Consistent s active) (ops : List Op) :
    ∃ t active', s.run K ops = some t ∧ Consistent t active' := by
  induction ops generalizing s active with
  | nil => exact ⟨s, active, rfl, h⟩
  | cons op ops ih =>
      obtain ⟨t, active', heq, h'⟩ := h.runOp K op
      obtain ⟨u, active'', heq', h''⟩ := ih h'
      refine ⟨u, active'', ?_, h''⟩
      simp only [WbaEvtbase.run, List.foldlM_cons, heq]
      exact heq'

theorem Reachable.consistent {k : κ} (h : Reachable K k s) : ∃ active, Consistent s active := by
  induction h with
  | new hnew => exact ⟨[], _, wellFormed_new hnew⟩
  | step _ op hop ih =>
      obtain ⟨active, hs⟩ := ih
      obtain ⟨t, active', heq, ht⟩ := hs.runOp K op
      obtain rfl : t = _ := Option.some.inj (heq.symm.trans hop)
      exact ⟨active', ht⟩

theorem Reachable.runCalls {k : κ} (h : Reachable K k s) (calls : List Call) :
    Reachable K k (s.runCalls K calls) := by
  induction calls generalizing s with
  | nil => exact h
  | cons c calls ih => exact ih (h.step (.call c) rfl)

/-! ### The representation -/

/-- The base holds the active list `active` and the slots `slot`; its flags and counters say what
is in the containers. -/
structure Represents (s : WbaEvtbase κ) (active : List EvtId) (slot : ℕ → List EvtId) : Prop where
  activeRing : Ring s.evtActiveList () active
  active_count : ∀ e, active.count e =
    if e ∈ s.heap ∧ s.hasFlag e wbaEvtlistActive = true then 1 else 0
  timer_count : ∀ e, s.evtTimeRoot.inorder.count e =
    if e ∈ s.heap ∧ s.hasFlag e wbaEvtlistTimeout = true then 1 else 0
  timeout_reg : ∀ e ∈ s.heap, s.hasFlag e wbaEvtlistTimeout = true →
    s.hasFlag e wbaEvtlistReg = true
  slotRing : ∀ i < s.size, Ring s.evtList i (slot i)
  slot_lt : ∀ e, s.slotOf e < s.size
  slot_count : ∀ i < s.size, ∀ e, (slot i).count e =
    if (e ∈ s.heap ∧ s.InMap e) ∧ s.slotOf e = i then 1 else 0
  used : s.used = ∑ i ∈ Finset.range s.size, ((slot i).length : ℤ)
  eventCount : s.eventCount =
    ∑ i ∈ Finset.range s.size, ((slot i).length : ℤ) + s.evtTimeRoot.inorder.length
  eventCountActive : s.eventCountActive = active.length

theorem count_eq_of_nodup {l : List EvtId} {p : Prop} [Decidable p] (hl : l.Nodup)
    (hmem : e ∈ l ↔ p) : l.count e = if p then 1 else 0 := by
  rw [hl.count]
  exact if_congr hmem rfl rfl

theorem WellFormed.represents {slot : ℕ → List EvtId} (h : WellFormed s active slot) :
    Represents s active slot := by
  have hsize := h.map.size
  refine ⟨h.active.ring, fun e => count_eq_of_nodup h.active.ring.nodup (h.active.mem e),
    fun e => count_eq_of_nodup h.timer.nodup (h.timer.mem e), h.timeout_reg,
    fun i hi => h.map.ring i (hsize ▸ hi), fun e => hsize ▸ h.map.slotOf_lt e,
    fun i hi e => ?_, hsize ▸ h.map.used, ?_, h.active.count⟩
  · refine count_eq_of_nodup (h.map.ring i (hsize ▸ hi)).nodup ?_
    rw [and_assoc]
    exact h.map.mem i (hsize ▸ hi) e
  · rw [h.count, h.map.used, hsize]

/-- The representation invariant: a run from a new base does not get stuck, and after its last
step the flags and counters describe the containers. -/
theorem run_represents {k : κ} {epfd : ℤ} {mallocBase mallocEvents mallocList : Bool}
    {s : WbaEvtbase κ} (hnew : wbaEvtbaseNew k epfd mallocBase mallocEvents mallocList = some s)
    (ops : List Op) :
    ∃ t active slot, s.run K ops = some t ∧ Represents t active slot := by
  have hs : Consistent s [] := ⟨_, wellFormed_new hnew⟩
  obtain ⟨t, active, heq, slot, ht⟩ := hs.run K ops
  exact ⟨t, active, slot, heq, ht.represents⟩

/-! ### The range of the counters -/

/-- A list without repetitions of allocated events is no longer than the list of all of them. -/
theorem length_le_heap {l : List EvtId} (hl : l.Nodup) (hmem : ∀ e ∈ l, e ∈ s.heap) :
    l.length ≤ s.heap.length := (hl.subperm hmem).length_le

theorem WellFormed.sum_slot_le {slot : ℕ → List EvtId} (h : WellFormed s active slot) :
    ∑ i ∈ Finset.range evtMapSize, (slot i).length ≤ s.heap.length := by
  have hslot : ∀ i ∈ Finset.range evtMapSize,
      (slot i).length ≤ (s.heap.toFinset.filter fun e => s.slotOf e = i).card := by
    intro i hi
    have hi' : i < evtMapSize := Finset.mem_range.1 hi
    rw [← List.toFinset_card_of_nodup (h.map.ring i hi').nodup]
    apply Finset.card_le_card
    intro e he
    obtain ⟨hheap, -, hof⟩ := (h.map.mem i hi' e).1 (List.mem_toFinset.1 he)
    exact Finset.mem_filter.2 ⟨List.mem_toFinset.2 hheap, hof⟩
  have hmaps : ∀ e ∈ s.heap.toFinset, s.slotOf e ∈ Finset.range evtMapSize :=
    fun e _ => Finset.mem_range.2 (h.map.slotOf_lt e)
  calc ∑ i ∈ Finset.range evtMapSize, (slot i).length
      ≤ ∑ i ∈ Finset.range evtMapSize, (s.heap.toFinset.filter fun e => s.slotOf e = i).card :=
        Finset.sum_le_sum hslot
    _ = s.heap.toFinset.card := (Finset.card_eq_sum_card_fiberwise hmaps).symm
    _ ≤ s.heap.length := List.toFinset_card_le s.heap

/-- With fewer than `2 ^ 31` events the counters are in the range of `u32` after every step. -/
theorem run_counters {k : κ} {epfd : ℤ} {mallocBase mallocEvents mallocList : Bool}
    {s t : WbaEvtbase κ} (hnew : wbaEvtbaseNew k epfd mallocBase mallocEvents mallocList = some s)
    {ops : List Op} (hrun : s.run K ops = some t) (hheap : t.heap.length < 2 ^ 31) :
    ∀ n ∈ [t.used, t.eventCount, t.eventCountActive], 0 ≤ n ∧ n < 2 ^ 32 := by
  have hs : Consistent s [] := ⟨_, wellFormed_new hnew⟩
  obtain ⟨t', active, heq, slot, hwf⟩ := hs.run K ops
  obtain rfl : t = t' := Option.some.inj (hrun.symm.trans heq)
  have hused := hwf.map.used
  have hcount := hwf.count
  have hslots := hwf.sum_slot_le
  have hactive : active.length ≤ t.heap.length :=
    length_le_heap hwf.active.ring.nodup fun e he => ((hwf.active.mem e).1 he).1
  have htimer : t.evtTimeRoot.inorder.length ≤ t.heap.length :=
    length_le_heap hwf.timer.nodup fun e he => ((hwf.timer.mem e).1 he).1
  have hcountActive := hwf.active.count
  rw [← Nat.cast_sum] at hused
  simp only [List.forall_mem_cons, List.not_mem_nil, false_imp_iff, implies_true, and_true]
  omega

/-! ### A concrete kernel -/

/-- The state of a simulated kernel: the descriptors watched by `epoll`, the last reading of a
clock in microseconds that advances by `tick` at every reading, and the reports that
`epoll_wait` will give. -/
structure SimState where
  interest : List (ℤ × BitVec 32) := []
  now : ℕ := 0
  tick : ℕ := 0
  reports : List (List EpollEvent) := []
deriving DecidableEq

def simKernel : Kernel SimState where
  epollCtlAdd k fd mask :=
    if fd ∈ k.interest.map Prod.fst then (false, k)
    else (true, { k with interest := (fd, mask) :: k.interest })
  epollCtlDel k fd :=
    if fd ∈ k.interest.map Prod.fst then
      (true, { k with interest := k.interest.filter fun p => decide (p.1 ≠ fd) })
    else (false, k)
  epollWait k n _ := (some (k.reports.headD [] |>.take n), { k with reports := k.reports.tail })
  clockGettime k :=
    let now := k.now + k.tick
    (some ⟨now / 1000000, now % 1000000 * 1000⟩, { k with now := now })
  stack _ := ⟨0, 0⟩

/-- The base that `wba_evtbase_new` returns, with the kernel in the state `k`. -/
def newBase (k : κ) : WbaEvtbase κ := (wbaEvtbaseNew k 3 true true true).get rfl

theorem wbaEvtbaseNew_newBase (k : κ) :
    wbaEvtbaseNew k 3 true true true = some (newBase k) := rfl

theorem reachable_newBase (k : κ) (calls : List Call) :
    Reachable K k ((newBase k).runCalls K calls) :=
  (Reachable.new (wbaEvtbaseNew_newBase k)).runCalls K calls

/-- A reader and a persistent timer, one report, one expiry and two callbacks, of which the
second deletes the reader again. -/
theorem run_represents_sim :
    ∃ t active slot, (newBase { tick := 5 }).run simKernel
        [.call (.new (some 0) 7 wbaEvtRead (some 1) .null),
          .call (.new (some 1) (-1) wbaEvtPersist (some 1) .null),
          .call (.add 0 none), .call (.add 1 (some ⟨0, 1⟩)), .wait, .mapActive 7 wbaEvtRead,
          .processTimeout, .processActive 0 [.add 0 none], .processActive 1 [.del 0, .free 1]] =
      some t ∧ Represents t active slot :=
  run_represents simKernel (wbaEvtbaseNew_newBase _) _

/-- A reader with a timeout is in the map and in the tree. -/
theorem run_counters_sim :
    ∃ t, (newBase {}).run simKernel
        [.call (.new (some 0) 7 wbaEvtRead (some 1) .null), .call (.add 0 (some ⟨0, 1⟩))] =
      some t ∧ t.eventCount = 2 ∧ t.eventCount < 2 ^ 32 := by
  have hrun : ((newBase {}).run simKernel [.call (.new (some 0) 7 wbaEvtRead (some 1) .null),
      .call (.add 0 (some ⟨0, 1⟩))]).map (fun t => (t.heap.length, t.eventCount)) =
      some (1, 2) := by
    decide +kernel
  rw [Option.map_eq_some_iff] at hrun
  obtain ⟨t, ht, hcounts⟩ := hrun
  obtain ⟨hheap, hcount⟩ := Prod.mk.inj hcounts
  have hrange := run_counters simKernel (wbaEvtbaseNew_newBase _) ht (by omega)
  exact ⟨t, ht, hcount, (hrange t.eventCount (by simp)).2⟩

end WbaEvtbase

end Miscellany
