import Miscellany.EventLoop.AddDelete

/-!
# Freeing a base

`wba_evtbase_free` deletes the events of every slot of the map, frees the array of the
slots, and then deletes the events that are left in the time tree. Both loops delete
while they iterate: the first saves the next entry of the slot, the second the next node
of the tree. The two loops are kept apart here, since the slots may not be touched any
more in the second one; releasing the memory itself is left out.

Each loop deletes a list of events one by one (`Freeing.delAll`), the first one the
contents of the slots, the second one what is left of the time tree. Between them, they
delete each event that was in one of these containers exactly once.
-/

namespace Miscellany

open ListHead WbaEvtbase

/-! ### The loops -/

/-- The base while it is freed, with the variable `cnt` and the calls of `event_del` so far: the
base in which a call was made and its argument. -/
structure Freeing (κ : Type*) where
  base : WbaEvtbase κ
  cnt : ℤ
  calls : List (WbaEvtbase κ × EvtId)

namespace Freeing

variable {κ : Type*} (K : Kernel κ)

/-- The body of both loops. -/
def del (st : Freeing κ) (e : EvtId) : Freeing κ :=
  { base := (st.base.eventDel K e).2
    cnt := st.cnt + 1
    calls := st.calls ++ [(st.base, e)] }

/-- The loop over one slot, from the entry `evt` on. A round takes an event out of the slot, so
there are at most as many rounds as events; `none` stands for a walk that does not end, and for a
null link. -/
def slotLoop : ℕ → Option (ListHead ℕ EvtId) → Freeing κ → Option (Freeing κ)
  | _, none, _ => none
  | _, some (head _), st => some st
  | 0, some (entry _), _ => none
  | fuel + 1, some (entry e), st =>
      let te := st.base.evtList.next (entry e)
      slotLoop fuel te (st.del K e)

/-- The first loop, over all slots. -/
def mapLoop (st : Freeing κ) : Option (Freeing κ) :=
  (List.range st.base.size).foldlM
    (fun st i => slotLoop K st.base.heap.length (st.base.evtList.next (head i)) st) st

/-- The second loop, over the time tree from `node` on. -/
def timeLoop : ℕ → Option EvtId → Freeing κ → Option (Freeing κ)
  | _, none, st => some st
  | 0, some _, _ => none
  | fuel + 1, some tn, st =>
      let node := st.base.evtTimeRoot.rbNext tn
      timeLoop fuel node (st.del K tn)

end Freeing

namespace WbaEvtbase

variable {κ : Type*} (K : Kernel κ)

/-- The first loop of `wba_evtbase_free`. -/
def freeMap (s : WbaEvtbase κ) : Option (Freeing κ) := Freeing.mapLoop K ⟨s, 0, []⟩

/-- The second loop of `wba_evtbase_free`. -/
def freeTimers (st : Freeing κ) : Option (Freeing κ) :=
  Freeing.timeLoop K st.base.evtTimeRoot.size st.base.evtTimeRoot.rbFirst st

/-- `wba_evtbase_free` up to the release of the memory. -/
def wbaEvtbaseFree (s : WbaEvtbase κ) : Option (Freeing κ) := (s.freeMap K).bind (freeTimers K)

/-- The bases outside callbacks: those that the main program sets up by calls, those that an
iteration of the loop leaves, and those in which `epoll_wait` has failed. -/
inductive Outside (k : κ) : WbaEvtbase κ → Prop where
  | new {epfd : ℤ} {mallocBase mallocEvents mallocList : Bool} {s : WbaEvtbase κ}
      (hnew : wbaEvtbaseNew k epfd mallocBase mallocEvents mallocList = some s) : Outside k s
  | call {s : WbaEvtbase κ} (h : Outside k s) (c : Call) : Outside k (s.runCall K c)
  | iterate {s s' t : WbaEvtbase κ} (h : Outside k s) (cbs : Callbacks κ)
      (hcollect : s.eventCollect K = some s') {fuel cnt : ℕ} {tr : List (Invocation κ)}
      (hrun : s'.eventProcessActive K cbs fuel = some (cnt, t, tr)) : Outside k t
  | waitFails {s : WbaEvtbase κ} (h : Outside k s) (hwait : (s.eventWait K).1 = none) :
      Outside k (s.eventWait K).2

variable {K} {s t : WbaEvtbase κ} {active : List EvtId} {slot : ℕ → List EvtId} {e : EvtId}

/-- Outside callbacks no event is active. -/
theorem Outside.consistent {k : κ} (h : Outside K k s) : Consistent s [] := by
  induction h with
  | new hnew => exact ⟨_, wellFormed_new hnew⟩
  | call hs c ih => exact ih.runCall_nil K c
  | iterate hs cbs hcollect hrun ih => exact ih.iterate K hcollect hrun
  | @waitFails s hs hwait ih =>
      obtain ⟨k', hk⟩ := eventWait_eq K s
      rw [hk]
      exact ih.setKernel k'

end WbaEvtbase

/-! ### Deleting a list of events -/

namespace Freeing

variable {κ : Type*} {K : Kernel κ} {st : Freeing κ}
variable {active xs : List EvtId} {slot : ℕ → List EvtId} {e : EvtId}

/-- The body of the loops for each event of a list. -/
def delAll (K : Kernel κ) (xs : List EvtId) (st : Freeing κ) : Freeing κ := xs.foldl (del K) st

theorem delAll_append (xs ys : List EvtId) (st : Freeing κ) :
    delAll K (xs ++ ys) st = delAll K ys (delAll K xs st) := List.foldl_append

theorem delAll_heap (xs : List EvtId) (st : Freeing κ) :
    (delAll K xs st).base.heap = st.base.heap := by
  induction xs generalizing st with
  | nil => rfl
  | cons x xs ih => exact (ih (st.del K x)).trans (flagsOnly_eventDel K st.base x).1

theorem delAll_cnt (xs : List EvtId) (st : Freeing κ) :
    (delAll K xs st).cnt = st.cnt + xs.length := by
  induction xs generalizing st with
  | nil => simp [delAll]
  | cons x xs ih =>
      have hrest := ih (st.del K x)
      change (delAll K xs (st.del K x)).cnt = st.cnt + (xs.length + 1 : ℕ)
      rw [hrest]
      push_cast
      change st.cnt + 1 + xs.length = st.cnt + (xs.length + 1)
      omega

/-- The calls that are made: each event of the list once, in order, in the base that the calls
before it have left. -/
theorem delAll_calls (xs : List EvtId) (st : Freeing κ) :
    ∃ new, (delAll K xs st).calls = st.calls ++ new ∧ new.map Prod.snd = xs ∧
      ∀ c ∈ new, ∃ us vs, xs = us ++ c.2 :: vs ∧ c.1 = (delAll K us st).base := by
  induction xs generalizing st with
  | nil => exact ⟨[], by simp [delAll], rfl, by simp⟩
  | cons x xs ih =>
      obtain ⟨new, hcalls, hsnd, hnew⟩ := ih (st.del K x)
      refine ⟨(st.base, x) :: new, ?_, ?_, ?_⟩
      · change (delAll K xs (st.del K x)).calls = _
        rw [hcalls]
        change st.calls ++ [(st.base, x)] ++ new = _
        rw [List.append_assoc, List.singleton_append]
      · rw [List.map_cons, hsnd]
      · intro c hc
        rcases List.mem_cons.1 hc with rfl | hc
        · exact ⟨[], xs, rfl, rfl⟩
        · obtain ⟨us, vs, hsplit, hbase⟩ := hnew c hc
          refine ⟨x :: us, vs, ?_, hbase⟩
          rw [hsplit, List.cons_append]

theorem map_snd_delAll (xs : List EvtId) (st : Freeing κ) :
    (delAll K xs st).calls.map Prod.snd = st.calls.map Prod.snd ++ xs := by
  obtain ⟨new, hcalls, hsnd, -⟩ := delAll_calls (K := K) xs st
  rw [hcalls, List.map_append, hsnd]

theorem mem_heap_del {x : EvtId} (hxs : ∀ y ∈ xs, y ∈ st.base.heap) :
    ∀ y ∈ xs, y ∈ (st.del K x).base.heap := by
  intro y hy
  change y ∈ (st.base.eventDel K x).2.heap
  rw [(flagsOnly_eventDel K st.base x).1]
  exact hxs y hy

theorem wellFormed_delAll (h : WellFormed st.base active slot)
    (hxs : ∀ x ∈ xs, x ∈ st.base.heap) :
    WellFormed (delAll K xs st).base (active.diff xs) (fun i => (slot i).diff xs) := by
  induction xs generalizing st active slot with
  | nil => exact h
  | cons x xs ih =>
      rw [List.forall_mem_cons] at hxs
      have hdel : WellFormed (st.del K x).base (active.erase x) (fun i => (slot i).erase x) :=
        h.eventDel K hxs.1
      have hrest := ih hdel (mem_heap_del hxs.2)
      simp only [List.diff_cons]
      exact hrest

theorem inorder_delAll (h : WellFormed st.base active slot)
    (hxs : ∀ x ∈ xs, x ∈ st.base.heap) :
    (delAll K xs st).base.evtTimeRoot.inorder = st.base.evtTimeRoot.inorder.diff xs := by
  induction xs generalizing st active slot with
  | nil => rfl
  | cons x xs ih =>
      rw [List.forall_mem_cons] at hxs
      have hdel : WellFormed (st.del K x).base (active.erase x) (fun i => (slot i).erase x) :=
        h.eventDel K hxs.1
      rw [List.diff_cons, ← h.inorder_eventDel K hxs.1]
      exact ih hdel (mem_heap_del hxs.2)

/-- Nothing is left in the time tree when all its events have been deleted. -/
theorem inorder_delAll_inorder (h : WellFormed st.base active slot) :
    (delAll K st.base.evtTimeRoot.inorder st).base.evtTimeRoot.inorder = [] := by
  rw [inorder_delAll h fun x hx => ((h.timer.mem x).1 hx).1, h.timer.nodup.sdiff_eq_filter,
    List.filter_eq_nil_iff]
  intro x hx
  simpa using hx

theorem evt_delAll_of_notMem (he : e ∉ xs) (st : Freeing κ) :
    (delAll K xs st).base.evt e = st.base.evt e := by
  induction xs generalizing st with
  | nil => rfl
  | cons x xs ih =>
      rw [List.mem_cons, not_or] at he
      exact (ih he.2 (st.del K x)).trans ((flagsOnly_eventDel K st.base x).evt_of_ne he.1)

/-- The event is neither active nor registered, and has no timer. -/
def Cleared (s : WbaEvtbase κ) (e : EvtId) : Prop :=
  s.hasFlag e wbaEvtlistActive = false ∧ s.hasFlag e wbaEvtlistTimeout = false ∧
    s.hasFlag e wbaEvtlistReg = false

theorem cleared_delAll (h : WellFormed st.base active slot)
    (hxs : ∀ x ∈ xs, x ∈ st.base.heap) (he : e ∈ xs) : Cleared (delAll K xs st).base e := by
  induction xs generalizing st active slot with
  | nil => cases he
  | cons x xs ih =>
      rw [List.forall_mem_cons] at hxs
      by_cases hrest : e ∈ xs
      · have hdel : WellFormed (st.del K x).base (active.erase x) (fun i => (slot i).erase x) :=
          h.eventDel K hxs.1
        exact ih hdel (mem_heap_del hxs.2) hrest
      · obtain rfl := (List.mem_cons.1 he).resolve_right hrest
        have hclear := h.hasFlag_eventDel K hxs.1
        have hevt := evt_delAll_of_notMem (K := K) hrest (st.del K e)
        rw [Cleared, hasFlag, hasFlag, hasFlag]
        change hasAny ((delAll K xs (st.del K e)).base.evt e).flags _ = false ∧
          hasAny ((delAll K xs (st.del K e)).base.evt e).flags _ = false ∧
          hasAny ((delAll K xs (st.del K e)).base.evt e).flags _ = false
        rw [hevt]
        exact hclear

/-! ### The loops delete lists of events -/

/-- The loop over a slot deletes its events. -/
theorem slotLoop_eq {i fuel : ℕ} (hi : i < evtMapSize) (h : WellFormed st.base active slot)
    (hfuel : (slot i).length ≤ fuel) :
    slotLoop K fuel (st.base.evtList.next (head i)) st = some (delAll K (slot i) st) := by
  induction fuel generalizing st active slot with
  | zero =>
      have hnil : slot i = [] := List.eq_nil_of_length_eq_zero (by omega)
      rw [(h.map.ring i hi).next_head, hnil]
      rfl
  | succ fuel ih =>
      have hring := h.map.ring i hi
      cases hxs : slot i with
      | nil =>
          rw [hring.next_head, hxs]
          rfl
      | cons x xs =>
          have hx : x ∈ st.base.heap := ((h.map.mem i hi x).1 (hxs ▸ List.mem_cons_self)).1
          have hdel : WellFormed (st.del K x).base (active.erase x)
              (fun j => (slot j).erase x) := h.eventDel K hx
          have hslot : (slot i).erase x = xs := by rw [hxs, List.erase_cons_head]
          have hnext : st.base.evtList.next (entry x) =
              (st.del K x).base.evtList.next (head i) := by
            have hring' : Ring st.base.evtList i ([] ++ x :: xs) := hxs ▸ hring
            rw [(hdel.map.ring i hi).next_head, hslot, hring'.next_entry]
          have hlen : ((slot i).erase x).length ≤ fuel := by
            rw [hxs, List.length_cons] at hfuel
            rw [hslot]
            omega
          have hrest := ih hdel hlen
          rw [hring.next_head, hxs]
          simp only [List.map_cons, List.headD_cons, slotLoop]
          rw [hnext]
          rw [hslot] at hrest
          exact hrest

/-- Deleting the events of one slot leaves the others as they are. -/
theorem diff_slot (h : MapInv st.base slot) {i j : ℕ} (hi : i < evtMapSize) (hj : j < evtMapSize)
    (hne : j ≠ i) : (slot j).diff (slot i) = slot j := by
  rw [(h.ring j hj).nodup.sdiff_eq_filter, List.filter_eq_self]
  intro d hd
  rw [decide_eq_true_iff]
  intro hd'
  exact hne (h.eq_of_mem hj hi hd hd')

theorem mapLoop_foldlM (h : WellFormed st.base active slot) {is : List ℕ}
    (his : ∀ i ∈ is, i < evtMapSize) (hnodup : is.Nodup) :
    is.foldlM (fun st i => slotLoop K st.base.heap.length (st.base.evtList.next (head i)) st) st =
      some (delAll K (is.flatMap slot) st) := by
  induction is generalizing st active slot with
  | nil => rfl
  | cons i is ih =>
      rw [List.forall_mem_cons] at his
      rw [List.nodup_cons] at hnodup
      have hheap : ∀ x ∈ slot i, x ∈ st.base.heap := fun x hx => ((h.map.mem i his.1 x).1 hx).1
      have hfuel : (slot i).length ≤ st.base.heap.length :=
        (List.subperm_of_subset (h.map.ring i his.1).nodup hheap).length_le
      have hrest := ih (wellFormed_delAll (K := K) h hheap) his.2 hnodup.2
      have hsame : is.flatMap (fun j => (slot j).diff (slot i)) = is.flatMap slot := by
        apply List.flatMap_congr
        intro j hj
        apply diff_slot h.map his.1 (his.2 j hj)
        rintro rfl
        exact hnodup.1 hj
      rw [List.foldlM_cons, slotLoop_eq his.1 h hfuel, List.flatMap_cons, delAll_append, ← hsame]
      exact hrest

/-- The second loop deletes the events of the time tree. -/
theorem timeLoop_eq (h : WellFormed st.base active slot) {fuel : ℕ}
    (hfuel : st.base.evtTimeRoot.inorder.length ≤ fuel) :
    timeLoop K fuel st.base.evtTimeRoot.inorder.head? st =
      some (delAll K st.base.evtTimeRoot.inorder st) := by
  induction fuel generalizing st active slot with
  | zero =>
      have hnil : st.base.evtTimeRoot.inorder = [] := List.eq_nil_of_length_eq_zero (by omega)
      rw [hnil]
      rfl
  | succ fuel ih =>
      cases hin : st.base.evtTimeRoot.inorder with
      | nil => rfl
      | cons x xs =>
          have hx : x ∈ st.base.heap := ((h.timer.mem x).1 (hin ▸ List.mem_cons_self)).1
          have hdel : WellFormed (st.del K x).base (active.erase x)
              (fun j => (slot j).erase x) := h.eventDel K hx
          have hnext : st.base.evtTimeRoot.rbNext x = xs.head? := by
            have hin' : st.base.evtTimeRoot.inorder = [] ++ x :: xs := hin
            exact RbTree.rbNext_eq hin' h.timer.nodup
          have hxs : (st.del K x).base.evtTimeRoot.inorder = xs := by
            change (st.base.eventDel K x).2.evtTimeRoot.inorder = xs
            rw [h.inorder_eventDel K hx, hin, List.erase_cons_head]
          have hlen : (st.del K x).base.evtTimeRoot.inorder.length ≤ fuel := by
            rw [hin, List.length_cons] at hfuel
            rw [hxs]
            omega
          have hrest := ih hdel hlen
          rw [hxs] at hrest
          simp only [List.head?_cons, timeLoop, hnext]
          exact hrest

end Freeing

namespace WbaEvtbase

variable {κ : Type*} {K : Kernel κ} {s : WbaEvtbase κ} {st : Freeing κ}
variable {active : List EvtId} {slot : ℕ → List EvtId} {e : EvtId}

open Freeing

/-- The events of the map, slot by slot. -/
def mapped (slot : ℕ → List EvtId) : List EvtId := (List.range evtMapSize).flatMap slot

theorem WellFormed.mem_mapped (h : WellFormed s active slot) (e : EvtId) :
    e ∈ mapped slot ↔ e ∈ s.heap ∧ s.InMap e := by
  rw [mapped, List.mem_flatMap]
  constructor
  · rintro ⟨i, hi, he⟩
    obtain ⟨hheap, hin, -⟩ := (h.map.mem i (List.mem_range.1 hi) e).1 he
    exact ⟨hheap, hin⟩
  · rintro ⟨hheap, hin⟩
    have hlt := h.map.slotOf_lt e
    exact ⟨s.slotOf e, List.mem_range.2 hlt, (h.map.mem _ hlt e).2 ⟨hheap, hin, rfl⟩⟩

theorem WellFormed.nodup_mapped (h : WellFormed s active slot) : (mapped slot).Nodup := by
  rw [mapped, List.nodup_flatMap]
  constructor
  · intro i hi
    exact (h.map.ring i (List.mem_range.1 hi)).nodup
  · apply List.Nodup.pairwise_of_forall_ne List.nodup_range
    intro i hi j hj hne d hdi hdj
    exact hne (h.map.eq_of_mem (List.mem_range.1 hi) (List.mem_range.1 hj) hdi hdj)

theorem WellFormed.freeMap_eq (h : WellFormed s active slot) :
    s.freeMap K = some (delAll K (mapped slot) ⟨s, 0, []⟩) := by
  have hst : WellFormed (⟨s, 0, []⟩ : Freeing κ).base active slot := h
  rw [freeMap, mapLoop, hst.map.size]
  exact mapLoop_foldlM hst (fun i hi => List.mem_range.1 hi) List.nodup_range

theorem WellFormed.freeTimers_eq (h : WellFormed st.base active slot) :
    freeTimers K st = some (delAll K st.base.evtTimeRoot.inorder st) := by
  rw [freeTimers, RbTree.rbFirst_eq, ← RbTree.length_inorder]
  exact timeLoop_eq h le_rfl

theorem WellFormed.evtList_eventDel (h : WellFormed s active slot) (he : e ∈ s.heap)
    (hout : ¬ s.InMap e) : (s.eventDel K e).2.evtList = s.evtList := by
  have hremove : ((s.eventRemoveTimeout e).eventRemoveActive e).evtList = s.evtList := by
    unfold WbaEvtbase.eventRemoveActive WbaEvtbase.eventRemoveTimeout
    split_ifs <;> rfl
  have hout' : ¬ ((s.eventRemoveTimeout e).eventRemoveActive e).InMap e := by
    rw [inMap_of_sameBut (sameBut_eventRemoveActive _ e) (by decide),
      inMap_of_sameBut (sameBut_eventRemoveTimeout s e) (by decide)]
    exact hout
  rw [h.eventDel_eq K he, ← hremove]
  rcases eventDelReg_cases K ((s.eventRemoveTimeout e).eventRemoveActive e) e with
    ⟨heq, -⟩ | ⟨heq, -⟩ | ⟨ok, k, -, -, -, hin⟩
  · rw [heq]
  · rw [heq]
    rfl
  · exact absurd hin hout'

/-- The call of `event_del` does not reach the part of `event_map_remove` that unlinks the event
from its slot. -/
def SparesSlots (K : Kernel κ) (c : WbaEvtbase κ × EvtId) : Prop :=
  ¬ c.1.InMap c.2 ∧ (c.1.eventDel K c.2).2.evtList = c.1.evtList

/-- What the two loops of `wba_evtbase_free` leave, of which the second one starts in `st` and ends
in `st'`. -/
structure Drained (K : Kernel κ) (s : WbaEvtbase κ) (st st' : Freeing κ) : Prop where
  lists : Represents st'.base [] fun _ => []
  inorder : st'.base.evtTimeRoot.inorder = []
  used : st'.base.used = 0
  eventCount : st'.base.eventCount = 0
  eventCountActive : st'.base.eventCountActive = 0
  /-- Each event of the map or the tree has been deleted exactly once, and no other one. -/
  deleted : ∃ es : List EvtId, es.Nodup ∧ (∀ e, e ∈ es ↔ s.InContainers e) ∧
    st'.calls.map Prod.snd = es ∧ st'.cnt = es.length
  cleared : ∀ e, s.InContainers e → Cleared st'.base e
  spares : ∃ later, st'.calls = st.calls ++ later ∧ ∀ c ∈ later, SparesSlots K c

/-- After the first loop all slots are empty. -/
theorem WellFormed.delAll_mapped (h : WellFormed s [] slot) :
    WellFormed (delAll K (mapped slot) ⟨s, 0, []⟩).base [] fun _ => [] := by
  have hst : WellFormed (⟨s, 0, []⟩ : Freeing κ).base [] slot := h
  have hdel := wellFormed_delAll (K := K) hst fun y hy => ((h.mem_mapped y).1 hy).1
  rw [List.nil_diff] at hdel
  refine { hdel with map := hdel.map.congr_slot fun i hi => ?_ }
  rw [(h.map.ring i hi).nodup.sdiff_eq_filter, List.filter_eq_nil_iff]
  intro e he
  have hmem : e ∈ mapped slot := List.mem_flatMap.2 ⟨i, List.mem_range.2 hi, he⟩
  simpa using hmem

/-- Nothing of a base with empty slots is in the map. -/
theorem WellFormed.not_inMap (h : WellFormed s active fun _ => []) (he : e ∈ s.heap) :
    ¬ s.InMap e := by
  intro hin
  have hlt := h.map.slotOf_lt e
  exact absurd ((h.map.mem _ hlt e).2 ⟨he, hin, rfl⟩) List.not_mem_nil

/-- The second loop, in a base whose slots are empty. -/
theorem WellFormed.spares_delAll (h : WellFormed st.base [] fun _ => []) {zs : List EvtId}
    (hzs : ∀ z ∈ zs, z ∈ st.base.heap) :
    WellFormed (delAll K zs st).base [] (fun _ => []) ∧
      ∃ later, (delAll K zs st).calls = st.calls ++ later ∧ ∀ c ∈ later, SparesSlots K c := by
  have hpart : ∀ us, (∀ u ∈ us, u ∈ st.base.heap) →
      WellFormed (delAll K us st).base [] fun _ => [] := by
    intro us hus
    have hdel := wellFormed_delAll (K := K) h hus
    simp only [List.nil_diff] at hdel
    exact hdel
  refine ⟨hpart zs hzs, ?_⟩
  obtain ⟨later, hcalls, -, hlater⟩ := delAll_calls (K := K) zs st
  refine ⟨later, hcalls, fun c hc => ?_⟩
  obtain ⟨us, vs, hsplit, hbase⟩ := hlater c hc
  have hwf : WellFormed c.1 [] fun _ => [] := by
    rw [hbase]
    apply hpart
    intro u hu
    apply hzs
    rw [hsplit]
    exact List.mem_append_left _ hu
  have hmem : c.2 ∈ c.1.heap := by
    rw [hbase, delAll_heap]
    apply hzs
    rw [hsplit]
    exact List.mem_append_right _ List.mem_cons_self
  exact ⟨hwf.not_inMap hmem, hwf.evtList_eventDel hmem (hwf.not_inMap hmem)⟩

/-- The events of the map and, behind them, the timers that are not among them. -/
theorem WellFormed.mapped_append (h : WellFormed s active slot) :
    (mapped slot ++ s.evtTimeRoot.inorder.diff (mapped slot)).Nodup ∧
      ∀ e, e ∈ mapped slot ++ s.evtTimeRoot.inorder.diff (mapped slot) ↔ s.InContainers e := by
  have hdiff : ∀ e, e ∈ s.evtTimeRoot.inorder.diff (mapped slot) ↔
      e ∈ s.evtTimeRoot.inorder ∧ e ∉ mapped slot := fun e => h.timer.nodup.mem_sdiff_iff
  constructor
  · rw [List.nodup_append]
    refine ⟨h.nodup_mapped, h.timer.nodup.diff, ?_⟩
    rintro e he _ he' rfl
    exact ((hdiff e).1 he').2 he
  · intro e
    rw [List.mem_append, hdiff, h.mem_mapped]
    by_cases he : e ∈ s.heap
    · rw [h.inContainers_iff he, h.timer.mem]
      tauto
    · have hout : ¬ s.InContainers e := fun hin => he (h.mem_heap_of_inContainers hin)
      have hnot : e ∉ s.evtTimeRoot.inorder := fun hin => he ((h.timer.mem e).1 hin).1
      tauto

/-- `wba_evtbase_free` drains a base that is outside callbacks. -/
theorem wbaEvtbaseFree_drained {k : κ} (h : Outside K k s) :
    ∃ st st', s.freeMap K = some st ∧ freeTimers K st = some st' ∧
      s.wbaEvtbaseFree K = some st' ∧ Drained K s st st' := by
  obtain ⟨slot, hwf⟩ := h.consistent
  have hst0 : WellFormed (⟨s, 0, []⟩ : Freeing κ).base [] slot := hwf
  have hys : ∀ y ∈ mapped slot, y ∈ (⟨s, 0, []⟩ : Freeing κ).base.heap :=
    fun y hy => ((hwf.mem_mapped y).1 hy).1
  have hmap := hwf.freeMap_eq (K := K)
  have hst := hwf.delAll_mapped (K := K)
  have hin := inorder_delAll (K := K) hst0 hys
  set st := delAll K (mapped slot) (⟨s, 0, []⟩ : Freeing κ) with hstdef
  set zs := st.base.evtTimeRoot.inorder
  have htime := hst.freeTimers_eq (K := K)
  have hzs : ∀ z ∈ zs, z ∈ st.base.heap := fun z hz => ((hst.timer.mem z).1 hz).1
  have hboth : delAll K zs st = delAll K (mapped slot ++ zs) ⟨s, 0, []⟩ := by
    rw [delAll_append, ← hstdef]
  have hheap : st.base.heap = s.heap := delAll_heap _ _
  have hall : ∀ e ∈ mapped slot ++ zs, e ∈ (⟨s, 0, []⟩ : Freeing κ).base.heap := by
    intro e he
    rcases List.mem_append.1 he with he | he
    · exact hys e he
    · exact hheap ▸ hzs e he
  obtain ⟨hst', later, hcalls, hspares⟩ := hst.spares_delAll (K := K) hzs
  obtain ⟨hnodup, hmem⟩ := hwf.mapped_append
  have hzs' : zs = s.evtTimeRoot.inorder.diff (mapped slot) := hin
  rw [← hzs'] at hnodup hmem
  have hinorder : (delAll K zs st).base.evtTimeRoot.inorder = [] := inorder_delAll_inorder hst
  refine ⟨st, delAll K zs st, hmap, htime, ?_, ?_⟩
  · rw [wbaEvtbaseFree, hmap]
    exact htime
  · refine ⟨hst'.represents, hinorder, ?_, ?_, hst'.active.count, ⟨mapped slot ++ zs, hnodup, hmem,
      ?_, ?_⟩, ?_, later, hcalls, hspares⟩
    · rw [hst'.map.used]
      simp
    · rw [hst'.count, hst'.map.used, hinorder]
      simp
    · rw [hboth, map_snd_delAll]
      rfl
    · rw [hboth, delAll_cnt]
      exact zero_add _
    · intro e he
      rw [hboth]
      exact cleared_delAll hst0 hall ((hmem e).2 he)

theorem Outside.runCalls {k : κ} (h : Outside K k s) (calls : List Call) :
    Outside K k (s.runCalls K calls) := by
  induction calls generalizing s with
  | nil => exact h
  | cons c calls ih => exact ih (h.call c)

/-- A reader, a reader with a timeout and a timer. -/
def mixedBase : WbaEvtbase SimState :=
  (newBase {}).runCalls simKernel
    [.new (some 0) 7 wbaEvtRead (some 1) .null, .new (some 1) 8 wbaEvtRead (some 1) .null,
      .new (some 2) (-1) 0 (some 1) .null, .add 0 none, .add 1 (some ⟨1, 0⟩),
      .add 2 (some ⟨2, 0⟩)]

theorem wbaEvtbaseFree_drained_mixedBase :
    mixedBase.used = 2 ∧ mixedBase.evtTimeRoot.inorder = [1, 2] ∧
      ∃ st st', mixedBase.freeMap simKernel = some st ∧ freeTimers simKernel st = some st' ∧
        Drained simKernel mixedBase st st' := by
  have hout : Outside simKernel {} mixedBase :=
    (Outside.new (wbaEvtbaseNew_newBase _)).runCalls _
  obtain ⟨st, st', hmap, htime, -, hdrained⟩ := wbaEvtbaseFree_drained hout
  exact ⟨by decide +kernel, by decide +kernel, st, st', hmap, htime, hdrained⟩

end WbaEvtbase

end Miscellany
