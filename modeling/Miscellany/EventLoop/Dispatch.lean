import Miscellany.EventLoop.Reachable

/-!
# Dispatching callbacks

`event_process_active` saves the successor of the event it is about to run. When the
callback deletes that successor, `list_del_init` has linked it to itself, and the loop
runs it over and over. The dispatch is safe exactly when no callback deletes or frees
the event that directly follows its own (`Spares`).

While the dispatch is safe, the active list is the list of events that are still to be
run, the cursor is its first event and the saved pointer its second one (`Pass.Heads`).
Otherwise the saved pointer comes to stand on an event that leads nowhere but to itself,
and no callback can release it (`Adrift`, `Pass.Lost`).
-/

namespace Miscellany

open ListHead

namespace WbaEvtbase

variable {κ : Type*} (K : Kernel κ)
variable {s t u : WbaEvtbase κ} {active : List EvtId} {e f : EvtId}

/-! ### The links of the active list -/

/-- From `s` to `t` no event is created or freed and the links of the active list are kept. -/
def KeepsActive (s t : WbaEvtbase κ) : Prop :=
  t.heap = s.heap ∧ t.evtActiveList = s.evtActiveList

theorem KeepsActive.refl (s : WbaEvtbase κ) : KeepsActive s s := ⟨rfl, rfl⟩

theorem KeepsActive.trans (hst : KeepsActive s t) (htu : KeepsActive t u) : KeepsActive s u :=
  ⟨htu.1.trans hst.1, htu.2.trans hst.2⟩

theorem keepsActive_eventRemoveTimeout (s : WbaEvtbase κ) (e : EvtId) :
    KeepsActive s (s.eventRemoveTimeout e) := by
  unfold eventRemoveTimeout
  split_ifs <;> exact ⟨rfl, rfl⟩

theorem keepsActive_eventAddTimeout (s : WbaEvtbase κ) (e : EvtId) :
    KeepsActive s (s.eventAddTimeout e) := by
  unfold eventAddTimeout
  split_ifs <;> exact ⟨rfl, rfl⟩

theorem keepsActive_eventSetTimeout (s : WbaEvtbase κ) (e : EvtId) (tv : Timeval) (abs : Bool) :
    KeepsActive s (s.eventSetTimeout K e tv abs) := by
  unfold eventSetTimeout
  split_ifs <;> exact ⟨rfl, rfl⟩

theorem keepsActive_eventAddReg (s : WbaEvtbase κ) (e : EvtId) :
    KeepsActive s (s.eventAddReg K e).2 := by
  rcases eventAddReg_cases K s e with ⟨heq, -⟩ | ⟨k, heq, -, -⟩ | ⟨k, heq, -, -, hfd, -⟩
  · rw [heq]
    exact ⟨rfl, rfl⟩
  · rw [heq]
    exact ⟨rfl, rfl⟩
  · rw [heq, eventMapLink_eq (s := { s with kernel := k }) hfd]
    exact ⟨rfl, rfl⟩

theorem keepsActive_eventDelReg (s : WbaEvtbase κ) (e : EvtId) :
    KeepsActive s (s.eventDelReg K e).2 := by
  rcases eventDelReg_cases K s e with ⟨heq, -⟩ | ⟨heq, -⟩ | ⟨ok, k, heq, -, -, -⟩
  · rw [heq]
    exact KeepsActive.refl s
  · rw [heq]
    exact ⟨rfl, rfl⟩
  · rw [heq]
    exact ⟨rfl, rfl⟩

theorem keepsActive_eventAdd (s : WbaEvtbase κ) (e : EvtId) (tv : Option Timeval) (abs : Bool) :
    KeepsActive s (s.eventAdd K e tv abs).2 := by
  rcases eventAdd_cases K s e tv abs with ⟨heq, -⟩ | ⟨-, heq, -⟩ | ⟨t, -, -, -, heq⟩
  · rw [heq]
    exact KeepsActive.refl s
  · rw [heq]
    exact keepsActive_eventAddReg K s e
  · rw [heq]
    exact (((keepsActive_eventAddReg K s e).trans (keepsActive_eventRemoveTimeout _ e)).trans
      (keepsActive_eventSetTimeout K _ e t abs)).trans (keepsActive_eventAddTimeout _ e)

theorem keepsActive_wbaEventAdd (s : WbaEvtbase κ) (e : EvtId) (tv : Option Timeval) :
    KeepsActive s (s.wbaEventAdd K e tv).2 := by
  unfold wbaEventAdd
  cases tv with
  | none => exact keepsActive_eventAdd K s e none false
  | some t =>
      simp only
      split_ifs
      · exact KeepsActive.refl s
      · exact keepsActive_eventAdd K s e (some t) false

/-- Deleting an event unlinks it, if it is active, and changes no other link of the active
list. -/
theorem Consistent.evtActiveList_eventDel (h : Consistent s active) (he : e ∈ active) :
    (s.eventDel K e).2.evtActiveList = s.evtActiveList.listDelInit (entry e) := by
  obtain ⟨slot, hwf⟩ := h
  obtain ⟨hheap, hflag⟩ := (hwf.active.mem e).1 he
  have hflag' : (s.eventRemoveTimeout e).hasFlag e wbaEvtlistActive = true := by
    rw [hasFlag, (sameBut_eventRemoveTimeout s e).flag e _ (by decide)]
    exact hflag
  rw [hwf.eventDel_eq K hheap, (keepsActive_eventDelReg K _ e).2, WbaEvtbase.eventRemoveActive,
    if_pos hflag', ← (keepsActive_eventRemoveTimeout s e).2]
  rfl

theorem Consistent.keepsActive_eventDel (h : Consistent s active) (he : e ∉ active) :
    KeepsActive s (s.eventDel K e).2 := by
  obtain ⟨slot, hwf⟩ := h
  by_cases hheap : e ∈ s.heap
  · have hflag : s.hasFlag e wbaEvtlistActive = false := by
      rw [← Bool.not_eq_true]
      exact fun hset => he ((hwf.active.mem e).2 ⟨hheap, hset⟩)
    have hremove : (s.eventRemoveTimeout e).eventRemoveActive e = s.eventRemoveTimeout e := by
      rw [WbaEvtbase.eventRemoveActive, if_neg]
      rw [hasFlag, (sameBut_eventRemoveTimeout s e).flag e _ (by decide), ← hasFlag, hflag]
      exact Bool.false_ne_true
    rw [hwf.eventDel_eq K hheap, hremove]
    exact (keepsActive_eventRemoveTimeout s e).trans (keepsActive_eventDelReg K _ e)
  · rw [eventDel_of_notMem K hheap]
    exact KeepsActive.refl s

/-! ### What calls take off the active list -/

/-- The call deletes or frees the event. -/
def Call.Removes (c : Call) (d : EvtId) : Prop := c = .del d ∨ c = .free d

instance (c : Call) (d : EvtId) : Decidable (c.Removes d) := inferInstanceAs (Decidable (_ ∨ _))

/-- One of the calls deletes or frees the event. -/
def Removed (calls : List Call) (d : EvtId) : Prop := ∃ c ∈ calls, c.Removes d

instance (calls : List Call) (d : EvtId) : Decidable (Removed calls d) :=
  inferInstanceAs (Decidable (∃ c ∈ calls, _))

theorem removed_cons {c : Call} {calls : List Call} {d : EvtId} :
    Removed (c :: calls) d ↔ c.Removes d ∨ Removed calls d := by
  simp [Removed]

/-- The events of a list that the calls neither delete nor free. -/
def spared (calls : List Call) (l : List EvtId) : List EvtId :=
  l.filter fun d => decide (¬ Removed calls d)

theorem mem_spared {calls : List Call} {l : List EvtId} {d : EvtId} :
    d ∈ spared calls l ↔ d ∈ l ∧ ¬ Removed calls d := by
  simp [spared]

theorem callActive_eq_filter (hnodup : active.Nodup) (c : Call) :
    callActive active c = active.filter fun d => decide (¬ c.Removes d) := by
  cases c with
  | new malloc fd events fn arg => simp [callActive, Call.Removes]
  | add e tv => simp [callActive, Call.Removes]
  | del e =>
      rw [callActive, hnodup.erase_eq_filter]
      refine List.filter_congr fun d _ => ?_
      rw [Bool.eq_iff_iff]
      simp [Call.Removes, eq_comm (a := d)]
  | free e =>
      rw [callActive, hnodup.erase_eq_filter]
      refine List.filter_congr fun d _ => ?_
      rw [Bool.eq_iff_iff]
      simp [Call.Removes, eq_comm (a := d)]

theorem foldl_callActive (hnodup : active.Nodup) (calls : List Call) :
    calls.foldl callActive active = spared calls active := by
  induction calls generalizing active with
  | nil => simp [spared, Removed]
  | cons c calls ih =>
      have hfirst := callActive_eq_filter hnodup c
      have hnodup' : (callActive active c).Nodup := hfirst ▸ hnodup.filter _
      rw [List.foldl_cons, ih hnodup', hfirst, spared, spared, List.filter_filter]
      refine List.filter_congr fun d _ => ?_
      by_cases hc : c.Removes d
      · simp [removed_cons, hc]
      · simp [removed_cons, hc]

/-! ### An event that leads nowhere -/

/-- The event is not on the active list; if it still exists, its link leads back to it or is
null. -/
structure Adrift (s : WbaEvtbase κ) (active : List EvtId) (f : EvtId) : Prop where
  consistent : Consistent s active
  notMem : f ∉ active
  link : f ∈ s.heap → s.evtActiveList.next (entry f) = some (entry f) ∨
    s.evtActiveList.next (entry f) = none

theorem Adrift.of_keepsActive (h : Adrift s active f) (hkeep : KeepsActive s t)
    (ht : Consistent t active) : Adrift t active f := by
  refine ⟨ht, h.notMem, fun hf => ?_⟩
  rw [hkeep.2]
  exact h.link (hkeep.1 ▸ hf)

/-- Unlinking an event of the active list does not touch an event that is adrift. -/
theorem Adrift.of_listDelInit (h : Adrift s active f) (he : e ∈ active) (hheap : t.heap = s.heap)
    (hlist : t.evtActiveList = s.evtActiveList.listDelInit (entry e))
    (ht : Consistent t (active.erase e)) : Adrift t (active.erase e) f := by
  obtain ⟨slot, hwf⟩ := h.consistent
  have hnot : (entry f : ListHead Unit EvtId) ∉ head () :: active.map entry := by
    simpa using h.notMem
  refine ⟨ht, fun hmem => h.notMem (List.mem_of_mem_erase hmem), fun hf => ?_⟩
  rw [hlist, (hwf.active.ring.listDelInit_frame he hnot).1]
  exact h.link (hheap ▸ hf)

theorem Adrift.eventDel (h : Adrift s active f) (e : EvtId) :
    Adrift (s.eventDel K e).2 (active.erase e) f := by
  have hcons := h.consistent.eventDel K e
  by_cases he : e ∈ active
  · exact h.of_listDelInit he (flagsOnly_eventDel K s e).1
      (h.consistent.evtActiveList_eventDel K he) hcons
  · rw [List.erase_of_not_mem he] at hcons ⊢
    exact h.of_keepsActive (h.consistent.keepsActive_eventDel K he) hcons

theorem Adrift.eventRemoveActive (h : Adrift s active f) (he : e ∈ s.heap) :
    Adrift (s.eventRemoveActive e) (active.erase e) f := by
  have hcons := h.consistent.eventRemoveActive he
  obtain ⟨slot, hwf⟩ := h.consistent
  by_cases hmem : e ∈ active
  · refine h.of_listDelInit hmem (eventRemoveActive_heap s e) ?_ hcons
    rw [WbaEvtbase.eventRemoveActive, if_pos ((hwf.active.mem e).1 hmem).2]
    rfl
  · have hflag : ¬ s.hasFlag e wbaEvtlistActive = true := fun hset =>
      hmem ((hwf.active.mem e).2 ⟨he, hset⟩)
    rw [WbaEvtbase.eventRemoveActive, if_neg hflag, List.erase_of_not_mem hmem]
    exact h

theorem Adrift.wbaEventFree (h : Adrift s active f) (e : EvtId) :
    Adrift (s.wbaEventFree K e) (active.erase e) f := by
  have hdel := h.eventDel K e
  refine ⟨h.consistent.wbaEventFree K e, hdel.notMem, fun hf => ?_⟩
  exact hdel.link (List.mem_of_mem_erase hf)

/-- The links of a new event are null. -/
theorem Adrift.placeEvt (h : Adrift s active f) (he : e ∉ s.heap) {v : WbaEvt}
    (hflags : v.flags = wbaEvtlistInit) : Adrift (s.placeEvt e v) active f := by
  obtain ⟨slot, hwf⟩ := h.consistent
  refine ⟨⟨slot, hwf.placeEvt he hflags⟩, h.notMem, fun hf => ?_⟩
  by_cases hfe : f = e
  · subst hfe
    exact Or.inr (Function.update_self _ _ _)
  · have hne : (entry f : ListHead Unit EvtId) ≠ entry e := by simpa using hfe
    have hsame : (s.placeEvt e v).evtActiveList.next (entry f) =
        s.evtActiveList.next (entry f) := Function.update_of_ne hne _ _
    rw [hsame]
    exact h.link ((List.mem_cons.1 hf).resolve_left hfe)

theorem Adrift.wbaEventNew (h : Adrift s active f) (malloc : Option EvtId) (fd : ℤ)
    (events : BitVec 16) (fn : Option WbaEvtcbFn) (arg : CbArg) :
    Adrift (s.wbaEventNew malloc fd events fn arg).2 active f := by
  rcases wbaEventNew_cases s malloc fd events fn arg with heq | ⟨e, f', he, heq⟩
  · rw [heq]
    exact h
  · rw [heq]
    exact h.placeEvt he rfl

theorem Adrift.runCall (h : Adrift s active f) (c : Call) :
    Adrift (s.runCall K c) (callActive active c) f := by
  cases c with
  | new malloc fd events fn arg => exact h.wbaEventNew malloc fd events fn arg
  | add e tv =>
      exact h.of_keepsActive (keepsActive_wbaEventAdd K s e tv) (h.consistent.wbaEventAdd K e tv)
  | del e => exact h.eventDel K e
  | free e => exact h.wbaEventFree K e

theorem Adrift.runCalls (h : Adrift s active f) (calls : List Call) :
    Adrift (s.runCalls K calls) (calls.foldl callActive active) f := by
  induction calls generalizing s active with
  | nil => exact h
  | cons c calls ih => exact ih (h.runCall K c)

theorem Adrift.eventProcessActiveBody (h : Adrift s active f) (he : e ∈ s.heap) :
    Adrift (s.eventProcessActiveBody K e) (active.erase e) f := by
  have hcons := h.consistent.eventProcessActiveBody K he
  have hremove := h.eventRemoveActive he
  unfold WbaEvtbase.eventProcessActiveBody eventReschedule at hcons ⊢
  split_ifs at hcons ⊢
  · exact hremove.of_keepsActive (keepsActive_eventAdd K _ e _ true) hcons
  · exact hremove
  · exact h.eventDel K e

/-- An event that has just been deleted from the active list is linked to itself. -/
theorem Consistent.adrift_eventDel (h : Consistent s active) (hf : f ∈ active) :
    Adrift (s.eventDel K f).2 (active.erase f) f := by
  have hlist := h.evtActiveList_eventDel K hf
  have hcons := h.eventDel K f
  obtain ⟨slot, hwf⟩ := h
  refine ⟨hcons, hwf.active.ring.nodup.not_mem_erase, fun _ => Or.inl ?_⟩
  rw [hlist]
  exact hwf.active.ring.listDelInit_self hf

/-- An event of the active list that the calls delete or free is adrift afterwards. -/
theorem Consistent.adrift_runCalls (h : Consistent s active) (hf : f ∈ active)
    {calls : List Call} (hrem : Removed calls f) :
    Adrift (s.runCalls K calls) (calls.foldl callActive active) f := by
  induction calls generalizing s active with
  | nil => simp [Removed] at hrem
  | cons c calls ih =>
      by_cases hc : c.Removes f
      · rcases hc with rfl | rfl
        · exact (h.adrift_eventDel K hf).runCalls K calls
        · have hfree : Adrift (s.wbaEventFree K f) (active.erase f) f := by
            have hdel := h.adrift_eventDel K hf
            refine ⟨h.wbaEventFree K f, hdel.notMem, fun hmem => ?_⟩
            exact hdel.link (List.mem_of_mem_erase hmem)
          exact hfree.runCalls K calls
      · have hkeep : f ∈ callActive active c := by
          obtain ⟨slot, hwf⟩ := h
          rw [callActive_eq_filter hwf.active.ring.nodup, List.mem_filter]
          exact ⟨hf, by simpa using hc⟩
        exact ih (h.runCall K c) hkeep ((removed_cons.1 hrem).resolve_left hc)

/-! ### One round -/

variable (cbs : Callbacks κ)

/-- The calls that the callback of the event `e` makes when its round starts in `s`. -/
def roundCalls (s : WbaEvtbase κ) (e : EvtId) : List Call :=
  ((s.eventProcessActiveBody K e).invocation cbs e).calls

/-- The base after the round of the event `e`. -/
def roundBase (s : WbaEvtbase κ) (e : EvtId) : WbaEvtbase κ :=
  (s.eventProcessActiveBody K e).runCalls K (s.roundCalls K cbs e)

/-- No callback deletes or frees the event that directly follows its own on the list of those
that are still to be run. -/
inductive Spares : WbaEvtbase κ → List EvtId → Prop where
  | nil (s : WbaEvtbase κ) : Spares s []
  | cons {s : WbaEvtbase κ} {e : EvtId} {rest : List EvtId}
      (hnext : ∀ f, rest.head? = some f → ¬ Removed (s.roundCalls K cbs e) f)
      (hrest : Spares (s.roundBase K cbs e) (spared (s.roundCalls K cbs e) rest)) :
      Spares s (e :: rest)

variable {K cbs}

theorem Consistent.nodup (h : Consistent s active) : active.Nodup := by
  obtain ⟨slot, hwf⟩ := h
  exact hwf.active.ring.nodup

/-- A round takes its own event and the removed ones off the active list. -/
theorem Consistent.roundBase {rest : List EvtId} (h : Consistent s (e :: rest))
    (he : e ∈ s.heap) :
    Consistent (s.roundBase K cbs e) (spared (s.roundCalls K cbs e) rest) := by
  have hbody := h.eventProcessActiveBody K he
  rw [List.erase_cons_head] at hbody
  rw [← foldl_callActive hbody.nodup]
  exact hbody.runCalls K _

theorem Consistent.adrift_roundBase {rest : List EvtId} (h : Consistent s (e :: rest))
    (he : e ∈ s.heap) (hf : f ∈ rest) (hrem : Removed (s.roundCalls K cbs e) f) :
    ∃ active', Adrift (s.roundBase K cbs e) active' f := by
  have hbody := h.eventProcessActiveBody K he
  rw [List.erase_cons_head] at hbody
  exact ⟨_, hbody.adrift_runCalls K hf hrem⟩

theorem Adrift.roundBase (h : Adrift s active f) (he : e ∈ s.heap) :
    ∃ active', Adrift (s.roundBase K cbs e) active' f :=
  ⟨_, (h.eventProcessActiveBody K he).runCalls K _⟩

theorem Adrift.readNext (h : Adrift s active f) :
    s.readNext (some (entry f)) = some (entry f) ∨ s.readNext (some (entry f)) = none := by
  unfold WbaEvtbase.readNext
  simp only
  split_ifs with hf
  · exact h.link hf
  · exact Or.inr rfl

end WbaEvtbase

open WbaEvtbase

namespace Pass

variable {κ : Type*} {K : Kernel κ} {cbs : Callbacks κ}
variable {st : Pass κ} {s : WbaEvtbase κ} {e f : EvtId} {rem rest : List EvtId}

theorem step_entry (hevt : st.evt = some (entry e)) (he : e ∈ st.base.heap) :
    step K cbs st =
      { base := st.base.roundBase K cbs e
        evt := st.p
        p := (st.base.roundBase K cbs e).readNext st.p
        trace := st.trace ++ [(st.base.eventProcessActiveBody K e).invocation cbs e] } := by
  unfold step
  rw [hevt]
  simp only [if_pos he]
  rfl

/-! ### A pass that ends -/

/-- The pass stands before the round of the first event of `rem`, the events that are still to
be run. -/
structure Heads (st : Pass κ) (rem : List EvtId) : Prop where
  consistent : Consistent st.base rem
  evt : st.evt = some ((rem.map entry).headD (head ()))
  p : st.p = some ((rem.tail.map entry).headD (head ()))

theorem Heads.ended (h : Heads st []) : st.Ended := h.evt

/-- Reading the link of the first node of the active list. -/
theorem readNext_head (h : Consistent s rem) :
    s.readNext (some ((rem.map entry).headD (head ()))) =
      some ((rem.tail.map entry).headD (head ())) := by
  obtain ⟨slot, hwf⟩ := h
  cases rem with
  | nil => exact hwf.active.ring.next_head
  | cons e rest =>
      have he : e ∈ s.heap := ((hwf.active.mem e).1 (by simp)).1
      have hring : Ring s.evtActiveList () ([] ++ e :: rest) := hwf.active.ring
      simp only [List.map_cons, List.headD_cons, readNext, if_pos he, List.tail_cons]
      exact hring.next_entry

theorem heads_start (h : Consistent s rem) : Heads (start s) rem := by
  have hevt : s.readNext (some (head ())) = some ((rem.map entry).headD (head ())) := by
    obtain ⟨slot, hwf⟩ := h
    exact hwf.active.ring.next_head
  refine ⟨h, hevt, ?_⟩
  change s.readNext (s.readNext (some (head ()))) = _
  rw [hevt]
  exact readNext_head h

theorem Heads.mem_heap (h : Heads st (e :: rest)) : e ∈ st.base.heap := by
  obtain ⟨slot, hwf⟩ := h.consistent
  exact ((hwf.active.mem e).1 (by simp)).1

/-- A round that spares the next event brings the pass before the next round. -/
theorem Heads.step (h : Heads st (e :: rest))
    (hnext : ∀ f, rest.head? = some f → ¬ Removed (st.base.roundCalls K cbs e) f) :
    Heads (Pass.step K cbs st) (spared (st.base.roundCalls K cbs e) rest) := by
  have hcons : Consistent (st.base.roundBase K cbs e) _ := h.consistent.roundBase h.mem_heap
  have hhead : ((spared (st.base.roundCalls K cbs e) rest).map
      (entry : EvtId → ListHead Unit EvtId)).headD (head ()) =
      (rest.map entry).headD (head ()) := by
    cases rest with
    | nil => rfl
    | cons f rest => simp [spared, hnext f rfl]
  have hp : st.p =
      some (((spared (st.base.roundCalls K cbs e) rest).map entry).headD (head ())) := by
    rw [h.p, hhead, List.tail_cons]
  rw [step_entry h.evt h.mem_heap]
  refine ⟨hcons, hp, ?_⟩
  rw [← readNext_head hcons, ← hp]

/-- The invocations `tr` are those of the events `rem`, in order, without those that an earlier
callback deletes or frees. -/
structure InOrder (rem : List EvtId) (tr : List (Invocation κ)) : Prop where
  sublist : (tr.map Invocation.evt).Sublist rem
  skips : ∀ us e vs, rem = us ++ e :: vs →
    (e ∈ tr.map Invocation.evt ↔ ∀ inv ∈ tr, inv.evt ∈ us → ¬ Removed inv.calls e)

theorem InOrder.nil : InOrder (κ := κ) [] [] := by
  refine ⟨by simp, fun us e vs hsplit => ?_⟩
  simp at hsplit

theorem InOrder.cons (inv : Invocation κ) {tr : List (Invocation κ)}
    (hnodup : (inv.evt :: rest).Nodup) (h : InOrder (spared inv.calls rest) tr) :
    InOrder (inv.evt :: rest) (inv :: tr) := by
  have hsub : (tr.map Invocation.evt).Sublist rest := h.sublist.trans List.filter_sublist
  refine ⟨hsub.cons_cons inv.evt, fun us d vs hsplit => ?_⟩
  cases us with
  | nil =>
      obtain ⟨rfl, rfl⟩ := List.cons.inj hsplit
      simp
  | cons a us =>
      obtain ⟨rfl, rfl⟩ := List.cons.inj hsplit
      have hnot : inv.evt ∉ us ++ d :: vs := (List.nodup_cons.1 hnodup).1
      have hd : d ≠ inv.evt := fun hd => hnot (by simp [hd])
      rw [List.map_cons, List.mem_cons, or_iff_right hd]
      by_cases hrem : Removed inv.calls d
      · constructor
        · exact fun hmem => absurd hrem (mem_spared.1 (h.sublist.subset hmem)).2
        · exact fun hall => absurd hrem (hall inv (by simp) (by simp))
      · have hsplit' : spared inv.calls (us ++ d :: vs) =
            spared inv.calls us ++ d :: spared inv.calls vs := by
          simp [spared, hrem]
        rw [h.skips _ d _ hsplit']
        constructor
        · intro hall inv' hinv' hus
          rcases List.mem_cons.1 hinv' with rfl | hinv'
          · exact hrem
          -- An event that was run later is not the first one and was not removed by it.
          · have hrun := mem_spared.1 (h.sublist.subset (List.mem_map_of_mem hinv'))
            have hne : inv'.evt ≠ inv.evt := fun heq => hnot (heq ▸ hrun.1)
            exact hall inv' hinv' (mem_spared.2 ⟨(List.mem_cons.1 hus).resolve_left hne, hrun.2⟩)
        · intro hall inv' hinv' hus
          exact hall inv' (List.mem_cons_of_mem inv hinv')
            (List.mem_cons_of_mem _ (mem_spared.1 hus).1)

/-- If no callback removes the event that directly follows its own, the pass runs the events in
order and ends, with the active list empty. -/
theorem Heads.run (h : Heads st rem) (hspares : Spares K cbs st.base rem) :
    ∃ n tr, Heads (steps K cbs n st) [] ∧ (steps K cbs n st).trace = st.trace ++ tr ∧
      InOrder rem tr := by
  generalize hbase : st.base = s at hspares
  induction hspares generalizing st with
  | nil s => exact ⟨0, [], h, by simp [steps], InOrder.nil⟩
  | @cons s e rest hnext hrest ih =>
      subst hbase
      have hstep : Pass.step K cbs st = _ := step_entry h.evt h.mem_heap
      obtain ⟨n, tr, hend, htrace, horder⟩ := ih (h.step hnext) (by rw [hstep])
      refine ⟨n + 1, (st.base.eventProcessActiveBody K e).invocation cbs e :: tr, hend, ?_, ?_⟩
      · rw [steps, htrace, hstep, List.append_assoc, List.singleton_append]
      · exact InOrder.cons ((st.base.eventProcessActiveBody K e).invocation cbs e)
          h.consistent.nodup horder

/-! ### A pass that does not end -/

/-- The saved pointer leads nowhere. -/
structure Lost (st : Pass κ) : Prop where
  evt : st.evt ≠ some (head ())
  p : st.p = none ∨ ∃ f active, st.p = some (entry f) ∧ Adrift st.base active f

theorem Lost.step (h : Lost st) : Lost (Pass.step K cbs st) := by
  cases hevt : st.evt with
  | none =>
      have hstay : Pass.step K cbs st = st := by simp [Pass.step, hevt]
      rw [hstay]
      exact h
  | some x =>
      cases x with
      | head i => exact absurd hevt h.evt
      | entry e =>
          by_cases he : e ∈ st.base.heap
          · rw [step_entry hevt he]
            rcases h.p with hp | ⟨f, active, hp, hf⟩
            · refine ⟨by simp [hp], Or.inl ?_⟩
              simp [hp, readNext]
            · obtain ⟨active', hf'⟩ : ∃ active', Adrift (st.base.roundBase K cbs e) active' f :=
                hf.roundBase he
              refine ⟨by simp [hp], ?_⟩
              simp only [hp]
              rcases hf'.readNext with hself | hnull
              · exact Or.inr ⟨f, active', hself, hf'⟩
              · exact Or.inl hnull
          · have hstay : Pass.step K cbs st = st := by simp [Pass.step, hevt, he]
            rw [hstay]
            exact h

/-- A lost pass never ends. -/
theorem Lost.not_ended (h : Lost st) (n : ℕ) : ¬ (steps K cbs n st).Ended := by
  induction n generalizing st with
  | zero => exact h.evt
  | succ n ih => exact ih h.step

/-- A round that removes the next event leaves the pass lost. -/
theorem Heads.lost (h : Heads st (e :: f :: rest))
    (hrem : Removed (st.base.roundCalls K cbs e) f) : Lost (Pass.step K cbs st) := by
  obtain ⟨active, hf⟩ := h.consistent.adrift_roundBase h.mem_heap (by simp) hrem
  have hp : st.p = some (entry f) := h.p
  rw [step_entry h.evt h.mem_heap]
  refine ⟨by simp [hp], ?_⟩
  simp only [hp]
  rcases hf.readNext with hself | hnull
  · exact Or.inr ⟨f, active, hself, hf⟩
  · exact Or.inl hnull

/-- If some callback removes the event that directly follows its own, the pass never ends. -/
theorem Heads.not_ended (h : Heads st rem) (hspares : ¬ Spares K cbs st.base rem) (n : ℕ) :
    ¬ (steps K cbs n st).Ended := by
  induction n generalizing st rem with
  | zero =>
      cases rem with
      | nil => exact absurd (Spares.nil st.base) hspares
      | cons e rest =>
          intro hend
          rw [steps, Ended, h.evt] at hend
          simp at hend
  | succ n ih =>
      cases rem with
      | nil => exact absurd (Spares.nil st.base) hspares
      | cons e rest =>
          by_cases hnext : ∀ f, rest.head? = some f → ¬ Removed (st.base.roundCalls K cbs e) f
          · refine ih (h.step hnext) fun hrest => hspares (Spares.cons hnext ?_)
            rw [step_entry h.evt h.mem_heap] at hrest
            exact hrest
          · push Not at hnext
            obtain ⟨f, hf, hrem⟩ := hnext
            obtain ⟨rest', rfl⟩ : ∃ rest', rest = f :: rest' := List.head?_eq_some_iff.1 hf
            exact (h.lost hrem).not_ended n

end Pass

namespace WbaEvtbase

variable {κ : Type*} {K : Kernel κ} {cbs : Callbacks κ} {s : WbaEvtbase κ} {active : List EvtId}

/-- `event_process_active` returns, having run the events of the active list in order, without
those that an earlier callback deleted or freed. -/
def SafeDispatch (K : Kernel κ) (cbs : Callbacks κ) (s : WbaEvtbase κ) (active : List EvtId) :
    Prop :=
  ∃ fuel cnt t tr, s.eventProcessActive K cbs fuel = some (cnt, t, tr) ∧ Pass.InOrder active tr

/-- The dispatch is safe exactly when no callback deletes or frees the event that directly follows
its own. -/
theorem safeDispatch_iff {k : κ} (h : Reachable K k s) (hring : Ring s.evtActiveList () active) :
    SafeDispatch K cbs s active ↔ Spares K cbs s active := by
  obtain ⟨active', hcons⟩ := h.consistent
  obtain rfl : active' = active := by
    obtain ⟨slot, hwf⟩ := hcons
    exact hwf.active.ring.unique hring
  have hheads := Pass.heads_start hcons
  constructor
  · rintro ⟨fuel, cnt, t, tr, hrun, -⟩
    by_contra hspares
    have hend := hheads.not_ended hspares fuel
    rw [eventProcessActive, if_neg hend] at hrun
    exact absurd hrun (by simp)
  · intro hspares
    obtain ⟨n, tr, hend, htrace, horder⟩ := hheads.run hspares
    refine ⟨n, _, _, _, by rw [eventProcessActive, if_pos hend.ended], ?_⟩
    rw [htrace]
    exact horder

/-- A base with three timers, the events 0, 1 and 2, all of them expired. -/
def expiredBase : WbaEvtbase SimState :=
  (((newBase {}).runCalls simKernel
    [.new (some 0) (-1) 0 (some 0) .null, .new (some 1) (-1) 0 (some 1) .null,
      .new (some 2) (-1) 0 (some 2) .null, .add 0 (some ⟨0, 0⟩), .add 1 (some ⟨0, 0⟩),
      .add 2 (some ⟨0, 0⟩)]).eventProcessTimeout simKernel).2

theorem reachable_expiredBase : Reachable simKernel {} expiredBase :=
  (reachable_newBase _ _ _).step .processTimeout rfl

theorem ring_expiredBase : Ring expiredBase.evtActiveList () [0, 1, 2] := by
  refine ⟨?_, ?_, by decide⟩
  · simp only [List.map_cons, List.map_nil, walk_cons, walk_nil]
    decide +kernel
  · simp only [List.reverse_cons, List.reverse_nil, List.nil_append, List.cons_append,
      List.map_cons, List.map_nil, walk_cons, walk_nil]
    decide +kernel

/-- Callbacks of which the first deletes the event `d`. -/
def deleting (d : EvtId) : Callbacks SimState := fun fn _ _ _ _ => if fn = 0 then [.del d] else []

/-- When the first callback deletes the second event, the pass does not end. -/
theorem not_safeDispatch_deleting :
    Reachable simKernel {} expiredBase ∧ Ring expiredBase.evtActiveList () [0, 1, 2] ∧
      ¬ SafeDispatch simKernel (deleting 1) expiredBase [0, 1, 2] := by
  refine ⟨reachable_expiredBase, ring_expiredBase, ?_⟩
  rintro ⟨fuel, cnt, t, tr, hrun, -⟩
  obtain ⟨active, slot, hwf⟩ := reachable_expiredBase.consistent
  obtain rfl := hwf.active.ring.unique ring_expiredBase
  have hspares : ¬ Spares simKernel (deleting 1) expiredBase [0, 1, 2] := by
    intro hs
    cases hs with
    | cons hnext _ => exact hnext 1 rfl (by decide +kernel)
  have hend := (Pass.heads_start ⟨slot, hwf⟩).not_ended hspares fuel
  rw [eventProcessActive, if_neg hend] at hrun
  exact absurd hrun (by simp)

/-- When it deletes the third event, the other two are run. -/
theorem safeDispatch_deleting : SafeDispatch simKernel (deleting 2) expiredBase [0, 1, 2] := by
  refine (safeDispatch_iff reachable_expiredBase ring_expiredBase).2 ?_
  have hcalls : expiredBase.roundCalls simKernel (deleting 2) 0 = [.del 2] := by decide +kernel
  refine Spares.cons ?_ ?_
  · rw [hcalls]
    intro f hf
    obtain rfl : 1 = f := by simpa using hf
    decide
  · rw [hcalls, show spared [.del 2] [1, 2] = [1] by decide]
    exact Spares.cons (by simp) (Spares.nil _)

end WbaEvtbase

end Miscellany
