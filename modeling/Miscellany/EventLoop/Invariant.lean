import Miscellany.EventLoop.Loop
import Mathlib.Algebra.BigOperators.Group.Finset.Basic
import Mathlib.Data.Finset.Card

/-!
# The representation invariant of the base

The three containers of the base are described separately: `ActiveInv` the
active list, `MapInv` the slots of the event map and `TimerInv` the time tree.
Each ties a container to one flag of the events and to the counter kept for it,
and only depends on these, so an operation on one container keeps the invariants
of the other two (`ActiveInv.congr`, `MapInv.congr`, `TimerInv.congr`).
`WellFormed` puts them together with the total count of events.

The lists `active` and `slot i` are the abstract contents of the base. The order
of the time tree is by deadline and, for equal deadlines, by the time of
insertion.
-/

namespace Miscellany

open ListHead

namespace WbaEvtbase

variable {κ : Type*}

/-! ### Flags -/

/-- The two memories agree on the descriptor and the events of every event, and on every flag
that is not in the mask `m`. -/
structure SameBut (m : BitVec 16) (f g : EvtId → WbaEvt) : Prop where
  flag : ∀ d n, hasAny m n = false → hasAny (g d).flags n = hasAny (f d).flags n
  fd : ∀ d, (g d).fd = (f d).fd
  events : ∀ d, (g d).events = (f d).events

theorem SameBut.refl (m : BitVec 16) (f : EvtId → WbaEvt) : SameBut m f f :=
  ⟨fun _ _ _ => rfl, fun _ => rfl, fun _ => rfl⟩

theorem SameBut.trans {m : BitVec 16} {f g h : EvtId → WbaEvt} (hfg : SameBut m f g)
    (hgh : SameBut m g h) : SameBut m f h :=
  ⟨fun d n hn => (hgh.flag d n hn).trans (hfg.flag d n hn),
    fun d => (hgh.fd d).trans (hfg.fd d), fun d => (hgh.events d).trans (hfg.events d)⟩

section Flags

variable (s : WbaEvtbase κ) (e : EvtId)

theorem sameBut_setFlags (m : BitVec 16) : SameBut m s.evt (s.setFlags e m).evt := by
  refine ⟨fun d n hn => ?_, fun d => ?_, fun d => ?_⟩
  all_goals
    by_cases hde : d = e
    · subst hde
      simp [setFlags, hasAny_or, *]
    · simp [setFlags, modifyEvt_evt_of_ne s _ hde]

theorem sameBut_clearFlags (m : BitVec 16) : SameBut m s.evt (s.clearFlags e m).evt := by
  refine ⟨fun d n hn => ?_, fun d => ?_, fun d => ?_⟩
  · have hmn : m &&& n = 0#16 := (hasAny_eq_false_iff m n).1 hn
    by_cases hde : d = e
    · subst hde
      simp [clearFlags, hasAny_clear_of_disjoint _ hmn]
    · simp [clearFlags, modifyEvt_evt_of_ne s _ hde]
  all_goals
    by_cases hde : d = e
    · subst hde
      simp [clearFlags]
    · simp [clearFlags, modifyEvt_evt_of_ne s _ hde]

theorem sameBut_modifyEvt (m : BitVec 16) {f : WbaEvt → WbaEvt}
    (hf : ∀ v, (f v).flags = v.flags ∧ (f v).fd = v.fd ∧ (f v).events = v.events) :
    SameBut m s.evt (s.modifyEvt e f).evt := by
  refine ⟨fun d n _ => ?_, fun d => ?_, fun d => ?_⟩
  all_goals
    by_cases hde : d = e
    · subst hde
      simp [hf]
    · simp [modifyEvt_evt_of_ne s _ hde]

theorem modifyEvt_evtTimeout {f : WbaEvt → WbaEvt} (hf : ∀ v, (f v).evtTimeout = v.evtTimeout)
    (d : EvtId) : ((s.modifyEvt e f).evt d).evtTimeout = (s.evt d).evtTimeout := by
  by_cases hde : d = e
  · subst hde
    simp [hf]
  · simp [modifyEvt_evt_of_ne s _ hde]

@[simp] theorem setFlags_evtTimeout (m : BitVec 16) (d : EvtId) :
    ((s.setFlags e m).evt d).evtTimeout = (s.evt d).evtTimeout := by
  rw [setFlags, modifyEvt_evtTimeout]
  exact fun _ => rfl

@[simp] theorem clearFlags_evtTimeout (m : BitVec 16) (d : EvtId) :
    ((s.clearFlags e m).evt d).evtTimeout = (s.evt d).evtTimeout := by
  rw [clearFlags, modifyEvt_evtTimeout]
  exact fun _ => rfl

theorem hasFlag_setFlags (d : EvtId) {m : BitVec 16} (h : hasAny m m = true) :
    (s.setFlags e m).hasFlag d m = true ↔ d = e ∨ s.hasFlag d m = true := by
  by_cases hde : d = e
  · subst hde
    simp [hasFlag, setFlags, hasAny_or, h]
  · simp [hasFlag, setFlags, modifyEvt_evt_of_ne s _ hde, hde]

theorem hasFlag_clearFlags (d : EvtId) (m : BitVec 16) :
    (s.clearFlags e m).hasFlag d m = true ↔ d ≠ e ∧ s.hasFlag d m = true := by
  by_cases hde : d = e
  · subst hde
    simp [hasFlag, clearFlags]
  · simp [hasFlag, clearFlags, modifyEvt_evt_of_ne s _ hde, hde]

end Flags

/-! ### The three containers -/

/-- The event belongs into the event map. -/
def InMap (s : WbaEvtbase κ) (e : EvtId) : Prop :=
  s.hasFlag e wbaEvtlistReg = true ∧ 0 ≤ (s.evt e).fd ∧ s.hasEvent e wbaEvtIo = true

theorem inMap_setFlags (s : WbaEvtbase κ) (e d : EvtId) :
    (s.setFlags e wbaEvtlistReg).InMap d ↔
      s.InMap d ∨ d = e ∧ 0 ≤ (s.evt e).fd ∧ s.hasEvent e wbaEvtIo = true := by
  have hsame := sameBut_setFlags s e wbaEvtlistReg
  simp only [InMap, hasEvent, hsame.fd, hsame.events]
  rw [hasFlag_setFlags s e d (by decide)]
  by_cases hde : d = e
  · subst hde
    tauto
  · simp [hde]

theorem inMap_clearFlags (s : WbaEvtbase κ) (e d : EvtId) :
    (s.clearFlags e wbaEvtlistReg).InMap d ↔ d ≠ e ∧ s.InMap d := by
  have hsame := sameBut_clearFlags s e wbaEvtlistReg
  simp only [InMap, hasEvent, hsame.fd, hsame.events]
  rw [hasFlag_clearFlags s e d, and_assoc]

theorem inMap_setFlags_of_keep {s : WbaEvtbase κ} {e d : EvtId}
    (hkeep : s.hasFlag e wbaEvtlistReg = true ∨
      ¬ (0 ≤ (s.evt e).fd ∧ s.hasEvent e wbaEvtIo = true)) :
    (s.setFlags e wbaEvtlistReg).InMap d ↔ s.InMap d := by
  rw [inMap_setFlags]
  refine or_iff_left_of_imp ?_
  rintro ⟨rfl, hio⟩
  rcases hkeep with hreg | hnot
  · exact ⟨hreg, hio⟩
  · exact absurd hio hnot

theorem inMap_clearFlags_of_not {s : WbaEvtbase κ} {e d : EvtId}
    (hnot : ¬ (0 ≤ (s.evt e).fd ∧ s.hasEvent e wbaEvtIo = true)) :
    (s.clearFlags e wbaEvtlistReg).InMap d ↔ s.InMap d := by
  rw [inMap_clearFlags]
  refine and_iff_right_of_imp ?_
  rintro hd rfl
  exact hnot hd.2

/-- The slot of the event map for the descriptor of the event. -/
def slotOf (s : WbaEvtbase κ) (e : EvtId) : ℕ := (s.evt e).fd.toNat &&& s.sizemask

/-- The order of the time tree: by deadline, then by insertion. -/
def TimerLt (s : WbaEvtbase κ) (d e : EvtId) : Prop :=
  (s.evt d).evtTimeout.key < (s.evt e).evtTimeout.key ∨
    (s.evt d).evtTimeout.key = (s.evt e).evtTimeout.key ∧ s.stamp d < s.stamp e

/-- The active list holds exactly the events with the flag `ACTIVE`. -/
structure ActiveInv (s : WbaEvtbase κ) (active : List EvtId) : Prop where
  ring : Ring s.evtActiveList () active
  mem : ∀ e, e ∈ active ↔ e ∈ s.heap ∧ s.hasFlag e wbaEvtlistActive = true
  count : s.eventCountActive = active.length

/-- The slots of the map hold exactly the registered events with a descriptor and an event
to wait for, each in the slot of its descriptor. -/
structure MapInv (s : WbaEvtbase κ) (slot : ℕ → List EvtId) : Prop where
  size : s.size = evtMapSize
  sizemask : s.sizemask = evtMapSize - 1
  ring : ∀ i < evtMapSize, Ring s.evtList i (slot i)
  mem : ∀ i < evtMapSize, ∀ e, e ∈ slot i ↔ e ∈ s.heap ∧ s.InMap e ∧ s.slotOf e = i
  used : s.used = ∑ i ∈ Finset.range evtMapSize, ((slot i).length : ℤ)

/-- The time tree holds exactly the events with the flag `TIMEOUT`, in order. -/
structure TimerInv (s : WbaEvtbase κ) : Prop where
  nodup : s.evtTimeRoot.inorder.Nodup
  mem : ∀ e, e ∈ s.evtTimeRoot.inorder ↔ e ∈ s.heap ∧ s.hasFlag e wbaEvtlistTimeout = true
  sorted : s.evtTimeRoot.inorder.Pairwise s.TimerLt
  stamps : ∀ e ∈ s.evtTimeRoot.inorder, s.stamp e < s.stamps

/-- The representation invariant, with the contents of the active list and of the slots. -/
structure WellFormed (s : WbaEvtbase κ) (active : List EvtId) (slot : ℕ → List EvtId) : Prop where
  active : ActiveInv s active
  map : MapInv s slot
  timer : TimerInv s
  timeout_reg : ∀ e ∈ s.heap, s.hasFlag e wbaEvtlistTimeout = true →
    s.hasFlag e wbaEvtlistReg = true
  count : s.eventCount = s.used + s.evtTimeRoot.inorder.length
  heap_nodup : s.heap.Nodup

section Containers

variable {s : WbaEvtbase κ} {active : List EvtId} {slot : ℕ → List EvtId} {e : EvtId}

theorem not_inMap_of_not_reg (hreg : s.hasFlag e wbaEvtlistReg = false) : ¬ s.InMap e := by
  intro hin
  exact Bool.eq_false_iff.1 hreg hin.1

theorem ActiveInv.notMem (h : ActiveInv s active)
    (hflag : s.hasFlag e wbaEvtlistActive = false) : e ∉ active := by
  intro hmem
  exact Bool.eq_false_iff.1 hflag ((h.mem e).1 hmem).2

theorem MapInv.notMem (h : MapInv s slot) (hreg : s.hasFlag e wbaEvtlistReg = false) {i : ℕ}
    (hi : i < evtMapSize) : e ∉ slot i := by
  intro hmem
  exact not_inMap_of_not_reg hreg ((h.mem i hi e).1 hmem).2.1

/-- An event is in one slot only. -/
theorem MapInv.eq_of_mem (h : MapInv s slot) {i j : ℕ} (hi : i < evtMapSize)
    (hj : j < evtMapSize) (hei : e ∈ slot i) (hej : e ∈ slot j) : i = j :=
  ((h.mem i hi e).1 hei).2.2.symm.trans ((h.mem j hj e).1 hej).2.2

theorem TimerInv.notMem (h : TimerInv s) (hflag : s.hasFlag e wbaEvtlistTimeout = false) :
    e ∉ s.evtTimeRoot.inorder := by
  intro hmem
  exact Bool.eq_false_iff.1 hflag ((h.mem e).1 hmem).2

/-- Only registered events have a timer. -/
theorem WellFormed.not_timeout_of_not_reg (h : WellFormed s active slot) (he : e ∈ s.heap)
    (hreg : s.hasFlag e wbaEvtlistReg = false) : s.hasFlag e wbaEvtlistTimeout = false := by
  rw [Bool.eq_false_iff] at hreg ⊢
  intro hset
  exact hreg (h.timeout_reg e he hset)

end Containers

theorem ActiveInv.congr {s t : WbaEvtbase κ} {active : List EvtId} {m : BitVec 16}
    (h : ActiveInv s active) (hsame : SameBut m s.evt t.evt)
    (hm : hasAny m wbaEvtlistActive = false) (hheap : t.heap = s.heap)
    (hlist : t.evtActiveList = s.evtActiveList)
    (hcount : t.eventCountActive = s.eventCountActive) : ActiveInv t active := by
  refine ⟨hlist ▸ h.ring, fun e => ?_, hcount ▸ h.count⟩
  rw [hheap, hasFlag, hsame.flag e _ hm, h.mem]
  rfl

theorem MapInv.congr {s t : WbaEvtbase κ} {slot : ℕ → List EvtId} {m : BitVec 16}
    (h : MapInv s slot) (hsame : SameBut m s.evt t.evt)
    (hm : hasAny m wbaEvtlistReg = false) (hheap : t.heap = s.heap)
    (hlist : t.evtList = s.evtList) (hsize : t.size = s.size)
    (hmask : t.sizemask = s.sizemask) (hused : t.used = s.used) : MapInv t slot := by
  refine ⟨hsize ▸ h.size, hmask ▸ h.sizemask, fun i hi => hlist ▸ h.ring i hi,
    fun i hi e => ?_, hused ▸ h.used⟩
  rw [h.mem i hi, hheap]
  simp only [InMap, slotOf, hasFlag, hasEvent, hsame.flag e _ hm, hsame.fd, hsame.events, hmask]

theorem TimerInv.congr {s t : WbaEvtbase κ} {m : BitVec 16} (h : TimerInv s)
    (hsame : SameBut m s.evt t.evt) (hm : hasAny m wbaEvtlistTimeout = false)
    (htime : ∀ d ∈ s.evtTimeRoot.inorder, (t.evt d).evtTimeout = (s.evt d).evtTimeout)
    (hheap : t.heap = s.heap) (hroot : t.evtTimeRoot = s.evtTimeRoot)
    (hstamp : t.stamp = s.stamp) (hstamps : t.stamps = s.stamps) : TimerInv t := by
  refine ⟨hroot ▸ h.nodup, fun e => ?_, ?_, ?_⟩
  · rw [hroot, h.mem, hheap, hasFlag, hasFlag, hsame.flag e _ hm]
  · rw [hroot]
    refine h.sorted.imp_of_mem fun {d e} hd he hlt => ?_
    simpa only [TimerLt, htime d hd, htime e he, hstamp] using hlt
  · rw [hroot, hstamp, hstamps]
    exact h.stamps

theorem WellFormed.setKernel {s : WbaEvtbase κ} {active : List EvtId} {slot : ℕ → List EvtId}
    (h : WellFormed s active slot) (k : κ) : WellFormed { s with kernel := k } active slot :=
  ⟨h.active.congr (SameBut.refl 0 s.evt) (by decide) rfl rfl rfl,
    h.map.congr (SameBut.refl 0 s.evt) (by decide) rfl rfl rfl rfl rfl,
    h.timer.congr (SameBut.refl 0 s.evt) (by decide) (fun _ _ => rfl) rfl rfl rfl rfl,
    h.timeout_reg, h.count, h.heap_nodup⟩

/-! ### The active list -/

section Active

variable {s : WbaEvtbase κ} {active : List EvtId} {slot : ℕ → List EvtId} {e : EvtId}

/-- An operation on the active list keeps the rest of the invariant. -/
theorem WellFormed.ofActive {t : WbaEvtbase κ} {active' : List EvtId}
    (h : WellFormed s active slot) (hactive : ActiveInv t active')
    (hsame : SameBut wbaEvtlistActive s.evt t.evt)
    (htime : ∀ d, (t.evt d).evtTimeout = (s.evt d).evtTimeout) (hheap : t.heap = s.heap)
    (hmap : t.evtList = s.evtList ∧ t.size = s.size ∧ t.sizemask = s.sizemask ∧ t.used = s.used)
    (htree : t.evtTimeRoot = s.evtTimeRoot ∧ t.stamp = s.stamp ∧ t.stamps = s.stamps)
    (hcount : t.eventCount = s.eventCount) : WellFormed t active' slot := by
  obtain ⟨hlist, hsize, hmask, hused⟩ := hmap
  obtain ⟨hroot, hstamp, hstamps⟩ := htree
  refine ⟨hactive, h.map.congr hsame (by decide) hheap hlist hsize hmask hused,
    h.timer.congr hsame (by decide) (fun d _ => htime d) hheap hroot hstamp hstamps, ?_, ?_,
    hheap ▸ h.heap_nodup⟩
  · intro d hd hto
    rw [hasFlag, hsame.flag d _ (by decide)] at hto ⊢
    exact h.timeout_reg d (hheap ▸ hd) hto
  · rw [hcount, hused, hroot, h.count]

theorem eventAddActive_of_active (res : BitVec 16) (h : s.hasFlag e wbaEvtlistActive = true) :
    s.eventAddActive e res = s := by
  simp [eventAddActive, h]

theorem sameBut_eventAddActive (s : WbaEvtbase κ) (e : EvtId) (res : BitVec 16) :
    SameBut wbaEvtlistActive s.evt (s.eventAddActive e res).evt := by
  unfold eventAddActive
  split_ifs
  · exact SameBut.refl _ _
  · have hres := sameBut_modifyEvt s e wbaEvtlistActive
      (f := fun v => { v with res := res }) fun _ => ⟨rfl, rfl, rfl⟩
    exact hres.trans (sameBut_setFlags _ e wbaEvtlistActive)

theorem WellFormed.eventAddActive (h : WellFormed s active slot) (he : e ∈ s.heap)
    (hflag : s.hasFlag e wbaEvtlistActive = false) (res : BitVec 16) :
    WellFormed (s.eventAddActive e res) (active ++ [e]) slot := by
  have hsame := sameBut_eventAddActive s e res
  have hnew : e ∉ active := h.active.notMem hflag
  rw [WbaEvtbase.eventAddActive, if_neg (by simp [hflag])] at hsame ⊢
  have htime : ∀ d, (((s.modifyEvt e fun v => { v with res := res }).setFlags e
      wbaEvtlistActive).evt d).evtTimeout = (s.evt d).evtTimeout := by
    intro d
    rw [setFlags_evtTimeout, modifyEvt_evtTimeout]
    exact fun _ => rfl
  refine h.ofActive ⟨h.active.ring.listAddTail hnew, fun d => ?_, ?_⟩ hsame htime rfl
    ⟨rfl, rfl, rfl, rfl⟩ ⟨rfl, rfl, rfl⟩ rfl
  · have hset := hasFlag_setFlags (s.modifyEvt e fun v => { v with res := res }) e d
      (m := wbaEvtlistActive) (by decide)
    have hres : (s.modifyEvt e fun v => { v with res := res }).hasFlag d wbaEvtlistActive =
        s.hasFlag d wbaEvtlistActive := by
      refine (sameBut_modifyEvt s e 0 ?_).flag d _ (by decide)
      exact fun _ => ⟨rfl, rfl, rfl⟩
    change _ ↔ d ∈ s.heap ∧ ((s.modifyEvt e fun v => { v with res := res }).setFlags e
      wbaEvtlistActive).hasFlag d wbaEvtlistActive = true
    rw [hset, hres, List.mem_append, List.mem_singleton, h.active.mem d]
    by_cases hde : d = e
    · subst hde
      simp [he]
    · simp [hde]
  · simp only [List.length_append, List.length_singleton, Nat.cast_add, Nat.cast_one]
    exact congrArg (· + 1) h.active.count

theorem sameBut_eventRemoveActive (s : WbaEvtbase κ) (e : EvtId) :
    SameBut wbaEvtlistActive s.evt (s.eventRemoveActive e).evt := by
  unfold eventRemoveActive
  split_ifs
  · exact sameBut_clearFlags _ e wbaEvtlistActive
  · exact SameBut.refl _ _

theorem WellFormed.eventRemoveActive (h : WellFormed s active slot) (he : e ∈ s.heap) :
    WellFormed (s.eventRemoveActive e) (active.erase e) slot := by
  have hsame := sameBut_eventRemoveActive s e
  unfold WbaEvtbase.eventRemoveActive at hsame ⊢
  split_ifs at hsame ⊢ with hflag
  · have hmem : e ∈ active := (h.active.mem e).2 ⟨he, hflag⟩
    refine h.ofActive ⟨h.active.ring.listDelInit hmem, fun d => ?_, ?_⟩ hsame
      (clearFlags_evtTimeout s e wbaEvtlistActive) rfl
      ⟨rfl, rfl, rfl, rfl⟩ ⟨rfl, rfl, rfl⟩ rfl
    · rw [h.active.ring.nodup.mem_erase_iff, h.active.mem d, and_left_comm]
      exact and_congr_right fun _ => (hasFlag_clearFlags s e d wbaEvtlistActive).symm
    · have hlen := List.length_erase_of_mem hmem
      have hpos := List.length_pos_of_mem hmem
      have hcount : s.eventCountActive = active.length := h.active.count
      change s.eventCountActive - 1 = ((active.erase e).length : ℤ)
      omega
  · have hmem : e ∉ active := fun hmem => hflag ((h.active.mem e).1 hmem).2
    rw [List.erase_of_not_mem hmem]
    exact h

end Active

/-! ### The event map -/

section Map

variable {s : WbaEvtbase κ} {active : List EvtId} {slot : ℕ → List EvtId} {e : EvtId}

/-- An operation on the event map keeps the rest of the invariant. -/
theorem WellFormed.ofMap {t : WbaEvtbase κ} {slot' : ℕ → List EvtId}
    (h : WellFormed s active slot) (hmap : MapInv t slot')
    (hsame : SameBut wbaEvtlistReg s.evt t.evt)
    (htime : ∀ d, (t.evt d).evtTimeout = (s.evt d).evtTimeout) (hheap : t.heap = s.heap)
    (hactive : t.evtActiveList = s.evtActiveList ∧ t.eventCountActive = s.eventCountActive)
    (htree : t.evtTimeRoot = s.evtTimeRoot ∧ t.stamp = s.stamp ∧ t.stamps = s.stamps)
    (hreg : ∀ d ∈ s.heap, s.hasFlag d wbaEvtlistTimeout = true →
      t.hasFlag d wbaEvtlistReg = true)
    (hcount : t.eventCount - s.eventCount = t.used - s.used) : WellFormed t active slot' := by
  obtain ⟨hroot, hstamp, hstamps⟩ := htree
  refine ⟨h.active.congr hsame (by decide) hheap hactive.1 hactive.2, hmap,
    h.timer.congr hsame (by decide) (fun d _ => htime d) hheap hroot hstamp hstamps, ?_, ?_,
    hheap ▸ h.heap_nodup⟩
  · intro d hd hto
    rw [hasFlag, hsame.flag d _ (by decide)] at hto
    exact hreg d (hheap ▸ hd) hto
  · have hold := h.count
    rw [hroot]
    omega

theorem MapInv.slotOf_lt (h : MapInv s slot) (e : EvtId) : s.slotOf e < evtMapSize := by
  have hle : s.slotOf e ≤ s.sizemask := Nat.and_le_right
  rw [h.sizemask] at hle
  exact lt_of_le_of_lt hle (by decide)

/-- Two slots have no node in common. -/
theorem MapInv.slot_disjoint (h : MapInv s slot) {i j : ℕ} (hi : i < evtMapSize)
    (hj : j < evtMapSize) (hij : i ≠ j) :
    ∀ y ∈ (head i : ListHead ℕ EvtId) :: (slot i).map entry,
      y ∉ (head j : ListHead ℕ EvtId) :: (slot j).map entry := by
  intro y hy
  rcases List.mem_cons.1 hy with rfl | hy
  · simp [hij]
  · obtain ⟨d, hd, rfl⟩ := List.mem_map.1 hy
    have hother : d ∉ slot j := fun hmem => hij (h.eq_of_mem hi hj hd hmem)
    simp [hother]

theorem sum_length_update {n i : ℕ} (hi : i < n) (slot : ℕ → List EvtId) (l : List EvtId) :
    ∑ j ∈ Finset.range n, ((Function.update slot i l j).length : ℤ) =
      ∑ j ∈ Finset.range n, ((slot j).length : ℤ) - (slot i).length + l.length := by
  have hmem : i ∈ Finset.range n := Finset.mem_range.2 hi
  rw [← Finset.add_sum_erase _ _ hmem, ← Finset.add_sum_erase _ _ hmem]
  have hrest : ∑ j ∈ (Finset.range n).erase i, ((Function.update slot i l j).length : ℤ) =
      ∑ j ∈ (Finset.range n).erase i, ((slot j).length : ℤ) := by
    refine Finset.sum_congr rfl fun j hj => ?_
    rw [Function.update_of_ne (Finset.ne_of_mem_erase hj)]
  rw [hrest, Function.update_self]
  omega

/-- Setting the flag `REG` of an event that does not enter the map by it. -/
theorem MapInv.setReg (h : MapInv s slot)
    (hkeep : s.hasFlag e wbaEvtlistReg = true ∨
      ¬ (0 ≤ (s.evt e).fd ∧ s.hasEvent e wbaEvtIo = true)) :
    MapInv (s.setFlags e wbaEvtlistReg) slot := by
  have hsame := sameBut_setFlags s e wbaEvtlistReg
  refine ⟨h.size, h.sizemask, h.ring, fun i hi d => ?_, h.used⟩
  rw [h.mem i hi d]
  rw [inMap_setFlags_of_keep hkeep, slotOf, slotOf, hsame.fd]
  rfl

theorem eventMapLink_eq (hfd : 0 ≤ (s.evt e).fd) :
    s.eventMapLink e =
      { s with
        evtList := s.evtList.listAddTail (entry e) (head (s.slotOf e))
        used := s.used + 1
        eventCount := s.eventCount + 1 } := by
  rw [eventMapLink, eventMapGetSlot, if_neg (by omega)]
  rfl

/-- Linking an event into its slot and setting the flag `REG`. -/
theorem MapInv.linkReg (h : MapInv s slot) (he : e ∈ s.heap)
    (hreg : s.hasFlag e wbaEvtlistReg = false) (hfd : 0 ≤ (s.evt e).fd)
    (hio : s.hasEvent e wbaEvtIo = true) :
    MapInv ((s.eventMapLink e).setFlags e wbaEvtlistReg)
      (Function.update slot (s.slotOf e) (slot (s.slotOf e) ++ [e])) := by
  have hlt := h.slotOf_lt e
  have hnot : ∀ i < evtMapSize, e ∉ slot i := by
    intro i hi hmem
    have hin := ((h.mem i hi e).1 hmem).2.1.1
    simp [hreg] at hin
  rw [eventMapLink_eq hfd]
  set t : WbaEvtbase κ := { s with
    evtList := s.evtList.listAddTail (entry e) (head (s.slotOf e))
    used := s.used + 1
    eventCount := s.eventCount + 1 } with ht
  have hsame := sameBut_setFlags t e wbaEvtlistReg
  refine ⟨h.size, h.sizemask, fun i hi => ?_, fun i hi d => ?_, ?_⟩
  · by_cases his : i = s.slotOf e
    · subst his
      rw [Function.update_self]
      exact (h.ring _ hi).listAddTail (hnot _ hi)
    · rw [Function.update_of_ne his]
      have hne : ∀ y ∈ (head i : ListHead ℕ EvtId) :: (slot i).map entry, y ≠ entry e := by
        rintro y hy rfl
        exact hnot i hi (by simpa using hy)
      have hframe : ∀ y ∈ (head i : ListHead ℕ EvtId) :: (slot i).map entry, _ :=
        fun y hy => (h.ring _ hlt).listAddTail_frame (h.slot_disjoint hi hlt his y hy) (hne y hy)
      exact (h.ring i hi).congr (fun y hy => (hframe y hy).1) fun y hy => (hframe y hy).2
  · have hin : (t.setFlags e wbaEvtlistReg).InMap d ↔ d = e ∨ s.InMap d := by
      rw [inMap_setFlags, or_comm]
      exact or_congr_left (and_iff_left ⟨hfd, hio⟩)
    have hslot : (t.setFlags e wbaEvtlistReg).slotOf d = s.slotOf d := by
      rw [slotOf, slotOf, hsame.fd]
      rfl
    rw [hin, hslot]
    change _ ↔ d ∈ s.heap ∧ _
    by_cases hde : d = e
    · subst hde
      by_cases his : i = s.slotOf d
      · subst his
        simp [he]
      · simp [Function.update_of_ne his, hnot i hi, Ne.symm his]
    · have hold : d ∈ Function.update slot (s.slotOf e) (slot (s.slotOf e) ++ [e]) i ↔
          d ∈ slot i := by
        by_cases his : i = s.slotOf e
        · subst his
          simp [hde]
        · simp [Function.update_of_ne his]
      rw [hold, h.mem i hi d]
      simp [hde]
  · rw [sum_length_update hlt, List.length_append, List.length_singleton]
    have hused := h.used
    change s.used + 1 = _
    push_cast
    omega

/-- Clearing the flag `REG` of an event that is not in the map. -/
theorem MapInv.clearReg (h : MapInv s slot)
    (hnot : ¬ (0 ≤ (s.evt e).fd ∧ s.hasEvent e wbaEvtIo = true)) :
    MapInv (s.clearFlags e wbaEvtlistReg) slot := by
  have hsame := sameBut_clearFlags s e wbaEvtlistReg
  refine ⟨h.size, h.sizemask, h.ring, fun i hi d => ?_, h.used⟩
  rw [h.mem i hi d]
  rw [inMap_clearFlags_of_not hnot, slotOf, slotOf, hsame.fd]
  rfl

/-- Unlinking an event from its slot and clearing the flag `REG`. -/
theorem MapInv.unlinkReg (h : MapInv s slot) (he : e ∈ s.heap) (hin : s.InMap e) :
    MapInv ((s.eventMapUnlink e).clearFlags e wbaEvtlistReg)
      (Function.update slot (s.slotOf e) ((slot (s.slotOf e)).erase e)) := by
  have hlt := h.slotOf_lt e
  have hmem : e ∈ slot (s.slotOf e) := (h.mem _ hlt e).2 ⟨he, hin, rfl⟩
  have hsame := sameBut_clearFlags (s.eventMapUnlink e) e wbaEvtlistReg
  refine ⟨h.size, h.sizemask, fun i hi => ?_, fun i hi d => ?_, ?_⟩
  · by_cases his : i = s.slotOf e
    · subst his
      rw [Function.update_self]
      exact (h.ring _ hi).listDelInit hmem
    · rw [Function.update_of_ne his]
      have hframe : ∀ y ∈ (head i : ListHead ℕ EvtId) :: (slot i).map entry, _ :=
        fun y hy => (h.ring _ hlt).listDelInit_frame hmem (h.slot_disjoint hi hlt his y hy)
      exact (h.ring i hi).congr (fun y hy => (hframe y hy).1) fun y hy => (hframe y hy).2
  · have hin' : ((s.eventMapUnlink e).clearFlags e wbaEvtlistReg).InMap d ↔ d ≠ e ∧ s.InMap d := by
      rw [inMap_clearFlags]
      rfl
    have hslot : ((s.eventMapUnlink e).clearFlags e wbaEvtlistReg).slotOf d = s.slotOf d := by
      rw [slotOf, slotOf, hsame.fd]
      rfl
    rw [hin', hslot]
    change _ ↔ d ∈ s.heap ∧ _
    by_cases his : i = s.slotOf e
    · subst his
      rw [Function.update_self, (h.ring _ hi).nodup.mem_erase_iff, h.mem _ hi d]
      tauto
    · rw [Function.update_of_ne his, h.mem i hi d]
      have hde : s.slotOf d = i → d ≠ e := fun hd hde => his (hd.symm.trans (congrArg s.slotOf hde))
      tauto
  · have hlen := List.length_erase_of_mem hmem
    have hpos := List.length_pos_of_mem hmem
    have hused := h.used
    rw [sum_length_update hlt]
    change s.used - 1 = _
    omega

/-- Erasing an event from every slot only changes the slot of its descriptor. -/
theorem MapInv.erase_slots (h : MapInv s slot) (e : EvtId) :
    ∀ i < evtMapSize,
      Function.update slot (s.slotOf e) ((slot (s.slotOf e)).erase e) i = (slot i).erase e := by
  intro i hi
  by_cases his : i = s.slotOf e
  · subst his
    rw [Function.update_self]
  · have hnot : e ∉ slot i := fun hmem => his ((h.mem i hi e).1 hmem).2.2.symm
    rw [Function.update_of_ne his, List.erase_of_not_mem hnot]

/-- The invariant of the map only reads the slots the map has. -/
theorem MapInv.congr_slot {slot' : ℕ → List EvtId} (h : MapInv s slot)
    (heq : ∀ i < evtMapSize, slot i = slot' i) : MapInv s slot' := by
  refine ⟨h.size, h.sizemask, fun i hi => heq i hi ▸ h.ring i hi,
    fun i hi e => heq i hi ▸ h.mem i hi e, h.used.trans ?_⟩
  refine Finset.sum_congr rfl fun i hi => ?_
  rw [heq i (Finset.mem_range.1 hi)]

end Map

/-! ### The time tree -/

section Timer

variable {s : WbaEvtbase κ} {active : List EvtId} {slot : ℕ → List EvtId} {e : EvtId}

/-- An operation on the time tree keeps the rest of the invariant. -/
theorem WellFormed.ofTimer {t : WbaEvtbase κ} (h : WellFormed s active slot) (htimer : TimerInv t)
    (hsame : SameBut wbaEvtlistTimeout s.evt t.evt) (hheap : t.heap = s.heap)
    (hactive : t.evtActiveList = s.evtActiveList ∧ t.eventCountActive = s.eventCountActive)
    (hmap : t.evtList = s.evtList ∧ t.size = s.size ∧ t.sizemask = s.sizemask ∧ t.used = s.used)
    (hreg : ∀ d ∈ s.heap, t.hasFlag d wbaEvtlistTimeout = true →
      s.hasFlag d wbaEvtlistReg = true)
    (hcount : t.eventCount - s.eventCount =
      t.evtTimeRoot.inorder.length - s.evtTimeRoot.inorder.length) : WellFormed t active slot := by
  obtain ⟨hlist, hsize, hmask, hused⟩ := hmap
  refine ⟨h.active.congr hsame (by decide) hheap hactive.1 hactive.2,
    h.map.congr hsame (by decide) hheap hlist hsize hmask hused, htimer, ?_, ?_,
    hheap ▸ h.heap_nodup⟩
  · intro d hd hto
    rw [hasFlag, hsame.flag d _ (by decide)]
    exact hreg d (hheap ▸ hd) hto
  · have hold := h.count
    omega

theorem sameBut_eventRemoveTimeout (s : WbaEvtbase κ) (e : EvtId) :
    SameBut wbaEvtlistTimeout s.evt (s.eventRemoveTimeout e).evt := by
  unfold eventRemoveTimeout
  split_ifs
  · exact sameBut_clearFlags _ e wbaEvtlistTimeout
  · exact SameBut.refl _ _

theorem TimerInv.inorder_eventRemoveTimeout (h : TimerInv s) (he : e ∈ s.heap) :
    (s.eventRemoveTimeout e).evtTimeRoot.inorder = s.evtTimeRoot.inorder.erase e := by
  unfold eventRemoveTimeout
  split_ifs with hflag
  · exact RbTree.inorder_rbErase ((h.mem e).2 ⟨he, hflag⟩) h.nodup
  · have hnot : e ∉ s.evtTimeRoot.inorder := fun hmem => hflag ((h.mem e).1 hmem).2
    rw [List.erase_of_not_mem hnot]

theorem TimerInv.eventRemoveTimeout (h : TimerInv s) (he : e ∈ s.heap) :
    TimerInv (s.eventRemoveTimeout e) := by
  have hin := h.inorder_eventRemoveTimeout he
  unfold WbaEvtbase.eventRemoveTimeout at hin ⊢
  split_ifs at hin ⊢ with hflag
  · have hsub := List.erase_sublist (a := e) (l := s.evtTimeRoot.inorder)
    rw [← hin] at hsub
    refine ⟨h.nodup.sublist hsub, fun d => ?_, ?_, fun d hd => h.stamps d (hsub.subset hd)⟩
    · rw [hin, h.nodup.mem_erase_iff, h.mem d, and_left_comm]
      exact and_congr_right fun _ => (hasFlag_clearFlags s e d wbaEvtlistTimeout).symm
    · refine (h.sorted.sublist hsub).imp fun {c d} hlt => ?_
      have hc := clearFlags_evtTimeout s e wbaEvtlistTimeout c
      have hd := clearFlags_evtTimeout s e wbaEvtlistTimeout d
      simp only [TimerLt] at hlt ⊢
      rw [← hc, ← hd] at hlt
      exact hlt
  · exact h

theorem WellFormed.eventRemoveTimeout (h : WellFormed s active slot) (he : e ∈ s.heap) :
    WellFormed (s.eventRemoveTimeout e) active slot := by
  have htimer := h.timer.eventRemoveTimeout he
  have hsame := sameBut_eventRemoveTimeout s e
  have hin := h.timer.inorder_eventRemoveTimeout he
  unfold WbaEvtbase.eventRemoveTimeout at htimer hsame hin ⊢
  split_ifs at htimer hsame hin ⊢ with hflag
  · have hmem : e ∈ s.evtTimeRoot.inorder := (h.timer.mem e).2 ⟨he, hflag⟩
    refine h.ofTimer htimer hsame rfl ⟨rfl, rfl⟩ ⟨rfl, rfl, rfl, rfl⟩ (fun d hd hto => ?_) ?_
    · exact h.timeout_reg d hd ((hasFlag_clearFlags s e d _).1 hto).2
    · have hlen := List.length_erase_of_mem hmem
      have hpos := List.length_pos_of_mem hmem
      rw [hin]
      change s.eventCount - 1 - s.eventCount = _
      omega
  · exact h

/-- The free place that `event_add_timeout` descends to lies behind the nodes that are not
greater than the new one and before the others. -/
theorem timeoutLink_spec (less : EvtId → Bool) (t : RbTree EvtId) (p : RbPath EvtId)
    (hmono : t.inorder.Pairwise fun a b => less a = true → less b = true) :
    RbTree.before (timeoutLink less t p) =
        RbTree.before p ++ t.inorder.filter (fun x => !less x) ∧
      RbTree.after (timeoutLink less t p) = t.inorder.filter less ++ RbTree.after p := by
  induction t generalizing p with
  | nil => simp [timeoutLink]
  | node c l x r ihl ihr =>
      rw [RbTree.inorder_node, List.pairwise_append, List.pairwise_cons] at hmono
      obtain ⟨hl, ⟨hx, hr⟩, hlr⟩ := hmono
      by_cases hless : less x = true
      · have hall : ∀ y ∈ r.inorder, less y = true := fun y hy => hx y hy hless
        have hnone : r.inorder.filter (fun y => !less y) = [] := by
          simpa using hall
        have hsome : r.inorder.filter less = r.inorder := by
          simpa using hall
        simp [timeoutLink, hless, ihl _ hl, RbTree.before, RbTree.after, hnone, hsome]
      · have hall : ∀ y ∈ l.inorder, ¬ less y = true := fun y hy hy' =>
          hless (hlr y hy x (by simp) hy')
        have hnone : l.inorder.filter less = [] := by
          simpa using hall
        have hsome : l.inorder.filter (fun y => !less y) = l.inorder := by
          simpa using hall
        simp [timeoutLink, hless, ihr _ hr, RbTree.before, RbTree.after, hnone, hsome]

/-- The deadline of `e` is before that of `d`. -/
def timeLess (s : WbaEvtbase κ) (e d : EvtId) : Bool :=
  decide (eventTimecmp (s.evt e).evtTimeout (s.evt d).evtTimeout < 0)

theorem timeLess_iff (s : WbaEvtbase κ) (e d : EvtId) :
    s.timeLess e d = true ↔ (s.evt e).evtTimeout.key < (s.evt d).evtTimeout.key := by
  rw [timeLess, decide_eq_true_iff, eventTimecmp_neg_iff]

theorem TimerLt.key_le {d c : EvtId} (h : s.TimerLt d c) :
    (s.evt d).evtTimeout.key ≤ (s.evt c).evtTimeout.key := by
  rcases h with hlt | ⟨heq, -⟩
  · exact hlt.le
  · exact heq.le

/-- What comes after a later timer is later too. -/
theorem TimerInv.timeLess_mono (h : TimerInv s) (e : EvtId) :
    s.evtTimeRoot.inorder.Pairwise
      fun a b => s.timeLess e a = true → s.timeLess e b = true := by
  refine h.sorted.imp fun {a b} hab ha => ?_
  rw [timeLess_iff] at ha ⊢
  exact ha.trans_le (TimerLt.key_le hab)

theorem TimerInv.inorder_eventAddTimeout (h : TimerInv s)
    (hflag : s.hasFlag e wbaEvtlistTimeout = false) :
    (s.eventAddTimeout e).evtTimeRoot.inorder =
      s.evtTimeRoot.inorder.filter (fun d => !s.timeLess e d) ++
        e :: s.evtTimeRoot.inorder.filter (s.timeLess e) := by
  obtain ⟨hbefore, hafter⟩ :=
    timeoutLink_spec (s.timeLess e) s.evtTimeRoot [] (h.timeLess_mono e)
  rw [eventAddTimeout, if_neg (by simp [hflag])]
  change (RbTree.rbInsertColor _ (timeoutLink (s.timeLess e) s.evtTimeRoot [])).inorder = _
  rw [RbTree.inorder_rbInsertColor, hbefore, hafter]
  simp [RbTree.before, RbTree.after]

theorem sameBut_eventAddTimeout (s : WbaEvtbase κ) (e : EvtId) :
    SameBut wbaEvtlistTimeout s.evt (s.eventAddTimeout e).evt := by
  unfold eventAddTimeout
  split_ifs
  · exact SameBut.refl _ _
  · exact sameBut_setFlags _ e wbaEvtlistTimeout

theorem mem_eventAddTimeout_inorder (h : TimerInv s)
    (hflag : s.hasFlag e wbaEvtlistTimeout = false) (d : EvtId) :
    d ∈ (s.eventAddTimeout e).evtTimeRoot.inorder ↔ d = e ∨ d ∈ s.evtTimeRoot.inorder := by
  rw [h.inorder_eventAddTimeout hflag, List.mem_append, List.mem_cons, List.mem_filter,
    List.mem_filter]
  cases hless : s.timeLess e d <;> simp [or_comm]

theorem eventAddTimeout_evtTimeout (s : WbaEvtbase κ) (e d : EvtId) :
    ((s.eventAddTimeout e).evt d).evtTimeout = (s.evt d).evtTimeout := by
  unfold eventAddTimeout
  split_ifs
  · rfl
  · exact setFlags_evtTimeout _ e wbaEvtlistTimeout d

theorem eventAddTimeout_stamp (hflag : s.hasFlag e wbaEvtlistTimeout = false) :
    (s.eventAddTimeout e).stamp = Function.update s.stamp e s.stamps ∧
      (s.eventAddTimeout e).stamps = s.stamps + 1 := by
  rw [eventAddTimeout, if_neg (by simp [hflag])]
  exact ⟨rfl, rfl⟩

theorem mem_eventAddTimeout_flag (hflag : s.hasFlag e wbaEvtlistTimeout = false) (d : EvtId) :
    (d ∈ (s.eventAddTimeout e).heap ∧
        (s.eventAddTimeout e).hasFlag d wbaEvtlistTimeout = true) ↔
      d ∈ s.heap ∧ (d = e ∨ s.hasFlag d wbaEvtlistTimeout = true) := by
  rw [eventAddTimeout, if_neg (by simp [hflag])]
  exact and_congr_right fun _ => hasFlag_setFlags _ e d (by decide)

/-- A new timer is behind the timers that are not after it and before the others. -/
theorem TimerInv.sorted_eventAddTimeout (h : TimerInv s)
    (hflag : s.hasFlag e wbaEvtlistTimeout = false) :
    (s.eventAddTimeout e).evtTimeRoot.inorder.Pairwise (s.eventAddTimeout e).TimerLt := by
  have hstamp : ∀ d ∈ s.evtTimeRoot.inorder, (s.eventAddTimeout e).stamp d = s.stamp d := by
    intro d hd
    rw [(eventAddTimeout_stamp hflag).1, Function.update_of_ne]
    rintro rfl
    exact h.notMem hflag hd
  have hkeep : ∀ p : EvtId → Bool, (s.evtTimeRoot.inorder.filter p).Pairwise
      (s.eventAddTimeout e).TimerLt := by
    intro p
    refine (h.sorted.sublist List.filter_sublist).imp_of_mem fun {a b} ha hb hab => ?_
    rw [TimerLt, eventAddTimeout_evtTimeout, eventAddTimeout_evtTimeout,
      hstamp a (List.mem_of_mem_filter ha), hstamp b (List.mem_of_mem_filter hb)]
    exact hab
  rw [h.inorder_eventAddTimeout hflag, List.pairwise_append, List.pairwise_cons]
  refine ⟨hkeep _, ⟨fun b hb => ?_, hkeep _⟩, fun a ha b hb => ?_⟩
  · rw [TimerLt, eventAddTimeout_evtTimeout, eventAddTimeout_evtTimeout]
    exact Or.inl ((s.timeLess_iff e b).1 (List.mem_filter.1 hb).2)
  · have hamem := List.mem_of_mem_filter ha
    have hale : (s.evt a).evtTimeout.key ≤ (s.evt e).evtTimeout.key := by
      have hnot := (List.mem_filter.1 ha).2
      rw [Bool.not_eq_true', ← Bool.not_eq_true, timeLess_iff, not_lt] at hnot
      exact hnot
    rw [TimerLt, eventAddTimeout_evtTimeout, eventAddTimeout_evtTimeout, hstamp a hamem]
    rcases List.mem_cons.1 hb with rfl | hb
    · rw [(eventAddTimeout_stamp hflag).1, Function.update_self]
      rcases hale.lt_or_eq with hlt | heq
      · exact Or.inl hlt
      · exact Or.inr ⟨heq, h.stamps a hamem⟩
    · exact Or.inl (hale.trans_lt ((s.timeLess_iff e b).1 (List.mem_filter.1 hb).2))

theorem TimerInv.eventAddTimeout (h : TimerInv s) (he : e ∈ s.heap)
    (hflag : s.hasFlag e wbaEvtlistTimeout = false) : TimerInv (s.eventAddTimeout e) := by
  have hnew : e ∉ s.evtTimeRoot.inorder := h.notMem hflag
  refine ⟨?_, fun d => ?_, h.sorted_eventAddTimeout hflag, fun d hd => ?_⟩
  · rw [h.inorder_eventAddTimeout hflag, List.nodup_append, List.nodup_cons]
    refine ⟨h.nodup.filter _, ⟨fun hmem => hnew (List.mem_of_mem_filter hmem),
      h.nodup.filter _⟩, fun a ha b hb hab => ?_⟩
    subst hab
    have hless := (List.mem_filter.1 ha).2
    rcases List.mem_cons.1 hb with hae | hb
    · exact hnew (hae ▸ List.mem_of_mem_filter ha)
    · simp [(List.mem_filter.1 hb).2] at hless
  · rw [mem_eventAddTimeout_inorder h hflag, mem_eventAddTimeout_flag hflag, h.mem d]
    by_cases hde : d = e
    · subst hde
      simp [he]
    · simp [hde]
  · rw [(eventAddTimeout_stamp hflag).1, (eventAddTimeout_stamp hflag).2]
    by_cases hde : d = e
    · simp [hde]
    · rw [Function.update_of_ne hde]
      rw [mem_eventAddTimeout_inorder h hflag] at hd
      exact Nat.lt_succ_of_lt (h.stamps d (hd.resolve_left hde))

theorem WellFormed.eventAddTimeout (h : WellFormed s active slot) (he : e ∈ s.heap)
    (hreg : s.hasFlag e wbaEvtlistReg = true)
    (hflag : s.hasFlag e wbaEvtlistTimeout = false) :
    WellFormed (s.eventAddTimeout e) active slot := by
  have htimer := h.timer.eventAddTimeout he hflag
  have hsame := sameBut_eventAddTimeout s e
  have hin := h.timer.inorder_eventAddTimeout hflag
  rw [WbaEvtbase.eventAddTimeout, if_neg (by simp [hflag])] at htimer hsame hin ⊢
  refine h.ofTimer htimer hsame rfl ⟨rfl, rfl⟩ ⟨rfl, rfl, rfl, rfl⟩ (fun d hd hto => ?_) ?_
  · rcases (hasFlag_setFlags _ e d (by decide)).1 hto with rfl | hto
    · exact hreg
    · exact h.timeout_reg d hd hto
  · have hlen := List.length_eq_length_filter_add (l := s.evtTimeRoot.inorder) (s.timeLess e)
    rw [hin, List.length_append, List.length_cons]
    change s.eventCount + 1 - s.eventCount = _
    push_cast
    omega

end Timer

end WbaEvtbase

end Miscellany
