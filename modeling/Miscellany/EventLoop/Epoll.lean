import Miscellany.EventLoop.Reachable

/-!
# The event map and the kernel

`EpollCtl` says what `epoll_ctl` does to the set of descriptors that the kernel watches.
Over every run the watched descriptors are those of the events in the map, each with
the mask of its event (`Agrees`). Since at most one event of the map has a given
descriptor, the kernel always knows the descriptor that `event_map_remove` wants to
remove.

To observe that no deregistration ever fails, also not in the middle of a step, the
kernel is given a flag that records a failure (`watched`). The program cannot read it.
-/

namespace Miscellany

open ListHead

/-- The kernel keeps a mask for every watched descriptor. Adding a descriptor fails when it is
watched, and may fail otherwise; removing it succeeds exactly when it is watched. Nothing else
changes the set. -/
structure EpollCtl {κ : Type*} (K : Kernel κ) (interest : κ → ℤ → Option (BitVec 32)) : Prop where
  add : ∀ k fd m, (K.epollCtlAdd k fd m).1 = true → interest k fd = none ∧
    interest (K.epollCtlAdd k fd m).2 = Function.update (interest k) fd (some m)
  add_fails : ∀ k fd m, (K.epollCtlAdd k fd m).1 = false →
    interest (K.epollCtlAdd k fd m).2 = interest k
  del : ∀ k fd, (K.epollCtlDel k fd).1 = true ↔ interest k fd ≠ none
  del_effect : ∀ k fd,
    interest (K.epollCtlDel k fd).2 = Function.update (interest k) fd none
  wait : ∀ k n timeout, interest (K.epollWait k n timeout).2 = interest k
  clock : ∀ k, interest (K.clockGettime k).2 = interest k

/-- The kernel with a flag that is set when removing a descriptor fails. -/
def watched {κ : Type*} (K : Kernel κ) : Kernel (κ × Bool) where
  epollCtlAdd k fd m := ((K.epollCtlAdd k.1 fd m).1, (K.epollCtlAdd k.1 fd m).2, k.2)
  epollCtlDel k fd :=
    ((K.epollCtlDel k.1 fd).1, (K.epollCtlDel k.1 fd).2, k.2 || !(K.epollCtlDel k.1 fd).1)
  epollWait k n timeout := ((K.epollWait k.1 n timeout).1, (K.epollWait k.1 n timeout).2, k.2)
  clockGettime k := ((K.clockGettime k.1).1, (K.clockGettime k.1).2, k.2)
  stack k := K.stack k.1

namespace WbaEvtbase

variable {κ : Type*} {K : Kernel κ} {interest : κ → ℤ → Option (BitVec 32)}
variable {s t : WbaEvtbase (κ × Bool)} {e : EvtId}

/-- The watched descriptors are those of the events in the map, at most one for each descriptor,
and no descriptor could not be removed. -/
structure Agrees (interest : κ → ℤ → Option (BitVec 32)) (s : WbaEvtbase (κ × Bool)) : Prop where
  interest : ∀ fd m, interest s.kernel.1 fd = some m ↔
    ∃ e ∈ s.heap, s.InMap e ∧ (s.evt e).fd = fd ∧ epollMask (s.evt e).events = m
  unique : ∀ d ∈ s.heap, ∀ e ∈ s.heap, s.InMap d → s.InMap e →
    (s.evt d).fd = (s.evt e).fd → d = e
  noFailure : s.kernel.2 = false

/-- The property only depends on the events of the map and on the kernel. -/
theorem Agrees.congr (h : Agrees interest s)
    (hin : ∀ d, d ∈ t.heap ∧ t.InMap d ↔ d ∈ s.heap ∧ s.InMap d)
    (hevt : ∀ d ∈ s.heap, s.InMap d →
      (t.evt d).fd = (s.evt d).fd ∧ (t.evt d).events = (s.evt d).events)
    (hkernel : interest t.kernel.1 = interest s.kernel.1) (hflag : t.kernel.2 = s.kernel.2) :
    Agrees interest t := by
  refine ⟨fun fd m => ?_, ?_, hflag.trans h.noFailure⟩
  · rw [hkernel, h.interest fd m]
    constructor
    · rintro ⟨d, hd, hdin, hfd, hm⟩
      obtain ⟨hd', hdin'⟩ := (hin d).2 ⟨hd, hdin⟩
      obtain ⟨hfd', hev'⟩ := hevt d hd hdin
      exact ⟨d, hd', hdin', hfd'.trans hfd, by rw [hev', hm]⟩
    · rintro ⟨d, hd, hdin, hfd, hm⟩
      obtain ⟨hd', hdin'⟩ := (hin d).1 ⟨hd, hdin⟩
      obtain ⟨hfd', hev'⟩ := hevt d hd' hdin'
      exact ⟨d, hd', hdin', hfd'.symm.trans hfd, by rw [← hev', hm]⟩
  · intro c hc d hd hcin hdin hfd
    obtain ⟨hc', hcin'⟩ := (hin c).1 ⟨hc, hcin⟩
    obtain ⟨hd', hdin'⟩ := (hin d).1 ⟨hd, hdin⟩
    rw [(hevt c hc' hcin').1, (hevt d hd' hdin').1] at hfd
    exact h.unique c hc' d hd' hcin' hdin' hfd

/-- An operation that keeps the events of the map. -/
theorem Agrees.of_inMap (h : Agrees interest s) (hin : ∀ d, t.InMap d ↔ s.InMap d)
    {m : BitVec 16} (hsame : SameBut m s.evt t.evt) (hheap : t.heap = s.heap)
    (hkernel : interest t.kernel.1 = interest s.kernel.1) (hflag : t.kernel.2 = s.kernel.2) :
    Agrees interest t := by
  refine h.congr (fun d => ?_) (fun d _ _ => ⟨hsame.fd d, hsame.events d⟩) hkernel hflag
  rw [hheap, hin]

/-- An operation that does not write the flag `REG`. -/
theorem Agrees.of_sameBut (h : Agrees interest s) {m : BitVec 16}
    (hsame : SameBut m s.evt t.evt) (hm : hasAny m wbaEvtlistReg = false)
    (hheap : t.heap = s.heap) (hkernel : interest t.kernel.1 = interest s.kernel.1)
    (hflag : t.kernel.2 = s.kernel.2) : Agrees interest t := by
  refine h.of_inMap (fun d => ?_) hsame hheap hkernel hflag
  simp only [InMap, hasFlag, hasEvent, hsame.flag d _ hm, hsame.fd, hsame.events]

theorem Agrees.of_kernel (h : Agrees interest s) {k : κ × Bool}
    (hkernel : interest k.1 = interest s.kernel.1) (hflag : k.2 = s.kernel.2) :
    Agrees interest { s with kernel := k } :=
  h.of_sameBut (SameBut.refl 0 s.evt) (by decide) rfl hkernel hflag

/-! ### Registering and deregistering -/

/-- An event whose descriptor was not watched enters the map. -/
theorem Agrees.insert (h : Agrees interest s) (he : e ∈ s.heap) {m : BitVec 16}
    (hsame : SameBut m s.evt t.evt) (hheap : t.heap = s.heap)
    (hin : ∀ d, t.InMap d ↔ d = e ∨ s.InMap d)
    (hfree : interest s.kernel.1 (s.evt e).fd = none)
    (hkernel : interest t.kernel.1 =
      Function.update (interest s.kernel.1) (s.evt e).fd (some (epollMask (s.evt e).events)))
    (hflag : t.kernel.2 = s.kernel.2) : Agrees interest t := by
  have hnew : ∀ d ∈ s.heap, s.InMap d → (s.evt d).fd ≠ (s.evt e).fd := by
    intro d hd hdin hfd
    have hsome := (h.interest _ _).2 ⟨d, hd, hdin, hfd, rfl⟩
    rw [hfree] at hsome
    exact absurd hsome (by simp)
  refine ⟨fun fd m => ?_, ?_, hflag.trans h.noFailure⟩
  · simp only [hkernel, hheap, hin, hsame.fd, hsame.events]
    by_cases hfd : fd = (s.evt e).fd
    · subst hfd
      rw [Function.update_self, Option.some_inj]
      constructor
      · exact fun hm => ⟨e, he, Or.inl rfl, rfl, hm⟩
      · rintro ⟨d, hd, rfl | hdin, hfd, hm⟩
        · exact hm
        · exact absurd hfd (hnew d hd hdin)
    · rw [Function.update_of_ne hfd, h.interest fd m]
      constructor
      · rintro ⟨d, hd, hdin, hrest⟩
        exact ⟨d, hd, Or.inr hdin, hrest⟩
      · rintro ⟨d, hd, rfl | hdin, hfd', hm⟩
        · exact absurd hfd'.symm hfd
        · exact ⟨d, hd, hdin, hfd', hm⟩
  · intro c hc d hd hcin hdin hfd
    rw [hheap] at hc hd
    rw [hin] at hcin hdin
    rw [hsame.fd, hsame.fd] at hfd
    rcases hcin with rfl | hcin
    · rcases hdin with rfl | hdin
      · rfl
      · exact absurd hfd.symm (hnew d hd hdin)
    · rcases hdin with rfl | hdin
      · exact absurd hfd (hnew c hc hcin)
      · exact h.unique c hc d hd hcin hdin hfd

/-- An event leaves the map and its descriptor is no longer watched. -/
theorem Agrees.remove (h : Agrees interest s) (he : e ∈ s.heap) (hein : s.InMap e)
    {m : BitVec 16} (hsame : SameBut m s.evt t.evt) (hheap : t.heap = s.heap)
    (hin : ∀ d, t.InMap d ↔ d ≠ e ∧ s.InMap d)
    (hkernel : interest t.kernel.1 =
      Function.update (interest s.kernel.1) (s.evt e).fd none)
    (hflag : t.kernel.2 = s.kernel.2) : Agrees interest t := by
  refine ⟨fun fd m => ?_, ?_, hflag.trans h.noFailure⟩
  · simp only [hkernel, hheap, hin, hsame.fd, hsame.events]
    by_cases hfd : fd = (s.evt e).fd
    · subst hfd
      rw [Function.update_self]
      constructor
      · exact fun hm => absurd hm (by simp)
      · rintro ⟨d, hd, ⟨hde, hdin⟩, hfd, -⟩
        exact absurd (h.unique d hd e he hdin hein hfd) hde
    · rw [Function.update_of_ne hfd, h.interest fd m]
      constructor
      · rintro ⟨d, hd, hdin, hfd', hm⟩
        refine ⟨d, hd, ⟨?_, hdin⟩, hfd', hm⟩
        rintro rfl
        exact hfd hfd'.symm
      · rintro ⟨d, hd, ⟨-, hdin⟩, hrest⟩
        exact ⟨d, hd, hdin, hrest⟩
  · intro c hc d hd hcin hdin hfd
    rw [hheap] at hc hd
    rw [hin] at hcin hdin
    rw [hsame.fd, hsame.fd] at hfd
    exact h.unique c hc d hd hcin.2 hdin.2 hfd

theorem Agrees.eventAddReg (hK : EpollCtl K interest) (h : Agrees interest s)
    (he : e ∈ s.heap) : Agrees interest (s.eventAddReg (watched K) e).2 := by
  rcases eventAddReg_cases (watched K) s e with ⟨heq, hkeep⟩ | ⟨k, heq, -, hk⟩ |
    ⟨k, heq, -, hk, hfd, hio⟩
  · rw [heq]
    exact h.of_inMap (fun d => inMap_setFlags_of_keep hkeep) (sameBut_setFlags s e _) rfl rfl rfl
  · rw [heq]
    obtain ⟨hok, rfl⟩ := Prod.mk.inj hk
    exact h.of_kernel (hK.add_fails _ _ _ hok) rfl
  · rw [heq, eventMapLink_eq (s := { s with kernel := k }) hfd]
    obtain ⟨hok, rfl⟩ := Prod.mk.inj hk
    obtain ⟨hfree, hadd⟩ := hK.add _ _ _ hok
    refine h.insert he (sameBut_setFlags _ e wbaEvtlistReg) rfl (fun d => ?_) hfree hadd rfl
    rw [inMap_setFlags, or_comm]
    exact or_congr_left (and_iff_left ⟨hfd, hio⟩)

/-- The kernel knows the descriptor of an event that is taken out of the map. -/
theorem Agrees.eventDelReg (hK : EpollCtl K interest) (h : Agrees interest s)
    (he : e ∈ s.heap) : Agrees interest (s.eventDelReg (watched K) e).2 := by
  rcases eventDelReg_cases (watched K) s e with ⟨heq, -⟩ | ⟨heq, hnot⟩ | ⟨ok, k, heq, -, hk, hin⟩
  · rw [heq]
    exact h
  · rw [heq]
    exact h.of_inMap (fun d => inMap_clearFlags_of_not hnot) (sameBut_clearFlags s e _) rfl rfl rfl
  · have hsome := (h.interest (s.evt e).fd _).2 ⟨e, he, hin, rfl, rfl⟩
    have hok : (K.epollCtlDel s.kernel.1 (s.evt e).fd).1 = true := by
      rw [hK.del, hsome]
      simp
    obtain ⟨-, rfl⟩ := Prod.mk.inj hk
    rw [heq]
    refine h.remove he hin (sameBut_clearFlags _ e wbaEvtlistReg) rfl (fun d => ?_)
      (hK.del_effect _ _) ?_
    · rw [inMap_clearFlags]
      rfl
    · change (s.kernel.2 || !(K.epollCtlDel s.kernel.1 (s.evt e).fd).1) = s.kernel.2
      rw [hok]
      simp

/-! ### The operations -/

theorem Agrees.eventRemoveTimeout (h : Agrees interest s) (e : EvtId) :
    Agrees interest (s.eventRemoveTimeout e) := by
  have hsame := sameBut_eventRemoveTimeout s e
  unfold WbaEvtbase.eventRemoveTimeout at hsame ⊢
  split_ifs at hsame ⊢
  · exact h.of_sameBut hsame (by decide) rfl rfl rfl
  · exact h

theorem Agrees.eventAddTimeout (h : Agrees interest s) (e : EvtId) :
    Agrees interest (s.eventAddTimeout e) := by
  have hsame := sameBut_eventAddTimeout s e
  unfold WbaEvtbase.eventAddTimeout at hsame ⊢
  split_ifs at hsame ⊢
  · exact h
  · exact h.of_sameBut hsame (by decide) rfl rfl rfl

theorem Agrees.eventRemoveActive (h : Agrees interest s) (e : EvtId) :
    Agrees interest (s.eventRemoveActive e) := by
  have hsame := sameBut_eventRemoveActive s e
  unfold WbaEvtbase.eventRemoveActive at hsame ⊢
  split_ifs at hsame ⊢
  · exact h.of_sameBut hsame (by decide) rfl rfl rfl
  · exact h

theorem Agrees.eventAddActive (h : Agrees interest s) (e : EvtId) (res : BitVec 16) :
    Agrees interest (s.eventAddActive e res) := by
  have hsame := sameBut_eventAddActive s e res
  unfold WbaEvtbase.eventAddActive at hsame ⊢
  split_ifs at hsame ⊢
  · exact h
  · exact h.of_sameBut hsame (by decide) rfl rfl rfl

theorem Agrees.eventSetTimeout (hK : EpollCtl K interest) (h : Agrees interest s) (e : EvtId)
    (tv : Timeval) (abs : Bool) : Agrees interest (s.eventSetTimeout (watched K) e tv abs) := by
  have hsame := sameBut_eventSetTimeout (watched K) s e tv abs
  have hclock := hK.clock s.kernel.1
  unfold WbaEvtbase.eventSetTimeout at hsame ⊢
  split_ifs at hsame ⊢
  · exact h.of_sameBut hsame (by decide) rfl rfl rfl
  · exact h.of_sameBut hsame (by decide) rfl hclock rfl
  · exact h.of_sameBut hsame (by decide) rfl hclock rfl

theorem Agrees.eventAdd (hK : EpollCtl K interest) (h : Agrees interest s) (e : EvtId)
    (tv : Option Timeval) (abs : Bool) : Agrees interest (s.eventAdd (watched K) e tv abs).2 := by
  rcases eventAdd_cases (watched K) s e tv abs with ⟨heq, -⟩ | ⟨he, heq, -⟩ | ⟨t, he, -, -, heq⟩
  · rw [heq]
    exact h
  · rw [heq]
    exact h.eventAddReg hK he
  · rw [heq]
    exact ((((h.eventAddReg hK he).eventRemoveTimeout e).eventSetTimeout hK e t
      abs).eventAddTimeout e)

theorem Agrees.wbaEventAdd (hK : EpollCtl K interest) (h : Agrees interest s) (e : EvtId)
    (tv : Option Timeval) : Agrees interest (s.wbaEventAdd (watched K) e tv).2 := by
  unfold WbaEvtbase.wbaEventAdd
  cases tv with
  | none => exact h.eventAdd hK e none false
  | some t =>
      simp only
      split_ifs
      · exact h
      · exact h.eventAdd hK e (some t) false

theorem Agrees.eventDel (hK : EpollCtl K interest) (h : Agrees interest s) (e : EvtId) :
    Agrees interest (s.eventDel (watched K) e).2 := by
  rcases eventDel_cases (watched K) s e with ⟨heq, -⟩ | ⟨he, heq⟩
  · rw [heq]
    exact h
  · rw [heq]
    refine ((h.eventRemoveTimeout e).eventRemoveActive e).eventDelReg hK ?_
    rw [eventRemoveActive_heap, eventRemoveTimeout_heap]
    exact he

/-- Freeing an event that is not in the map. -/
theorem Agrees.eraseHeap (h : Agrees interest s) (hnodup : s.heap.Nodup)
    (hreg : s.hasFlag e wbaEvtlistReg = false) :
    Agrees interest { s with heap := s.heap.erase e } := by
  refine h.congr (fun d => ?_) (fun _ _ _ => ⟨rfl, rfl⟩) rfl rfl
  constructor
  · exact fun hd => ⟨List.mem_of_mem_erase hd.1, hd.2⟩
  · rintro ⟨hd, hdin⟩
    refine ⟨hnodup.mem_erase_iff.2 ⟨?_, hd⟩, hdin⟩
    rintro rfl
    rw [hdin.1] at hreg
    exact absurd hreg (by simp)

theorem Agrees.wbaEventFree (hK : EpollCtl K interest) (h : Agrees interest s)
    {active : List EvtId} (hcons : Consistent s active) (e : EvtId) :
    Agrees interest (s.wbaEventFree (watched K) e) := by
  obtain ⟨slot, hwf⟩ := hcons
  have hdel := h.eventDel hK e
  unfold WbaEvtbase.wbaEventFree
  by_cases he : e ∈ s.heap
  · refine hdel.eraseHeap ?_ (hwf.hasFlag_eventDel (watched K) he).2.2
    exact (hwf.eventDel (watched K) he).heap_nodup
  · rw [eventDel_of_notMem (watched K) he] at hdel ⊢
    simp only [List.erase_of_not_mem he]
    exact hdel

/-- A new event is not in the map. -/
theorem Agrees.placeEvt (h : Agrees interest s) (he : e ∉ s.heap) {v : WbaEvt}
    (hflags : v.flags = wbaEvtlistInit) : Agrees interest (s.placeEvt e v) := by
  have hold : ∀ d, d ≠ e → (s.placeEvt e v).evt d = s.evt d := fun d hde =>
    Function.update_of_ne hde _ _
  have hnew : ¬ (s.placeEvt e v).InMap e := by
    rintro ⟨hreg, -⟩
    have hv : (s.placeEvt e v).evt e = v := Function.update_self _ _ _
    rw [hasFlag, hv, hflags] at hreg
    exact absurd hreg (by decide)
  refine h.congr (fun d => ?_) (fun d hd _ => ?_) rfl rfl
  · by_cases hde : d = e
    · subst hde
      tauto
    · have hmem : d ∈ (s.placeEvt e v).heap ↔ d ∈ s.heap := by
        simp [WbaEvtbase.placeEvt, hde]
      rw [hmem, InMap, InMap, hasFlag, hasFlag, hasEvent, hasEvent, hold d hde]
  · have hde : d ≠ e := fun hde => he (hde ▸ hd)
    rw [hold d hde]
    exact ⟨rfl, rfl⟩

theorem Agrees.wbaEventNew (h : Agrees interest s) (malloc : Option EvtId) (fd : ℤ)
    (events : BitVec 16) (fn : Option WbaEvtcbFn) (arg : CbArg) :
    Agrees interest (s.wbaEventNew malloc fd events fn arg).2 := by
  rcases wbaEventNew_cases s malloc fd events fn arg with heq | ⟨e, f', he, heq⟩
  · rw [heq]
    exact h
  · rw [heq]
    exact h.placeEvt he rfl

theorem Agrees.runCall (hK : EpollCtl K interest) (h : Agrees interest s)
    {active : List EvtId} (hcons : Consistent s active) (c : Call) :
    Agrees interest (s.runCall (watched K) c) := by
  cases c with
  | new malloc fd events fn arg => exact h.wbaEventNew malloc fd events fn arg
  | add e tv => exact h.wbaEventAdd hK e tv
  | del e => exact h.eventDel hK e
  | free e => exact h.wbaEventFree hK hcons e

theorem Agrees.runCalls (hK : EpollCtl K interest) (h : Agrees interest s)
    {active : List EvtId} (hcons : Consistent s active) (calls : List Call) :
    Agrees interest (s.runCalls (watched K) calls) := by
  induction calls generalizing s active with
  | nil => exact h
  | cons c calls ih => exact ih (h.runCall hK hcons c) (hcons.runCall (watched K) c)

/-! ### The steps of the loop -/

theorem Agrees.eventMapActiveLoop (h : Agrees interest s) {events : BitVec 16} {fuel : ℕ}
    {pos : Option (ListHead ℕ EvtId)}
    (hloop : WbaEvtbase.eventMapActiveLoop events fuel pos s = some t) : Agrees interest t := by
  have hvisit : ∀ (u : WbaEvtbase (κ × Bool)) (e : EvtId), Agrees interest u →
      Agrees interest (u.visit events e) := by
    intro u e hu
    unfold visit
    split_ifs
    · exact hu.eventAddActive e _
    · exact hu
  induction fuel generalizing s pos with
  | zero =>
      rcases pos with _ | ⟨i⟩ | ⟨e⟩
      · simp [WbaEvtbase.eventMapActiveLoop] at hloop
      · obtain rfl : s = t := by simpa [WbaEvtbase.eventMapActiveLoop] using hloop
        exact h
      · simp [WbaEvtbase.eventMapActiveLoop] at hloop
  | succ fuel ih =>
      rcases pos with _ | ⟨i⟩ | ⟨e⟩
      · simp [WbaEvtbase.eventMapActiveLoop] at hloop
      · obtain rfl : s = t := by simpa [WbaEvtbase.eventMapActiveLoop] using hloop
        exact h
      · exact ih (hvisit s e h) hloop

theorem Agrees.eventMapActive (h : Agrees interest s) {fd : ℤ} {events : BitVec 16}
    (hmap : s.eventMapActive fd events = some t) : Agrees interest t := by
  unfold WbaEvtbase.eventMapActive at hmap
  split at hmap
  · obtain rfl : s = t := by simpa using hmap
    exact h
  · exact h.eventMapActiveLoop hmap

theorem Agrees.eventWait (hK : EpollCtl K interest) (h : Agrees interest s) :
    Agrees interest (s.eventWait (watched K)).2 := by
  have hclock : Agrees interest (s.eventTimeget (watched K)).2 :=
    h.of_kernel (hK.clock s.kernel.1) rfl
  have hnext : Agrees interest (s.eventNextTimeout (watched K)).2 := by
    unfold eventNextTimeout
    split
    · exact h
    · simp only
      split
      · exact hclock
      · split_ifs <;> exact hclock
  exact hnext.of_kernel (hK.wait _ _ _) rfl

theorem Agrees.eventProcessTimeoutLoop (hK : EpollCtl K interest) (h : Agrees interest s)
    (now : Timeval) (fuel : ℕ) (node : Option EvtId) (cnt : ℤ) :
    Agrees interest
      (WbaEvtbase.eventProcessTimeoutLoop (watched K) now fuel node cnt s).2 := by
  induction fuel generalizing s node cnt with
  | zero => cases node <;> exact h
  | succ fuel ih =>
      cases node with
      | none => exact h
      | some p =>
          unfold WbaEvtbase.eventProcessTimeoutLoop
          simp only
          split_ifs
          · exact h
          · exact ih ((h.eventDel hK p).eventAddActive p wbaEvtTimeout) _ _

theorem Agrees.eventProcessTimeout (hK : EpollCtl K interest) (h : Agrees interest s) :
    Agrees interest (s.eventProcessTimeout (watched K)).2 := by
  have hclock : Agrees interest (s.eventTimeget (watched K)).2 :=
    h.of_kernel (hK.clock s.kernel.1) rfl
  unfold WbaEvtbase.eventProcessTimeout
  simp only
  split
  · exact hclock
  · exact hclock.eventProcessTimeoutLoop hK _ _ _ 0

theorem Agrees.eventProcessActiveBody (hK : EpollCtl K interest) (h : Agrees interest s)
    (e : EvtId) : Agrees interest (s.eventProcessActiveBody (watched K) e) := by
  unfold WbaEvtbase.eventProcessActiveBody eventReschedule
  split_ifs
  · have hclock := (h.eventRemoveActive e).of_kernel
      (k := ((watched K).clockGettime (s.eventRemoveActive e).kernel).2) (hK.clock _) rfl
    exact hclock.eventAdd hK e _ true
  · exact h.eventRemoveActive e
  · exact h.eventDel hK e

theorem Agrees.runOp (hK : EpollCtl K interest) (h : Agrees interest s)
    {active : List EvtId} (hcons : Consistent s active) {op : Op}
    (hop : s.runOp (watched K) op = some t) : Agrees interest t := by
  cases op with
  | call c =>
      obtain rfl := Option.some.inj hop
      exact h.runCall hK hcons c
  | wait =>
      obtain rfl := Option.some.inj hop
      exact h.eventWait hK
  | mapActive fd events => exact h.eventMapActive hop
  | processTimeout =>
      obtain rfl := Option.some.inj hop
      exact h.eventProcessTimeout hK
  | processActive e calls =>
      unfold WbaEvtbase.runOp at hop
      simp only at hop
      split_ifs at hop with he
      · obtain rfl := Option.some.inj hop
        exact (h.eventProcessActiveBody hK e).runCalls hK
          (hcons.eventProcessActiveBody (watched K) he) calls
      · obtain rfl := Option.some.inj hop
        exact h

theorem agrees_new {k : κ} {epfd : ℤ} {mallocBase mallocEvents mallocList : Bool}
    (hk : ∀ fd, interest k fd = none)
    (hnew : wbaEvtbaseNew (k, false) epfd mallocBase mallocEvents mallocList = some s) :
    Agrees interest s := by
  unfold wbaEvtbaseNew at hnew
  split_ifs at hnew
  obtain rfl := Option.some.inj hnew
  refine ⟨fun fd m => ?_, ?_, rfl⟩
  · simp [hk]
  · simp

theorem Reachable.agrees (hK : EpollCtl K interest) {k : κ} (hk : ∀ fd, interest k fd = none)
    (h : Reachable (watched K) (k, false) s) : Agrees interest s := by
  induction h with
  | new hnew => exact agrees_new hk hnew
  | step hs op hop ih =>
      obtain ⟨active, hcons⟩ := hs.consistent
      exact ih.runOp hK hcons hop

/-- Over every run that starts with nothing watched, the watched descriptors are those of the
events in the slots of the map, each with the mask of its event; no two events of the map share a
descriptor; and no deregistration has failed. -/
theorem interest_eq_map (hK : EpollCtl K interest) {k : κ} (hk : ∀ fd, interest k fd = none)
    (h : Reachable (watched K) (k, false) s) :
    ∃ active slot, Represents s active slot ∧
      (∀ fd m, interest s.kernel.1 fd = some m ↔
        ∃ i < s.size, ∃ e ∈ slot i, (s.evt e).fd = fd ∧ epollMask (s.evt e).events = m) ∧
      (∀ i < s.size, ∀ d ∈ slot i, ∀ j < s.size, ∀ e ∈ slot j,
        (s.evt d).fd = (s.evt e).fd → d = e) ∧
      s.kernel.2 = false := by
  have hagrees := h.agrees hK hk
  obtain ⟨active, slot, hwf⟩ := h.consistent
  have hsize := hwf.map.size
  have hmem : ∀ e, (∃ i < s.size, e ∈ slot i) ↔ e ∈ s.heap ∧ s.InMap e := by
    intro e
    constructor
    · rintro ⟨i, hi, he⟩
      obtain ⟨hheap, hin, -⟩ := (hwf.map.mem i (hsize ▸ hi) e).1 he
      exact ⟨hheap, hin⟩
    · rintro ⟨hheap, hin⟩
      have hlt := hwf.map.slotOf_lt e
      exact ⟨s.slotOf e, hsize ▸ hlt, (hwf.map.mem _ hlt e).2 ⟨hheap, hin, rfl⟩⟩
  refine ⟨active, slot, hwf.represents, fun fd m => ?_, ?_, hagrees.noFailure⟩
  · rw [hagrees.interest fd m]
    constructor
    · rintro ⟨e, he, hin, hrest⟩
      obtain ⟨i, hi, hslot⟩ := (hmem e).2 ⟨he, hin⟩
      exact ⟨i, hi, e, hslot, hrest⟩
    · rintro ⟨i, hi, e, hslot, hrest⟩
      obtain ⟨he, hin⟩ := (hmem e).1 ⟨i, hi, hslot⟩
      exact ⟨e, he, hin, hrest⟩
  · intro i hi d hd j hj e he hfd
    obtain ⟨hdheap, hdin⟩ := (hmem d).1 ⟨i, hi, hd⟩
    obtain ⟨heheap, hein⟩ := (hmem e).1 ⟨j, hj, he⟩
    exact hagrees.unique d hdheap e heheap hdin hein hfd

/-- The mask that the simulated kernel has for a descriptor. -/
def simInterest (k : SimState) (fd : ℤ) : Option (BitVec 32) :=
  (k.interest.find? fun p => decide (p.1 = fd)).map Prod.snd

theorem simInterest_eq_none_iff (k : SimState) (fd : ℤ) :
    simInterest k fd = none ↔ fd ∉ k.interest.map Prod.fst := by
  simp only [simInterest, Option.map_eq_none_iff, List.find?_eq_none, decide_eq_true_iff,
    List.mem_map, not_exists, not_and]

theorem epollCtl_simKernel : EpollCtl simKernel simInterest := by
  have hadd : ∀ k fd m, fd ∉ k.interest.map Prod.fst → simKernel.epollCtlAdd k fd m =
      (true, { k with interest := (fd, m) :: k.interest }) := fun k fd m hnot => if_neg hnot
  have hadd' : ∀ k fd m, fd ∈ k.interest.map Prod.fst → simKernel.epollCtlAdd k fd m =
      (false, k) := fun k fd m hmem => if_pos hmem
  have hdel : ∀ k fd, fd ∈ k.interest.map Prod.fst → simKernel.epollCtlDel k fd =
      (true, { k with interest := k.interest.filter fun p => decide (p.1 ≠ fd) }) :=
    fun k fd hmem => if_pos hmem
  have hdel' : ∀ k fd, fd ∉ k.interest.map Prod.fst → simKernel.epollCtlDel k fd = (false, k) :=
    fun k fd hnot => if_neg hnot
  refine ⟨fun k fd m hok => ?_, fun k fd m hok => ?_, fun k fd => ?_, fun k fd => ?_,
    fun _ _ _ => rfl, fun _ => rfl⟩
  · by_cases hmem : fd ∈ k.interest.map Prod.fst
    · rw [hadd' k fd m hmem] at hok
      exact absurd hok (by simp)
    · refine ⟨(simInterest_eq_none_iff k fd).2 hmem, funext fun fd' => ?_⟩
      rw [hadd k fd m hmem]
      by_cases hfd : fd' = fd
      · simp [simInterest, hfd]
      · simp [simInterest, hfd, Ne.symm hfd]
  · by_cases hmem : fd ∈ k.interest.map Prod.fst
    · rw [hadd' k fd m hmem]
    · rw [hadd k fd m hmem] at hok
      exact absurd hok (by simp)
  · rw [Ne, simInterest_eq_none_iff, not_not]
    by_cases hmem : fd ∈ k.interest.map Prod.fst
    · simp only [hdel k fd hmem, hmem]
    · simp only [hdel' k fd hmem, hmem, Bool.false_eq_true]
  · by_cases hmem : fd ∈ k.interest.map Prod.fst
    · rw [hdel k fd hmem]
      funext fd'
      rw [simInterest, List.find?_filter]
      by_cases hfd : fd' = fd
      · subst hfd
        simp
      · rw [Function.update_of_ne hfd, simInterest]
        congr 2
        funext p
        by_cases hp : p.1 = fd'
        · simp [hp, hfd]
        · simp [hp]
    · rw [hdel' k fd hmem, ← (simInterest_eq_none_iff k fd).2 hmem, Function.update_eq_self]

/-- A base with a reader on the descriptor 7; the second event on that descriptor is refused. -/
def refusedBase : WbaEvtbase (SimState × Bool) :=
  (newBase ({}, false)).runCalls (watched simKernel)
    [.new (some 0) 7 wbaEvtRead (some 1) .null, .new (some 1) 7 wbaEvtWrite (some 1) .null,
      .add 0 none, .add 1 none]

theorem interest_refusedBase :
    ∃ active slot, Represents refusedBase active slot ∧
      (∀ fd m, simInterest refusedBase.kernel.1 fd = some m ↔ ∃ i < refusedBase.size,
        ∃ e ∈ slot i, (refusedBase.evt e).fd = fd ∧ epollMask (refusedBase.evt e).events = m) ∧
      (∀ i < refusedBase.size, ∀ d ∈ slot i, ∀ j < refusedBase.size, ∀ e ∈ slot j,
        (refusedBase.evt d).fd = (refusedBase.evt e).fd → d = e) ∧
      refusedBase.kernel.2 = false :=
  interest_eq_map epollCtl_simKernel (fun _ => rfl) (reachable_newBase _ _ _)

end WbaEvtbase

end Miscellany
