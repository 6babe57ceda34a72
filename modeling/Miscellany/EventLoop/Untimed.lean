import Miscellany.EventLoop.Effect

/-!
# Events without a timer

An event that has only been added without a timeout, since it was created or last
deleted, should not be in the time tree, and its callback should not be told of a
timeout. The code breaks this in two ways. `event_del` does not forget the interval
of a persistent event, so that `event_process_active` schedules the event when it has
been added again without a timeout and is activated by its descriptor. And an event that
a callback deletes while `event_process_active` has saved it as the next one is run
nevertheless.

To say at which calls this goes wrong, the program is cut into moves: the calls, one
after the other, also those of a callback; collecting the events of an iteration; the
beginning and the end of a round. In all runs in which no call adds an event without a
timeout while it remembers an interval from before its deletion, or deletes or frees the
saved event, the property holds.
-/

namespace Miscellany

open ListHead

namespace WbaEvtbase

variable {κ : Type*}

/-! ### Moves -/

/-- Where the program stands. -/
inductive Stage where
  /-- Outside of `event_process_active`. -/
  | idle
  /-- Before a round of `event_process_active`, with the cursor and the saved pointer. -/
  | pass (evt p : Option (ListHead Unit EvtId))
  /-- In a callback, with the saved pointer. -/
  | callback (p : Option (ListHead Unit EvtId))
deriving DecidableEq

/-- A state of the program, seen from one event: `timed` says whether the event has been added with
a timeout since it was created or last deleted, and `heard` holds what its callback was told while
it had not. -/
structure Config (κ : Type*) where
  base : WbaEvtbase κ
  stage : Stage
  timed : Bool
  heard : List (BitVec 16)

/-- Whether the event `x` has been added with a timeout, after the call. -/
def timedAfter (K : Kernel κ) (x : EvtId) (s : WbaEvtbase κ) (timed : Bool) : Call → Bool
  | .new malloc fd events fn arg =>
      if (s.wbaEventNew malloc fd events fn arg).1 = some x then false else timed
  | .add e tv => timed || (decide (e = x) && tv.isSome && decide ((s.wbaEventAdd K e tv).1 = 1))
  | .del e => if e = x then false else timed
  | .free e => if e = x then false else timed

/-- The runs of a base in which each call is made in a state that meets the condition `P`. -/
inductive Run (K : Kernel κ) (k : κ) (x : EvtId) (P : Config κ → Call → Prop) :
    Config κ → Prop where
  | new {epfd : ℤ} {mallocBase mallocEvents mallocList : Bool} {s : WbaEvtbase κ}
      (hnew : wbaEvtbaseNew k epfd mallocBase mallocEvents mallocList = some s) :
      Run K k x P ⟨s, .idle, false, []⟩
  | call {c : Config κ} (h : Run K k x P c) (call : Call)
      (hstage : c.stage = .idle ∨ ∃ p, c.stage = .callback p) (hcall : P c call) :
      Run K k x P { c with
        base := c.base.runCall K call
        timed := timedAfter K x c.base c.timed call }
  | waitFails {c : Config κ} (h : Run K k x P c) (hstage : c.stage = .idle)
      (hwait : (c.base.eventWait K).1 = none) :
      Run K k x P { c with base := (c.base.eventWait K).2 }
  | collect {c : Config κ} (h : Run K k x P c) (hstage : c.stage = .idle) {s' : WbaEvtbase κ}
      (hcollect : c.base.eventCollect K = some s') :
      Run K k x P { c with base := s', stage := .pass (Pass.start s').evt (Pass.start s').p }
  | round {c : Config κ} (h : Run K k x P c) {e : EvtId} {p : Option (ListHead Unit EvtId)}
      (hstage : c.stage = .pass (some (entry e)) p) (he : e ∈ c.base.heap) :
      Run K k x P { c with
        base := c.base.eventProcessActiveBody K e
        stage := .callback p
        heard := if e = x ∧ c.timed = false
          then c.heard ++ [((c.base.eventProcessActiveBody K e).evt e).res] else c.heard }
  | next {c : Config κ} (h : Run K k x P c) {p : Option (ListHead Unit EvtId)}
      (hstage : c.stage = .callback p) :
      Run K k x P { c with stage := .pass p (c.base.readNext p) }
  | finish {c : Config κ} (h : Run K k x P c) {p : Option (ListHead Unit EvtId)}
      (hstage : c.stage = .pass (some (head ())) p) : Run K k x P { c with stage := .idle }

/-- While the event has not been added with a timeout it is not in the time tree, and its callback
has not been told of a timeout. -/
def NoTimer (x : EvtId) (c : Config κ) : Prop :=
  (c.timed = false → x ∉ c.base.evtTimeRoot.inorder) ∧
    ∀ events ∈ c.heard, hasAny events wbaEvtTimeout = false

/-- The event is watched, persistent and has an interval. -/
def Remembers (v : WbaEvt) : Prop :=
  hasAny v.events wbaEvtPersist = true ∧ HasInterval v ∧ 0 ≤ v.fd ∧
    hasAny v.events wbaEvtIo = true

/-- The call does not add the event `x` without a timeout while it remembers an interval with which
it has not been added, and does not delete or free it while it is the saved event. -/
def Careful (x : EvtId) (c : Config κ) (call : Call) : Prop :=
  (call = .add x none → x ∈ c.base.heap → c.timed = false → ¬ Remembers (c.base.evt x)) ∧
    (call.Removes x → c.stage ≠ .callback (some (entry x)))

instance (v : WbaEvt) : Decidable (Remembers v) := inferInstanceAs (Decidable (_ ∧ _ ∧ _ ∧ _))

instance (x : EvtId) (c : Config κ) (call : Call) : Decidable (Careful x c call) :=
  inferInstanceAs (Decidable ((_ → _ → _ → ¬ Remembers _) ∧ (_ → _ ≠ _)))

variable {K : Kernel κ} {k : κ} {x : EvtId} {c : Config κ}

/-! ### The model of an iteration is a run of moves -/

theorem Run.calls (h : Run K k x (fun _ _ => True) c)
    (hstage : c.stage = .idle ∨ ∃ p, c.stage = .callback p) (calls : List Call) :
    ∃ c', Run K k x (fun _ _ => True) c' ∧ c'.base = c.base.runCalls K calls ∧
      c'.stage = c.stage := by
  induction calls generalizing c with
  | nil => exact ⟨c, h, rfl, rfl⟩
  | cons call calls ih => exact ih (h.call call hstage trivial) hstage

theorem Run.passStep (h : Run K k x (fun _ _ => True) c) (cbs : Callbacks κ) {st : Pass κ}
    (hbase : c.base = st.base) (hstage : c.stage = .pass st.evt st.p) :
    ∃ c', Run K k x (fun _ _ => True) c' ∧ c'.base = (Pass.step K cbs st).base ∧
      c'.stage = .pass (Pass.step K cbs st).evt (Pass.step K cbs st).p := by
  unfold Pass.step
  split
  · rename_i e hevt
    split_ifs with he
    · rw [hevt] at hstage
      have hround := h.round hstage (hbase ▸ he)
      obtain ⟨c', hrun, hbase', hstage'⟩ :=
        hround.calls (Or.inr ⟨st.p, rfl⟩) (st.base.roundCalls K cbs e)
      refine ⟨_, hrun.next hstage', ?_⟩
      simp only [hbase', hbase]
      exact ⟨rfl, rfl⟩
    · exact ⟨c, h, hbase, hstage⟩
  · exact ⟨c, h, hbase, hstage⟩

theorem Run.passSteps (h : Run K k x (fun _ _ => True) c) (cbs : Callbacks κ) {st : Pass κ}
    (hbase : c.base = st.base) (hstage : c.stage = .pass st.evt st.p) (n : ℕ) :
    ∃ c', Run K k x (fun _ _ => True) c' ∧ c'.base = (Pass.steps K cbs n st).base ∧
      c'.stage = .pass (Pass.steps K cbs n st).evt (Pass.steps K cbs n st).p := by
  induction n generalizing c st with
  | zero => exact ⟨c, h, hbase, hstage⟩
  | succ n ih =>
      obtain ⟨c', hrun, hbase', hstage'⟩ := h.passStep cbs hbase hstage
      exact ih hrun hbase' hstage'

/-- Every loop head is reached by a run of moves. -/
theorem LoopHead.run {s : WbaEvtbase κ} (h : LoopHead K k s) (x : EvtId) :
    ∃ c, Run K k x (fun _ _ => True) c ∧ c.base = s ∧ c.stage = .idle := by
  induction h with
  | new hnew => exact ⟨_, Run.new hnew, rfl, rfl⟩
  | call hs call ih =>
      obtain ⟨c, hrun, rfl, hstage⟩ := ih
      exact ⟨_, hrun.call call (Or.inl hstage) trivial, rfl, hstage⟩
  | iterate hs cbs hcollect hpass ih =>
      obtain ⟨c, hrun, rfl, hstage⟩ := ih
      obtain ⟨hend, rfl, -⟩ := eventProcessActive_eq_some K hpass
      obtain ⟨c', hrun', hbase', hstage'⟩ :=
        (hrun.collect hstage hcollect).passSteps cbs rfl rfl _
      rw [hend] at hstage'
      exact ⟨_, hrun'.finish hstage', hbase', rfl⟩

/-! ### The pointers of the pass -/

variable {s t : WbaEvtbase κ} {active : List EvtId} {d e : EvtId}
variable {evt p : Option (ListHead Unit EvtId)}

/-- The pointer is null or on an event other than `x` that leads nowhere. -/
def Strays (x : EvtId) (s : WbaEvtbase κ) (active : List EvtId)
    (p : Option (ListHead Unit EvtId)) : Prop :=
  p = none ∨ ∃ f, f ≠ x ∧ p = some (entry f) ∧ Adrift s active f

/-- The pointers of the pass are on the first events of the active list, or they stray. -/
def Placed (x : EvtId) (s : WbaEvtbase κ) (active : List EvtId) : Stage → Prop
  | .idle => active = []
  | .pass evt p =>
      evt = some ((active.map entry).headD (head ())) ∧
          p = some ((active.tail.map entry).headD (head ())) ∨
        Strays x s active evt ∧ Strays x s active p
  | .callback p => p = some ((active.map entry).headD (head ())) ∨ Strays x s active p

theorem Strays.runCall (h : Strays x s active p) (call : Call) :
    Strays x (s.runCall K call) (callActive active call) p := by
  apply h.imp_right
  rintro ⟨f, hfx, hp, hf⟩
  exact ⟨f, hfx, hp, hf.runCall K call⟩

theorem Strays.eventProcessActiveBody (h : Strays x s active p) (he : e ∈ s.heap) :
    Strays x (s.eventProcessActiveBody K e) (active.erase e) p := by
  apply h.imp_right
  rintro ⟨f, hfx, hp, hf⟩
  exact ⟨f, hfx, hp, hf.eventProcessActiveBody K he⟩

theorem Strays.readNext (h : Strays x s active p) : Strays x s active (s.readNext p) := by
  rcases h with rfl | ⟨f, hfx, rfl, hf⟩
  · exact Or.inl rfl
  · rcases hf.readNext with hself | hnull
    · exact Or.inr ⟨f, hfx, hself, hf⟩
    · exact Or.inl hnull

/-- The saved pointer after a call: it strays from now on if the call removes its event. -/
theorem placed_runCall (hs : Consistent s active)
    (hp : p = some ((active.map entry).headD (head ())) ∨ Strays x s active p) {call : Call}
    (hcareful : call.Removes x → p ≠ some (entry x)) :
    p = some (((callActive active call).map entry).headD (head ())) ∨
      Strays x (s.runCall K call) (callActive active call) p := by
  rcases hp with rfl | hstrays
  · have hfilter := callActive_eq_filter hs.nodup call
    cases active with
    | nil =>
        rw [hfilter]
        exact Or.inl rfl
    | cons f rest =>
        by_cases hrem : call.Removes f
        · have hfx : f ≠ x := by
            rintro rfl
            exact hcareful hrem rfl
          have hremoved : Removed [call] f := removed_cons.2 (Or.inl hrem)
          have hadrift := hs.adrift_runCalls K (List.mem_cons_self) hremoved
          exact Or.inr (Or.inr ⟨f, hfx, rfl, hadrift⟩)
        · rw [hfilter, List.filter_cons_of_pos (by simpa using hrem)]
          exact Or.inl rfl
  · exact Or.inr (hstrays.runCall call)

/-! ### The event while it is not timed -/

/-- The event `x` has no timer and would not get one by being run. -/
structure Untimed (x : EvtId) (s : WbaEvtbase κ) : Prop where
  timeout : s.hasFlag x wbaEvtlistTimeout = false
  active : s.hasFlag x wbaEvtlistActive = true →
    hasAny (s.evt x).res wbaEvtTimeout = false ∧ 0 ≤ (s.evt x).fd ∧ s.hasEvent x wbaEvtIo = true ∧
      ¬ Remembers (s.evt x)
  forgets : s.hasFlag x wbaEvtlistReg = true → ¬ Remembers (s.evt x)

theorem Untimed.congr (h : Untimed x s) (hevt : t.evt x = s.evt x) : Untimed x t := by
  refine ⟨?_, ?_, ?_⟩
  · rw [hasFlag, hevt]
    exact h.timeout
  · rw [hasFlag, hasEvent, hevt]
    exact h.active
  · rw [hasFlag, hevt]
    exact h.forgets

/-- An event without flags has no timer, whatever interval it remembers. -/
theorem untimed_of_clear (htimeout : s.hasFlag x wbaEvtlistTimeout = false)
    (hactive : s.hasFlag x wbaEvtlistActive = false) (hreg : s.hasFlag x wbaEvtlistReg = false) :
    Untimed x s := by
  refine ⟨htimeout, fun hset => ?_, fun hset => ?_⟩
  · rw [hactive] at hset
    exact absurd hset Bool.false_ne_true
  · rw [hreg] at hset
    exact absurd hset Bool.false_ne_true

theorem Consistent.untimed_eventDel (hs : Consistent s active) (hx : x ∈ s.heap) :
    Untimed x (s.eventDel K x).2 := by
  obtain ⟨slot, hwf⟩ := hs
  obtain ⟨hactive, htimeout, hreg⟩ := hwf.hasFlag_eventDel K hx
  exact untimed_of_clear htimeout hactive hreg

/-- Taking the event from the active list leaves it without a timer if it has no interval. -/
theorem Untimed.eventRemoveActive (h : Untimed x s) (hforgets : ¬ Remembers (s.evt x)) :
    Untimed x (s.eventRemoveActive x) := by
  refine ⟨?_, fun hset => ?_, fun _ => ?_⟩
  · rw [hasFlag, (sameBut_eventRemoveActive s x).flag x _ (by decide)]
    exact h.timeout
  · rw [hasFlag_eventRemoveActive s x] at hset
    exact absurd hset Bool.false_ne_true
  · rw [Remembers, HasInterval, (flagsOnly_eventRemoveActive s x).evt_self]
    exact hforgets

theorem Untimed.of_added (h : Untimed x s) (hforgets : ¬ Remembers (s.evt x)) {abs : Bool}
    (hadded : Added none abs (s.evt x) (t.evt x)) : Untimed x t := by
  have htimeout : (t.evt x).timeout = (s.evt x).timeout := by
    rw [hadded.timeout]
    split_ifs <;> rfl
  have hforgets' : ¬ Remembers (t.evt x) := by
    rw [Remembers, HasInterval, hadded.events, hadded.fd, htimeout]
    exact hforgets
  refine ⟨?_, fun hset => ?_, fun _ => hforgets'⟩
  · rw [hasFlag, hadded.timed]
    exact h.timeout
  · rw [hasFlag, hadded.active] at hset
    obtain ⟨hres, hfd, hio, -⟩ := h.active hset
    refine ⟨?_, ?_, ?_, hforgets'⟩
    · rw [hadded.res]
      exact hres
    · rw [hadded.fd]
      exact hfd
    · rw [hasEvent, hadded.events]
      exact hio

theorem untimed_freshEvt (s : WbaEvtbase κ) (x : EvtId) (fd : ℤ) (events : BitVec 16)
    (fn : WbaEvtcbFn) (arg : CbArg) : Untimed x (s.placeEvt x (freshEvt x fd events fn arg)) := by
  have hevt : (s.placeEvt x (freshEvt x fd events fn arg)).evt x = freshEvt x fd events fn arg :=
    Function.update_self _ _ _
  have hflags : (freshEvt x fd events fn arg).flags = wbaEvtlistInit := rfl
  apply untimed_of_clear
  · rw [hasFlag, hevt, hflags]
    decide
  · rw [hasFlag, hevt, hflags]
    decide
  · rw [hasFlag, hevt, hflags]
    decide

theorem Untimed.wbaEventAdd (h : Untimed x s) (hx : x ∈ s.heap) {tv : Option Timeval}
    (hforgets : tv = none → ¬ Remembers (s.evt x))
    (htv : tv.isSome = true → (s.wbaEventAdd K x tv).1 ≠ 1) :
    Untimed x (s.wbaEventAdd K x tv).2 := by
  have hrefused : ∀ {t}, Refused K s t x → Untimed x t := by
    intro t hrefused
    apply h.congr
    rw [hrefused.eq]
  unfold WbaEvtbase.wbaEventAdd at htv ⊢
  cases tv with
  | none =>
      rcases added_eventAdd K hx none false with hno | hadded
      · exact hrefused hno
      · exact h.of_added (hforgets rfl) hadded
  | some tv =>
      simp only at htv ⊢
      split_ifs at htv ⊢
      · exact h
      · rcases added_eventAdd_some K hx tv false with ⟨-, hno⟩ | ⟨hone, -⟩
        · exact hrefused hno
        · exact absurd hone (htv rfl)

/-- A call leaves an event that is not timed without a timer. -/
theorem Consistent.untimed_runCall (hs : Consistent s active) {timed : Bool}
    (h : timed = false → x ∈ s.heap → Untimed x s) {call : Call}
    (hcareful : call = .add x none → x ∈ s.heap → timed = false → ¬ Remembers (s.evt x))
    (htimed : timedAfter K x s timed call = false) (hx : x ∈ (s.runCall K call).heap) :
    Untimed x (s.runCall K call) := by
  cases call with
  | new malloc fd events fn arg =>
      change x ∈ (s.wbaEventNew malloc fd events fn arg).2.heap at hx
      change Untimed x (s.wbaEventNew malloc fd events fn arg).2
      rw [timedAfter] at htimed
      rcases wbaEventNew_cases s malloc fd events fn arg with heq | ⟨e, f, he, heq⟩
      · rw [heq] at htimed hx ⊢
        exact h htimed hx
      · rw [heq] at htimed hx ⊢
        by_cases hex : e = x
        · subst hex
          exact untimed_freshEvt s e fd events f arg
        · rw [if_neg fun hsome => hex (Option.some.inj hsome)] at htimed
          have hold : x ∈ s.heap := (List.mem_cons.1 hx).resolve_left (Ne.symm hex)
          exact (h htimed hold).congr (Function.update_of_ne (Ne.symm hex) _ _)
  | add e tv =>
      change x ∈ (s.wbaEventAdd K e tv).2.heap at hx
      change Untimed x (s.wbaEventAdd K e tv).2
      have htouch := touches_wbaEventAdd K s e tv
      rw [htouch.heap] at hx
      rw [timedAfter, Bool.or_eq_false_iff] at htimed
      have huntimed := h htimed.1 hx
      by_cases hex : e = x
      · subst hex
        apply huntimed.wbaEventAdd hx
        · rintro rfl
          exact hcareful rfl hx htimed.1
        · intro htv hone
          simp [htv, hone] at htimed
      · exact huntimed.congr (htouch.other x (Ne.symm hex))
  | del e =>
      change x ∈ (s.eventDel K e).2.heap at hx
      change Untimed x (s.eventDel K e).2
      rw [(flagsOnly_eventDel K s e).1] at hx
      by_cases hex : e = x
      · subst hex
        exact hs.untimed_eventDel hx
      · rw [timedAfter, if_neg hex] at htimed
        exact (h htimed hx).congr ((flagsOnly_eventDel K s e).evt_of_ne (Ne.symm hex))
  | free e =>
      have hmem : x ∈ (s.eventDel K e).2.heap.erase e := hx
      obtain ⟨slot, hwf⟩ := hs
      rw [(flagsOnly_eventDel K s e).1, hwf.heap_nodup.mem_erase_iff] at hmem
      rw [timedAfter, if_neg (Ne.symm hmem.1)] at htimed
      exact (h htimed hmem.2).congr ((flagsOnly_eventDel K s e).evt_of_ne hmem.1)

/-- A round does not give the event a timer: it is run only because its descriptor was reported,
and it has no interval then. -/
theorem Untimed.eventProcessActiveBody (h : Untimed x s) (hs : Consistent s active)
    (hx : x ∈ s.heap) (hrun : x = e → s.hasFlag x wbaEvtlistActive = true) :
    Untimed x (s.eventProcessActiveBody K e) := by
  by_cases hxe : x = e
  · subst hxe
    obtain ⟨-, hfd, hio, hforgets⟩ := h.active (hrun rfl)
    cases hper : s.hasEvent x wbaEvtPersist with
    | true =>
        rcases eventProcessActiveBody_of_persist K hx hper with ⟨-, heq⟩ | ⟨hinterval, -⟩
        · rw [heq]
          exact h.eventRemoveActive hforgets
        · exact absurd ⟨hper, hinterval, hfd, hio⟩ hforgets
    | false =>
        have heq : s.eventProcessActiveBody K x = (s.eventDel K x).2 := by
          rw [WbaEvtbase.eventProcessActiveBody, if_neg (by simp [hper])]
        rw [heq]
        exact hs.untimed_eventDel hx
  · exact h.congr ((touches_eventProcessActiveBody K s e).other x hxe)

theorem Untimed.eventCollect (h : Untimed x s) (hs : Consistent s active) (hx : x ∈ s.heap)
    {s' : WbaEvtbase κ} (hcollect : s.eventCollect K = some s') : Untimed x s' := by
  obtain ⟨slot, hwf⟩ := hs
  obtain ⟨-, hevt⟩ := hwf.evt_eventCollect K hcollect
  obtain ⟨v, hreported, -, hno⟩ := hevt x hx
  have hexp : (s.eventWait K).2.expired K x = false := by
    obtain ⟨k, hwait⟩ := eventWait_eq K s
    rw [hwait]
    unfold expired
    split
    · rfl
    · change (s.hasFlag x wbaEvtlistTimeout && _) = false
      rw [h.timeout, Bool.false_and]
  have heq := hno hexp
  rcases hreported with rfl | ⟨hwaiting, res, hres, rfl⟩
  · exact h.congr heq
  · obtain ⟨hreg, hfd, hio⟩ := hwaiting.2.1
    refine ⟨?_, fun _ => ?_, fun _ => ?_⟩
    · rw [hasFlag, heq, hasAny_activated_of_disjoint _ _ (by decide)]
      exact h.timeout
    · rw [hasEvent, heq]
      exact ⟨hres, hfd, hio, h.forgets hreg⟩
    · rw [heq]
      exact h.forgets hreg

/-! ### Runs -/

/-- What holds in every run of careful calls. -/
structure RunInv (x : EvtId) (c : Config κ) (active : List EvtId) : Prop where
  consistent : Consistent c.base active
  placed : Placed x c.base active c.stage
  untimed : c.timed = false → x ∈ c.base.heap → Untimed x c.base
  heard : ∀ events ∈ c.heard, hasAny events wbaEvtTimeout = false

theorem RunInv.call (h : RunInv x c active) {call : Call}
    (hstage : c.stage = .idle ∨ ∃ p, c.stage = .callback p) (hcareful : Careful x c call) :
    RunInv x { c with
      base := c.base.runCall K call
      timed := timedAfter K x c.base c.timed call } (callActive active call) := by
  have hplaced := h.placed
  refine ⟨h.consistent.runCall K call, ?_, ?_, h.heard⟩
  · rcases hstage with hidle | ⟨p, hcallback⟩
    · rw [hidle] at hplaced ⊢
      obtain rfl : active = [] := hplaced
      cases call <;> rfl
    · rw [hcallback] at hplaced ⊢
      apply placed_runCall h.consistent hplaced
      intro hrem hp
      exact hcareful.2 hrem (hp ▸ hcallback)
  · exact h.consistent.untimed_runCall h.untimed hcareful.1

theorem RunInv.waitFails (h : RunInv x c active) (hstage : c.stage = .idle) :
    RunInv x { c with base := (c.base.eventWait K).2 } active := by
  have hplaced := h.placed
  rw [hstage] at hplaced
  obtain ⟨k, hwait⟩ := eventWait_eq K c.base
  rw [hwait]
  refine ⟨h.consistent.setKernel k, ?_, fun htimed hx => ?_, h.heard⟩
  · rw [hstage]
    exact hplaced
  · exact (h.untimed htimed hx).congr rfl

theorem RunInv.collect (h : RunInv x c active) {s' : WbaEvtbase κ}
    (hcollect : c.base.eventCollect K = some s') :
    ∃ active', RunInv x { c with
      base := s', stage := .pass (Pass.start s').evt (Pass.start s').p } active' := by
  obtain ⟨active', hcons⟩ := h.consistent.eventCollect K hcollect
  have hheads := Pass.heads_start hcons
  refine ⟨active', hcons, Or.inl ⟨hheads.evt, hheads.p⟩, fun htimed hx => ?_, h.heard⟩
  have hheap : s'.heap = c.base.heap := by
    obtain ⟨slot, hwf⟩ := h.consistent
    exact (hwf.evt_eventCollect K hcollect).1
  have hold : x ∈ c.base.heap := hheap ▸ hx
  exact (h.untimed htimed hold).eventCollect h.consistent hold hcollect

theorem RunInv.round (h : RunInv x c active) (hstage : c.stage = .pass (some (entry e)) p)
    (he : e ∈ c.base.heap) :
    RunInv x { c with
      base := c.base.eventProcessActiveBody K e
      stage := .callback p
      heard := if e = x ∧ c.timed = false
        then c.heard ++ [((c.base.eventProcessActiveBody K e).evt e).res] else c.heard }
      (active.erase e) := by
  have hplaced := h.placed
  rw [hstage] at hplaced
  have htouch := touches_eventProcessActiveBody K c.base e
  -- The event that is run is the first one of the active list, or it is not `x`.
  have hrun : x = e → c.base.hasFlag x wbaEvtlistActive = true := by
    rintro rfl
    rcases hplaced with ⟨hevt, -⟩ | ⟨hnull | ⟨f, hfx, hevt, -⟩, -⟩
    · cases active with
      | nil => simp at hevt
      | cons f rest =>
          obtain rfl : x = f := by simpa using hevt
          obtain ⟨slot, hwf⟩ := h.consistent
          exact ((hwf.active.mem x).1 (by simp)).2
    · exact absurd hnull (by simp)
    · exact absurd (by simpa using hevt.symm) hfx
  refine ⟨h.consistent.eventProcessActiveBody K he, ?_, fun htimed hx => ?_, ?_⟩
  · rcases hplaced with ⟨hevt, hp⟩ | ⟨-, hp⟩
    · cases active with
      | nil => simp at hevt
      | cons f rest =>
          obtain rfl : e = f := by simpa using hevt
          rw [List.erase_cons_head]
          exact Or.inl hp
    · exact Or.inr (hp.eventProcessActiveBody he)
  · have hold : x ∈ c.base.heap := htouch.heap ▸ hx
    exact (h.untimed htimed hold).eventProcessActiveBody h.consistent hold hrun
  · intro events hev
    simp only at hev
    split_ifs at hev with hnew
    · rcases List.mem_append.1 hev with hold | hlast
      · exact h.heard events hold
      · obtain ⟨rfl, htimed⟩ := hnew
        rw [List.mem_singleton.1 hlast, htouch.res]
        exact ((h.untimed htimed he).active (hrun rfl)).1
    · exact h.heard events hev

theorem RunInv.next (h : RunInv x c active) (hstage : c.stage = .callback p) :
    RunInv x { c with stage := .pass p (c.base.readNext p) } active := by
  have hplaced := h.placed
  rw [hstage] at hplaced
  refine ⟨h.consistent, ?_, h.untimed, h.heard⟩
  rcases hplaced with rfl | hstrays
  · exact Or.inl ⟨rfl, Pass.readNext_head h.consistent⟩
  · exact Or.inr ⟨hstrays, hstrays.readNext⟩

theorem RunInv.finish (h : RunInv x c active) (hstage : c.stage = .pass (some (head ())) p) :
    RunInv x { c with stage := .idle } active := by
  have hplaced := h.placed
  rw [hstage] at hplaced
  refine ⟨h.consistent, ?_, h.untimed, h.heard⟩
  rcases hplaced with ⟨hevt, -⟩ | ⟨hnull | ⟨f, -, hevt, -⟩, -⟩
  · cases active with
    | nil => rfl
    | cons f rest => simp at hevt
  · exact absurd hnull (by simp)
  · exact absurd hevt (by simp)

theorem Run.inv (h : Run K k x (Careful x) c) : ∃ active, RunInv x c active := by
  induction h with
  | new hnew =>
      refine ⟨[], ⟨_, wellFormed_new hnew⟩, rfl, fun _ hx => ?_, by simp⟩
      unfold wbaEvtbaseNew at hnew
      split_ifs at hnew
      cases hnew
      exact absurd hx (by simp)
  | call h call hstage hcall ih =>
      obtain ⟨active, hinv⟩ := ih
      exact ⟨_, hinv.call hstage hcall⟩
  | waitFails h hstage hwait ih =>
      obtain ⟨active, hinv⟩ := ih
      exact ⟨active, hinv.waitFails hstage⟩
  | collect h hstage hcollect ih =>
      obtain ⟨active, hinv⟩ := ih
      exact hinv.collect hcollect
  | round h hstage he ih =>
      obtain ⟨active, hinv⟩ := ih
      exact ⟨_, hinv.round hstage he⟩
  | next h hstage ih =>
      obtain ⟨active, hinv⟩ := ih
      exact ⟨_, hinv.next hstage⟩
  | finish h hstage ih =>
      obtain ⟨active, hinv⟩ := ih
      exact ⟨_, hinv.finish hstage⟩

/-- In every run in which no call adds the event without a timeout while it remembers an interval
from before its deletion, and none deletes or frees it while `event_process_active` has saved it as
the next event, an event that has not been added with a timeout is not in the time tree and is not
told of a timeout. -/
theorem run_noTimer (h : Run K k x (Careful x) c) : NoTimer x c := by
  obtain ⟨active, hinv⟩ := h.inv
  refine ⟨fun htimed hmem => ?_, hinv.heard⟩
  obtain ⟨slot, hwf⟩ := hinv.consistent
  obtain ⟨hx, hflag⟩ := (hwf.timer.mem x).1 hmem
  rw [(hinv.untimed htimed hx).timeout] at hflag
  exact Bool.false_ne_true hflag

/-- The state after calls made one after the other outside of `event_process_active`. -/
def callsConfig (K : Kernel κ) (x : EvtId) (k : κ) (calls : List Call) : Config κ :=
  calls.foldl (fun c call => { c with
    base := c.base.runCall K call
    timed := timedAfter K x c.base c.timed call }) ⟨newBase k, .idle, false, []⟩

/-- A persistent reader is added with a timeout, deleted, and added without one. -/
def rememberingConfig : Config SimState :=
  callsConfig simKernel 0 { reports := [[⟨epollIn, 7⟩]] }
    [.new (some 0) 7 (wbaEvtPersist ||| wbaEvtRead) (some 1) .null, .add 0 (some ⟨5, 0⟩), .del 0,
      .add 0 none]

/-- When its descriptor is reported, the reader is scheduled with the interval it was deleted
with. -/
theorem not_noTimer_remembering :
    ∃ c, Run simKernel { reports := [[⟨epollIn, 7⟩]] } 0 (fun _ _ => True) c ∧ ¬ NoTimer 0 c := by
  have hrun : Run simKernel { reports := [[⟨epollIn, 7⟩]] } 0 (fun _ _ => True)
      rememberingConfig := by
    apply Run.call _ (.add 0 none) (Or.inl rfl) trivial
    apply Run.call _ (.del 0) (Or.inl rfl) trivial
    apply Run.call _ (.add 0 (some ⟨5, 0⟩)) (Or.inl rfl) trivial
    apply Run.call _ (.new (some 0) 7 _ (some 1) .null) (Or.inl rfl) trivial
    exact Run.new (wbaEvtbaseNew_newBase _)
  have htimed : rememberingConfig.timed = false := by decide +kernel
  have hround : (rememberingConfig.base.eventCollect simKernel).map (fun s' =>
      ((Pass.start s').evt, decide (0 ∈ s'.heap),
        (s'.eventProcessActiveBody simKernel 0).evtTimeRoot.inorder)) =
      some (some (entry 0), true, [0]) := by
    decide +kernel
  rw [Option.map_eq_some_iff] at hround
  obtain ⟨s', hs', hstart⟩ := hround
  simp only [Prod.mk.injEq, decide_eq_true_iff] at hstart
  obtain ⟨hevt, hmem, htree⟩ := hstart
  refine ⟨_, (hrun.collect rfl hs').round (e := 0) (p := (Pass.start s').p) ?_ hmem, fun hno => ?_⟩
  · rw [hevt]
  · have hnot := hno.1 htimed
    simp only [htree] at hnot
    exact hnot (by simp)

/-- A persistent reader is added without a timeout. -/
def readerConfig : Config SimState :=
  callsConfig simKernel 0 { reports := [[⟨epollIn, 7⟩]] }
    [.new (some 0) 7 (wbaEvtPersist ||| wbaEvtRead) (some 1) .null, .add 0 none]

/-- The reader after it has been run, and its callback has made the calls. -/
def readConfig (s : WbaEvtbase SimState) (calls : List Call) : Config SimState :=
  calls.foldl (fun c call => { c with
    base := c.base.runCall simKernel call
    timed := timedAfter simKernel 0 c.base c.timed call })
    { base := s.eventProcessActiveBody simKernel 0
      stage := .callback (Pass.start s).p
      timed := false
      heard := [((s.eventProcessActiveBody simKernel 0).evt 0).res] }

/-- The reader is run once. Its callback adds it with a timeout and deletes it: it remembers the
interval then, and is not added again. -/
theorem noTimer_readerConfig :
    ∃ c : Config SimState, c.timed = false ∧ Remembers (c.base.evt 0) ∧ c.heard = [wbaEvtRead] ∧
      NoTimer 0 c := by
  have hrun : Run simKernel { reports := [[⟨epollIn, 7⟩]] } 0 (Careful 0) readerConfig := by
    apply Run.call _ (.add 0 none) (Or.inl rfl) (by decide +kernel)
    apply Run.call _ (.new (some 0) 7 _ (some 1) .null) (Or.inl rfl) (by decide +kernel)
    exact Run.new (wbaEvtbaseNew_newBase _)
  have hround : (readerConfig.base.eventCollect simKernel).map (fun s' =>
      ((Pass.start s').evt, decide (0 ∈ s'.heap ∧
        Careful 0 (readConfig s' []) (.add 0 (some ⟨5, 0⟩)) ∧
        Careful 0 (readConfig s' [.add 0 (some ⟨5, 0⟩)]) (.del 0) ∧
        (readConfig s' [.add 0 (some ⟨5, 0⟩), .del 0]).timed = false ∧
        Remembers ((readConfig s' [.add 0 (some ⟨5, 0⟩), .del 0]).base.evt 0) ∧
        (readConfig s' []).heard = [wbaEvtRead]))) =
      some (some (entry 0), true) := by
    decide +kernel
  rw [Option.map_eq_some_iff] at hround
  obtain ⟨s', hs', hread⟩ := hround
  simp only [Prod.mk.injEq, decide_eq_true_iff] at hread
  obtain ⟨hevt, hmem, hadd, hdel, htimed, hremembers, hheard⟩ := hread
  have hstage : Stage.pass (Pass.start s').evt (Pass.start s').p =
      .pass (some (entry 0)) (Pass.start s').p := by
    rw [hevt]
  have hcallback := (hrun.collect rfl hs').round hstage hmem
  have hadded := hcallback.call (.add 0 (some ⟨5, 0⟩)) (Or.inr ⟨_, rfl⟩) hadd
  have hdeleted := hadded.call (.del 0) (Or.inr ⟨_, rfl⟩) hdel
  exact ⟨_, htimed, hremembers, hheard, run_noTimer hdeleted⟩

end WbaEvtbase

end Miscellany
