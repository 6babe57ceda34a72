import Miscellany.EventLoop.Reachable

/-!
# Which events the reports activate

The loop over the reports should activate the events whose descriptor was reported,
and only those. It does neither in general. `event_map_active` does not compare
descriptors, so a report reaches every event of its slot, and the translation of a
hang-up to reading and writing drops the bit that an event waiting for the end of
the connection is registered for. Both properties are characterised exactly.
-/

namespace Miscellany

namespace WbaEvtbase

variable {κ : Type*} {K : Kernel κ} {s : WbaEvtbase κ} {e : EvtId}

/-- What the reports do to one event of a reachable base. -/
theorem Reachable.processReports {k : κ} (h : Reachable K k s) (rs : List EpollEvent) :
    ∃ t, WbaEvtbase.processReports rs s = some t ∧
      ∀ d, t.evt d = ((s.reported rs d).map (activated (s.evt d))).getD (s.evt d) := by
  obtain ⟨active, slot, hwf⟩ := h.consistent
  obtain ⟨t, -, heq, -, -, hevt⟩ := hwf.processReports rs
  exact ⟨t, heq, hevt⟩

/-! ### No spurious activation -/

/-- Every event that the reports put on the active list has a report for its descriptor, whose
bits it gets; an event without a report is left unchanged. -/
def NoSpuriousActivation (s : WbaEvtbase κ) (rs : List EpollEvent) : Prop :=
  ∃ t, processReports rs s = some t ∧
    (∀ e ∈ s.heap, s.hasFlag e wbaEvtlistActive = false → t.hasFlag e wbaEvtlistActive = true →
      ∃ r ∈ rs, r.fd = (s.evt e).fd ∧ (t.evt e).res = (s.evt e).events &&& translate r.events) ∧
    ∀ e ∈ s.heap, (∀ r ∈ rs, r.fd ≠ (s.evt e).fd) → t.evt e = s.evt e

/-- For every waiting event, the first report that reaches its slot with one of its bits carries
the same of its bits as a report for its own descriptor. -/
def FirstHitIsOwn (s : WbaEvtbase κ) (rs : List EpollEvent) : Prop :=
  ∀ e, s.Waiting e → ∀ r, (rs.find? fun r => s.hits r e) = some r →
    ∃ own ∈ rs, own.fd = (s.evt e).fd ∧ s.resultOf own e = s.resultOf r e

theorem reported_eq_some_iff {rs : List EpollEvent} {res : BitVec 16} :
    s.reported rs e = some res ↔
      s.Waiting e ∧ ∃ r, (rs.find? fun r => s.hits r e) = some r ∧ s.resultOf r e = res := by
  unfold reported
  by_cases hw : s.Waiting e
  · simp [hw]
  · simp [hw]

/-- The reports activate no event spuriously exactly when each event is hit first by what its own
descriptor reports. -/
theorem noSpuriousActivation_iff {k : κ} (h : Reachable K k s) (rs : List EpollEvent) :
    NoSpuriousActivation s rs ↔ FirstHitIsOwn s rs := by
  obtain ⟨t, heq, hevt⟩ := h.processReports rs
  constructor
  · rintro ⟨t', heq', hnew, -⟩ e hw r hr
    obtain rfl : t = t' := Option.some.inj (heq.symm.trans heq')
    have hrep : s.reported rs e = some (s.resultOf r e) :=
      reported_eq_some_iff.2 ⟨hw, r, hr, rfl⟩
    have he : t.evt e = activated (s.evt e) (s.resultOf r e) := by
      rw [hevt, hrep]
      rfl
    have hflag : t.hasFlag e wbaEvtlistActive = true := by
      rw [hasFlag, he]
      exact hasAny_activated _ _
    obtain ⟨own, hmem, hfd, hres⟩ := hnew e hw.1 hw.2.2 hflag
    refine ⟨own, hmem, hfd, ?_⟩
    rw [he] at hres
    exact hres.symm
  · intro hfirst
    refine ⟨t, heq, fun e _ hold hnew => ?_, fun e _ hnone => ?_⟩
    · cases hrep : s.reported rs e with
      | none =>
          have he : t.evt e = s.evt e := by
            rw [hevt, hrep]
            rfl
          rw [hasFlag, he] at hnew
          exact absurd hnew (by simpa [hasFlag] using hold)
      | some res =>
          obtain ⟨hw, r, hr, rfl⟩ := reported_eq_some_iff.1 hrep
          obtain ⟨own, hmem, hfd, hres⟩ := hfirst e hw r hr
          refine ⟨own, hmem, hfd, ?_⟩
          rw [hevt, hrep]
          exact hres.symm
    · cases hrep : s.reported rs e with
      | none =>
          rw [hevt, hrep]
          rfl
      | some res =>
          obtain ⟨hw, r, hr, -⟩ := reported_eq_some_iff.1 hrep
          obtain ⟨own, hmem, hfd, -⟩ := hfirst e hw r hr
          exact absurd hfd (hnone own hmem)

/-- A base with two readers, on the descriptors 1 and 33 of one slot. -/
def collisionBase : WbaEvtbase SimState :=
  (newBase {}).runCalls simKernel
    [.new (some 0) 1 wbaEvtRead (some 1) .null, .new (some 1) 33 wbaEvtRead (some 1) .null,
      .add 0 none, .add 1 none]

/-- A report for the descriptor 33 activates the event on the descriptor 1. -/
theorem spuriousActivation_collisionBase :
    Reachable simKernel {} collisionBase ∧
      ¬ NoSpuriousActivation collisionBase [⟨epollIn, 33⟩] := by
  refine ⟨reachable_newBase _ _ _, ?_⟩
  rintro ⟨t, heq, -, hsame⟩
  have hactive : (processReports [⟨epollIn, 33⟩] collisionBase).map
      (fun t => t.hasFlag 0 wbaEvtlistActive) = some true := by
    decide +kernel
  have hidle : collisionBase.hasFlag 0 wbaEvtlistActive = false := by decide +kernel
  rw [heq, Option.map_some, Option.some_inj, hasFlag,
    hsame 0 (by decide +kernel) (by decide +kernel)] at hactive
  rw [hasFlag, hactive] at hidle
  exact absurd hidle (by decide)

/-- Reports for both descriptors with the same bits activate both events as they should. -/
theorem noSpuriousActivation_collisionBase :
    NoSpuriousActivation collisionBase [⟨epollIn, 33⟩, ⟨epollIn, 1⟩] := by
  refine (noSpuriousActivation_iff (reachable_newBase _ _ _) _).2 ?_
  intro e hw r hr
  have hmem : ∀ d ∈ collisionBase.heap, ∃ own ∈ [(⟨epollIn, 33⟩ : EpollEvent), ⟨epollIn, 1⟩],
      own.fd = (collisionBase.evt d).fd := by
    decide +kernel
  obtain ⟨own, hown, hfd⟩ := hmem e hw.1
  refine ⟨own, hown, hfd, ?_⟩
  have hr' := List.mem_of_find?_eq_some hr
  have hbits : ∀ x ∈ [(⟨epollIn, 33⟩ : EpollEvent), ⟨epollIn, 1⟩], x.events = epollIn := by
    decide
  rw [resultOf, resultOf, hbits own hown, hbits r hr']

/-! ### No missed activation -/

/-- The report says something that an event with these bits should be told. -/
def concerns (what : BitVec 32) (events : BitVec 16) : Bool :=
  hasAny what epollIn && hasAny events wbaEvtRead ||
    hasAny what epollOut && hasAny events wbaEvtWrite ||
    hasAny what epollRdhup && hasAny events wbaEvtClosed ||
    hasAny what (epollHup ||| epollErr)

/-- Every event of the map whose descriptor has a report that concerns it is on the active
list after the reports. -/
def NoMissedActivation (s : WbaEvtbase κ) (rs : List EpollEvent) : Prop :=
  ∃ t, processReports rs s = some t ∧
    ∀ e ∈ s.heap, s.InMap e →
      (∃ r ∈ rs, r.fd = (s.evt e).fd ∧ concerns r.events (s.evt e).events = true) →
      t.hasFlag e wbaEvtlistActive = true

/-- The report says that the connection was closed, and neither hang-up nor error. -/
def onlyClosed (what : BitVec 32) : Bool :=
  hasAny what epollRdhup && !hasAny what (epollHup ||| epollErr)

/-- For every event that waits for the end of the connection only: if its descriptor has a report
of a hang-up or an error, then some report for its slot says that the connection was closed, and
neither hang-up nor error. -/
def HangupsAreClosed (s : WbaEvtbase κ) (rs : List EpollEvent) : Prop :=
  ∀ e, s.Waiting e → s.hasEvent e (wbaEvtRead ||| wbaEvtWrite) = false →
    (∃ r ∈ rs, r.fd = (s.evt e).fd ∧ hasAny r.events (epollHup ||| epollErr) = true) →
    ∃ r ∈ rs, 0 ≤ r.fd ∧ r.fd.toNat &&& s.sizemask = s.slotOf e ∧ onlyClosed r.events = true

/-- The bits of an event that a report carries. -/
theorem hasAny_translate (events : BitVec 16) (what : BitVec 32) :
    hasAny events (translate what) =
      if hasAny what (epollHup ||| epollErr) then hasAny events (wbaEvtRead ||| wbaEvtWrite)
      else
        hasAny what epollIn && hasAny events wbaEvtRead ||
          hasAny what epollOut && hasAny events wbaEvtWrite ||
          hasAny what epollRdhup && hasAny events wbaEvtClosed := by
  have hzero : hasAny events 0 = false := by simp [hasAny]
  unfold translate
  split_ifs <;> simp_all [hasAny_or_mask]

/-- After the reports an event of the map is active if it was before or if a report hits it. -/
theorem active_iff_hits {rs : List EpollEvent} {t : WbaEvtbase κ} (he : e ∈ s.heap)
    (hin : s.InMap e)
    (hevt : t.evt e = ((s.reported rs e).map (activated (s.evt e))).getD (s.evt e)) :
    t.hasFlag e wbaEvtlistActive = true ↔
      s.hasFlag e wbaEvtlistActive = true ∨ ∃ r ∈ rs, s.hits r e = true := by
  cases hflag : s.hasFlag e wbaEvtlistActive with
  | true =>
      have hrep : s.reported rs e = none := if_neg fun hw => by simp [hw.2.2] at hflag
      rw [hasFlag, hevt, hrep]
      simpa [hasFlag] using hflag
  | false =>
      rw [hasFlag, hevt, reported_of_waiting ⟨he, hin, hflag⟩]
      cases hfind : rs.find? fun r => s.hits r e with
      | none =>
          have hnone : ∀ r ∈ rs, ¬ s.hits r e = true := List.find?_eq_none.1 hfind
          rw [hasFlag] at hflag
          simpa [hflag] using hnone
      | some r =>
          have hr := List.mem_of_find?_eq_some hfind
          have hhit := List.find?_some hfind
          simp only [Option.map_some, Option.getD_some, hasAny_activated, true_iff]
          exact Or.inr ⟨r, hr, hhit⟩

/-- A report hits an event that waits for the end of the connection only if it says just that. -/
theorem hits_iff_onlyClosed (hin : s.InMap e)
    (hclosed : s.hasEvent e (wbaEvtRead ||| wbaEvtWrite) = false) (r : EpollEvent) :
    s.hits r e = true ↔
      0 ≤ r.fd ∧ r.fd.toNat &&& s.sizemask = s.slotOf e ∧ onlyClosed r.events = true := by
  have hio := hin.2.2
  rw [hasEvent, wbaEvtIo, hasAny_or_mask] at hio
  rw [hasEvent] at hclosed
  rw [hclosed, Bool.false_or] at hio
  rw [hasAny_or_mask, Bool.or_eq_false_iff] at hclosed
  rw [hits, reaches, hasEvent, hasAny_translate, hasAny_or_mask _ wbaEvtRead, hclosed.1, hclosed.2,
    hio, onlyClosed]
  cases hasAny r.events (epollHup ||| epollErr) <;> simp [and_assoc]

/-- The reports miss no event exactly when a hang-up of a connection whose end alone is waited for
is also reported as such. -/
theorem noMissedActivation_iff {k : κ} (h : Reachable K k s) (rs : List EpollEvent) :
    NoMissedActivation s rs ↔ HangupsAreClosed s rs := by
  obtain ⟨t, heq, hevt⟩ := h.processReports rs
  constructor
  · rintro ⟨t', heq', hall⟩ e hw hclosed ⟨r, hr, hfd, hhup⟩
    obtain rfl : t = t' := Option.some.inj (heq.symm.trans heq')
    have hactive := hall e hw.1 hw.2.1 ⟨r, hr, hfd, by simp [concerns, hhup]⟩
    rcases (active_iff_hits hw.1 hw.2.1 (hevt e)).1 hactive with hold | ⟨r', hr', hhit⟩
    · simp [hw.2.2] at hold
    · exact ⟨r', hr', (hits_iff_onlyClosed hw.2.1 hclosed r').1 hhit⟩
  · intro hhang
    refine ⟨t, heq, fun e he hin => ?_⟩
    rintro ⟨r, hr, hfd, hcon⟩
    rw [active_iff_hits he hin (hevt e)]
    cases hflag : s.hasFlag e wbaEvtlistActive with
    | true => exact Or.inl rfl
    | false =>
        refine Or.inr ?_
        have hown : s.hits r e = hasAny (s.evt e).events (translate r.events) := by
          have hpos := hin.2.1
          simp [hits, reaches, slotOf, hasEvent, hfd, hpos]
        cases hhit : s.hits r e with
        | true => exact ⟨r, hr, hhit⟩
        | false =>
            -- Only a hang-up can be lost in the translation.
            rw [hown, hasAny_translate] at hhit
            rw [concerns] at hcon
            cases hhup : hasAny r.events (epollHup ||| epollErr) with
            | false =>
                rw [hhup, Bool.or_false] at hcon
                rw [hhup, if_neg Bool.false_ne_true, hcon] at hhit
                exact absurd hhit (by decide)
            | true =>
                rw [hhup, if_pos rfl] at hhit
                obtain ⟨r', hr', hsay⟩ := hhang e ⟨he, hin, hflag⟩ hhit ⟨r, hr, hfd, hhup⟩
                exact ⟨r', hr', (hits_iff_onlyClosed hin hhit r').2 hsay⟩

/-- A base with an event that waits for the end of the connection on the descriptor 7. -/
def closedBase : WbaEvtbase SimState :=
  (newBase {}).runCalls simKernel [.new (some 0) 7 wbaEvtClosed (some 1) .null, .add 0 none]

/-- A hang-up, although reported together with the end of the connection, does not activate the
event. -/
theorem missedActivation_closedBase :
    Reachable simKernel {} closedBase ∧
      ¬ NoMissedActivation closedBase [⟨epollRdhup ||| epollHup, 7⟩] := by
  refine ⟨reachable_newBase _ _ _, ?_⟩
  rintro ⟨t, heq, hall⟩
  have hidle : (processReports [⟨epollRdhup ||| epollHup, 7⟩] closedBase).map
      (fun t => t.hasFlag 0 wbaEvtlistActive) = some false := by
    decide +kernel
  have hactive := hall 0 (by decide +kernel) (by decide +kernel) (by decide +kernel)
  rw [heq, Option.map_some, Option.some_inj, hactive] at hidle
  exact absurd hidle (by decide)

theorem noMissedActivation_closedBase :
    NoMissedActivation closedBase [⟨epollRdhup ||| epollHup, 7⟩, ⟨epollRdhup, 7⟩] := by
  refine (noMissedActivation_iff (reachable_newBase _ _ _) _).2 ?_
  intro e hw _ _
  have hslot : ∀ d ∈ closedBase.heap, (7 : ℤ).toNat &&& closedBase.sizemask =
      closedBase.slotOf d := by
    decide +kernel
  exact ⟨⟨epollRdhup, 7⟩, by simp, by decide, hslot e hw.1, by decide⟩

end WbaEvtbase

end Miscellany
