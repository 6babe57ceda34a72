import Miscellany.EventLoop.Run

/-!
# Callbacks and an invariant of the base

What callbacks do may be known only for the bases with some property `P`, for example because the
argument of a callback is one that the program has stored there. When the loop and the callbacks
keep `P`, every callback of a run is started in a base with `P` and with an event that exists and
is not active any more (`LoopRun.sound`), so the run has whatever follows from that for each
invocation.
-/

namespace Miscellany

open ListHead

namespace WbaEvtbase

variable {κ : Type*} {K : Kernel κ} {cbs : Callbacks κ} {P : WbaEvtbase κ → Prop}
variable {s t : WbaEvtbase κ} {e : EvtId}

/-- The loop with the callbacks keeps `P`. -/
structure KeptBy (K : Kernel κ) (cbs : Callbacks κ) (P : WbaEvtbase κ → Prop) : Prop where
  consistent : ∀ s, P s → ∃ active, Consistent s active
  collect : ∀ s t, P s → s.eventCollect K = some t → P t
  body : ∀ s, ∀ e ∈ s.heap, P s → P (s.eventProcessActiveBody K e)
  calls : ∀ s, ∀ e ∈ s.heap, P s → P (s.runCalls K (s.invocation cbs e).calls)

/-- An invocation of a callback with its own event, which has not been freed and is not active. -/
structure Sound (P : WbaEvtbase κ → Prop) (cbs : Callbacks κ) (inv : Invocation κ) : Prop where
  base : P inv.base
  live : inv.evt ∈ inv.base.heap
  idle : inv.base.hasFlag inv.evt wbaEvtlistActive = false
  eq : inv = inv.base.invocation cbs inv.evt

/-- A round takes the event off the active list before it invokes the callback. -/
theorem KeptBy.sound (h : KeptBy K cbs P) (hs : P s) (he : e ∈ s.heap) :
    Sound P cbs ((s.eventProcessActiveBody K e).invocation cbs e) := by
  obtain ⟨active, hcons⟩ := h.consistent s hs
  have hheap : (s.eventProcessActiveBody K e).heap = s.heap :=
    (touches_eventProcessActiveBody K s e).heap
  have hnot : e ∉ active.erase e := hcons.nodup.not_mem_erase
  obtain ⟨slot, hbody⟩ := hcons.eventProcessActiveBody he (K := K)
  have hlive : e ∈ (s.eventProcessActiveBody K e).heap := hheap ▸ he
  constructor
  · exact h.body s e he hs
  · exact hlive
  · rw [← Bool.not_eq_true]
    exact fun hflag => hnot ((hbody.active.mem e).2 ⟨hlive, hflag⟩)
  · rfl

end WbaEvtbase

open WbaEvtbase

namespace Pass

variable {κ : Type*} {K : Kernel κ} {cbs : Callbacks κ} {P : WbaEvtbase κ → Prop} {st : Pass κ}

theorem step_sound (hkept : KeptBy K cbs P) (hP : P st.base)
    (hsound : ∀ inv ∈ st.trace, Sound P cbs inv) :
    P (step K cbs st).base ∧ ∀ inv ∈ (step K cbs st).trace, Sound P cbs inv := by
  rcases step_cases K cbs st with hstay | ⟨e, he, hbase, htrace⟩
  · rw [hstay]
    exact ⟨hP, hsound⟩
  · have hinv := hkept.sound hP he
    rw [hbase, htrace]
    refine ⟨hkept.calls _ e hinv.live hinv.base, ?_⟩
    exact List.forall_mem_append.2 ⟨hsound, List.forall_mem_singleton.2 hinv⟩

theorem steps_sound (hkept : KeptBy K cbs P) (n : ℕ) (hP : P st.base)
    (hsound : ∀ inv ∈ st.trace, Sound P cbs inv) :
    P (steps K cbs n st).base ∧ ∀ inv ∈ (steps K cbs n st).trace, Sound P cbs inv := by
  induction n generalizing st with
  | zero => exact ⟨hP, hsound⟩
  | succ n ih =>
      obtain ⟨hP', hsound'⟩ := step_sound hkept hP hsound
      exact ih hP' hsound'

end Pass

namespace WbaEvtbase

variable {κ : Type*} {K : Kernel κ} {cbs : Callbacks κ} {P : WbaEvtbase κ → Prop}
variable {s t : WbaEvtbase κ}

/-- What is invoked in a pass over the active list of a base with `P`. -/
theorem KeptBy.steps (hkept : KeptBy K cbs P) (hs : P s) (n : ℕ) :
    P (Pass.steps K cbs n (Pass.start s)).base ∧
      ∀ inv ∈ (Pass.steps K cbs n (Pass.start s)).trace, Sound P cbs inv :=
  Pass.steps_sound hkept n hs fun _ h => by cases h

/-- A run of the loop from a base with `P`. -/
theorem LoopRun.sound (hkept : KeptBy K cbs P) (hs : P s) {res : ℤ}
    {its : List (WbaEvtbase κ × List (Invocation κ))} (hrun : LoopRun K cbs s res its t) :
    P t ∧ ∀ it ∈ its, ∀ inv ∈ it.2, Sound P cbs inv := by
  induction hrun with
  | start => exact ⟨hs, fun _ h => by cases h⟩
  | iterate hprev hpending hwait hcollect hrun ih =>
      obtain ⟨hP, hsound⟩ := ih
      obtain ⟨-, rfl, rfl⟩ := eventProcessActive_eq_some K hrun
      obtain ⟨hP', hsound'⟩ := hkept.steps (hkept.collect _ _ hP hcollect) _
      exact ⟨hP', List.forall_mem_append.2 ⟨hsound, List.forall_mem_singleton.2 hsound'⟩⟩

/-- When sound invocations remove their own event only, so do those of a run, and the loop goes on
until nothing is left or `epoll_wait` fails. -/
theorem LoopRun.sound_next (hkept : KeptBy K cbs P) (h : Consistent s []) (hs : P s)
    (hown : ∀ inv, Sound P cbs inv → inv.RemovesOwn) {res : ℤ}
    {its : List (WbaEvtbase κ × List (Invocation κ))} (hrun : LoopRun K cbs s res its t) :
    (∀ it ∈ its, Ring it.1.evtActiveList () (it.2.map Invocation.evt)) ∧
      ∀ rs, t.isEmptyBase = false → (t.eventWait K).1 = some rs →
        ∃ t' tr u, LoopRun K cbs s rs.length (its ++ [(t', tr)]) u := by
  obtain ⟨hP, hsound⟩ := hrun.sound hkept hs
  refine ⟨hrun.ring h fun it hit inv hinv => hown inv (hsound it hit inv hinv), ?_⟩
  intro rs hpending hwait
  obtain ⟨t', hcollect, hnext⟩ := hrun.next h hpending hwait
  have hinv := hkept.steps (hkept.collect _ _ hP hcollect)
  obtain ⟨tr, u, hrun'⟩ := hnext fun n inv hmem => hown inv ((hinv n).2 inv hmem)
  exact ⟨t', tr, u, hrun'⟩

end WbaEvtbase

end Miscellany
