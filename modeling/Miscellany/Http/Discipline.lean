import Miscellany.Http.Answers

/-!
# One operation, one result

A handler of a client that is not stopped ends in one of two ways: it starts one operation,
or it stops the client and signals one result. So what a run writes down begins with the
operations started one after the other, and then possibly a stop, with or without a result,
after which only further calls of `stop` follow.
-/

namespace Miscellany

namespace HttpClient

/-! ### What a handler does -/

/-- A handler starts one operation. -/
def Continues (s s' : HttpClient) : Prop :=
  ∃ op, s'.stopped = s.stopped ∧ s'.pending = s.pending ++ [op] ∧
    s'.log = s.log ++ [.started op]

/-- A handler stops the client and signals a result. -/
def Finishes (s s' : HttpClient) : Prop :=
  ∃ r, s'.stopped = true ∧ s'.pending = s.pending ∧
    s'.log = s.log ++ [.stopped, .signalled r]

/-- What a handler does to a client that is not stopped. -/
def Proceeds (s s' : HttpClient) : Prop := Continues s s' ∨ Finishes s s'

variable {s s' t : HttpClient}

theorem Answers.proceeds {op : SocketOp} (h : Answers op s s') : Proceeds s s' := by
  cases h with
  | starts op' _ hstop hpending hlog _ => exact Or.inl ⟨op', hstop, hpending, hlog⟩
  | signals r _ hstop hpending hlog _ _ => exact Or.inr ⟨r, hstop, hpending, hlog⟩

theorem proceeds_startConnect (env : HttpEnv) (iter : List ServerInfo) (s : HttpClient) :
    Proceeds s (startConnect env iter s) := by
  cases iter with
  | nil => exact Or.inr ⟨s.result failToConnect, rfl, rfl, log_finishError failToConnect s⟩
  | cons info next => exact Or.inl ⟨.connect info next, rfl, rfl, rfl⟩

/-! ### The course of a run -/

/-- Only operations are started. -/
def Starts (as : List HttpAction) : Prop := ∀ a ∈ as, ∃ op, a = .started op

/-- Nothing happens but that the client is stopped again. -/
def Stops (as : List HttpAction) : Prop := ∀ a ∈ as, a = .stopped

theorem Starts.concat {as : List HttpAction} (h : Starts as) (op : SocketOp) :
    Starts (as ++ [.started op]) := by
  intro a ha
  rw [List.mem_append, List.mem_singleton] at ha
  cases ha with
  | inl ha => exact h a ha
  | inr ha => exact ⟨op, ha⟩

theorem Stops.concat {as : List HttpAction} (h : Stops as) : Stops (as ++ [.stopped]) := by
  intro a ha
  rw [List.mem_append, List.mem_singleton] at ha
  cases ha with
  | inl ha => exact h a ha
  | inr ha => exact ha

/-- Where a client stands; `called` says that `stop` has been called from outside. -/
inductive Course (called : Prop) (s : HttpClient) : Prop where
  | running (op : SocketOp) (hstop : s.stopped = false) (hpending : s.pending = [op])
      (hlog : Starts s.log)
  | finished (pre post : List HttpAction) (r : HttpResult) (hstop : s.stopped = true)
      (hpre : Starts pre) (hpost : Stops post)
      (hlog : s.log = pre ++ .stopped :: .signalled r :: post)
  | halted (hcalled : called) (pre post : List HttpAction) (hstop : s.stopped = true)
      (hpre : Starts pre) (hpost : Stops post) (hlog : s.log = pre ++ .stopped :: post)

variable {called : Prop}

theorem Course.mono {called' : Prop} (h : Course called s) (hc : called → called') :
    Course called' s := by
  cases h with
  | running op hstop hpending hlog => exact .running op hstop hpending hlog
  | finished pre post r hstop hpre hpost hlog => exact .finished pre post r hstop hpre hpost hlog
  | halted hcalled pre post hstop hpre hpost hlog =>
      exact .halted (hc hcalled) pre post hstop hpre hpost hlog

/-- A client that is stopped and does nothing more stays where it is. -/
theorem Course.of_stopped (h : Course called s) (hstop : s.stopped = true)
    (hstop' : s'.stopped = true) (hlog' : s'.log = s.log) : Course called s' := by
  cases h with
  | running op hfalse hpending hlog =>
      rw [hfalse] at hstop
      cases hstop
  | finished pre post r _ hpre hpost hlog =>
      exact .finished pre post r hstop' hpre hpost (hlog'.trans hlog)
  | halted hcalled pre post _ hpre hpost hlog =>
      exact .halted hcalled pre post hstop' hpre hpost (hlog'.trans hlog)

/-- With nothing outstanding, the way a handler ends is a step of the course. -/
theorem Course.of_proceeds (h : Proceeds s s') (hstop : s.stopped = false)
    (hpending : s.pending = [])
    (hlog : Starts s.log) : Course called s' := by
  cases h with
  | inl h =>
      obtain ⟨op, hstop', hpending', hlog'⟩ := h
      apply Course.running op (hstop'.trans hstop)
      · rw [hpending', hpending, List.nil_append]
      · rw [hlog']
        exact hlog.concat op
  | inr h =>
      obtain ⟨r, hstop', -, hlog'⟩ := h
      exact .finished s.log [] r hstop' hlog (by simp [Stops]) hlog'

/-- The handler of the operation outstanding is a step of the course. -/
theorem Course.answers {op : SocketOp} {data : List Byte} (h : Course called s)
    (hstop : s.stopped = false) (hop : op ∈ s.pending) (ha : Answers op (deliver op data s) s') :
    Course called s' := by
  cases h with
  | running op' _ hpending hlog =>
      have heq : op = op' := by simpa [hpending] using hop
      have hnone : (deliver op data s).pending = [] := by simp [deliver, hpending, heq]
      exact .of_proceeds ha.proceeds hstop hnone hlog
  | finished pre post r htrue => simp [hstop] at htrue
  | halted hcalled pre post htrue => simp [hstop] at htrue

theorem Course.congr (h : Course called s) (hs : SameCourse s s') : Course called s' := by
  obtain ⟨hstop, hpending, hlog, -⟩ := hs
  cases h with
  | running op hfalse hop hstarts =>
      exact .running op (hstop.trans hfalse) (hpending.trans hop) (by rwa [hlog])
  | finished pre post r htrue hpre hpost heq =>
      exact .finished pre post r (hstop.trans htrue) hpre hpost (hlog.trans heq)
  | halted hcalled pre post htrue hpre hpost heq =>
      exact .halted hcalled pre post (hstop.trans htrue) hpre hpost (hlog.trans heq)

theorem Course.stop (h : Course called s) : Course True (stop s) := by
  cases h with
  | running op hfalse hop hstarts =>
      exact .halted trivial s.log [] rfl hstarts (by simp [Stops]) rfl
  | finished pre post r htrue hpre hpost heq =>
      apply Course.finished pre (post ++ [.stopped]) r rfl hpre hpost.concat
      change s.log ++ [.stopped] = _
      rw [heq, List.append_assoc]
      rfl
  | halted hcalled pre post htrue hpre hpost heq =>
      apply Course.halted trivial pre (post ++ [.stopped]) rfl hpre hpost.concat
      change s.log ++ [.stopped] = _
      rw [heq, List.append_assoc]
      rfl

theorem course_start (env : HttpEnv) (endpoints : List ServerInfo) (messageId : String) :
    Course called (start env (new endpoints messageId)) := by
  have hconnect :=
    proceeds_startConnect env endpoints { new endpoints messageId with stopped := false }
  have hcourse : Course called
      (startConnect env endpoints { new endpoints messageId with stopped := false }) :=
    Course.of_proceeds hconnect rfl rfl (by simp [Starts, new])
  exact hcourse.congr ⟨rfl, rfl, rfl, rfl⟩

theorem Course.react {e : HttpEvent} (h : Course called s) (hr : react s e = some s') :
    Course (called ∨ e = .stopCalled) s' := by
  cases reaction_of_react hr with
  | answered hstop hop ha => exact (h.answers hstop hop ha).mono Or.inl
  | ignored hstop =>
      apply (h.mono Or.inl).of_stopped hstop
      · exact hstop
      · rfl
  | checked =>
      apply (h.mono Or.inl).congr
      exact ⟨rfl, rfl, rfl, rfl⟩
  | stopped => exact h.stop.mono fun _ => Or.inr rfl

theorem Course.run {es : List HttpEvent} (h : Course called s) (hr : run s es = some s') :
    Course (called ∨ .stopCalled ∈ es) s' := by
  induction es generalizing s called with
  | nil =>
      cases hr
      exact h.mono Or.inl
  | cons e es ih =>
      simp only [HttpClient.run] at hr
      obtain ⟨t, ht, hrest⟩ := Option.bind_eq_some_iff.1 hr
      apply (ih (h.react ht) hrest).mono
      intro hc
      rw [List.mem_cons]
      cases hc with
      | inl hc => exact hc.imp id fun he => Or.inl he.symm
      | inr hc => exact Or.inr (Or.inr hc)

/-! ### What a run writes down -/

/-- The result signalled by an action. -/
def signalledBy : HttpAction → Option HttpResult
  | .signalled r => some r
  | _ => none

/-- The results signalled. -/
def results (s : HttpClient) : List HttpResult := s.log.filterMap signalledBy

/-- The operation started by an action. -/
def startedBy : HttpAction → Option SocketOp
  | .started op => some op
  | _ => none

/-- The operations started. -/
def startedOps (s : HttpClient) : List SocketOp := s.log.filterMap startedBy

/-- One operation is outstanding at a time and one result is signalled; `called` says that `stop`
has been called from outside. -/
structure Disciplined (called : Prop) (s : HttpClient) : Prop where
  outstanding : s.stopped = false → s.pending.length = 1
  once : s.results.length ≤ 1
  /-- A result is signalled directly after the first stop. -/
  together : ∀ pre r post, s.log = pre ++ .signalled r :: post →
    ∃ pre', pre = pre' ++ [.stopped] ∧ .stopped ∉ pre'
  /-- No operation is started after a stop. -/
  silent : ∀ pre post, s.log = pre ++ .stopped :: post → ∀ op, .started op ∉ post
  recorded : s.stopped = true ↔ .stopped ∈ s.log
  /-- A client that is stopped when an event arrives does nothing more. -/
  settled : s.stopped = true → ∀ e s', s.react e = some s' →
    s'.stopped = true ∧ s'.startedOps = s.startedOps ∧ s'.results = s.results
  concluded : ¬ called → s.pending = [] → s.results.length = 1

theorem Starts.stopped_notMem {as : List HttpAction} (h : Starts as) : .stopped ∉ as := by
  intro hmem
  obtain ⟨op, hop⟩ := h _ hmem
  cases hop

theorem Starts.signalled_notMem {as : List HttpAction} (h : Starts as) (r : HttpResult) :
    .signalled r ∉ as := by
  intro hmem
  obtain ⟨op, hop⟩ := h _ hmem
  cases hop

theorem Starts.signalledBy_eq_nil {as : List HttpAction} (h : Starts as) :
    as.filterMap signalledBy = [] := by
  apply List.filterMap_eq_nil_iff.2
  intro a ha
  obtain ⟨op, rfl⟩ := h a ha
  rfl

theorem Stops.started_notMem {as : List HttpAction} (h : Stops as) (op : SocketOp) :
    .started op ∉ as := by
  intro hmem
  cases h _ hmem

theorem Stops.signalled_notMem {as : List HttpAction} (h : Stops as) (r : HttpResult) :
    .signalled r ∉ as := by
  intro hmem
  cases h _ hmem

theorem Stops.signalledBy_eq_nil {as : List HttpAction} (h : Stops as) :
    as.filterMap signalledBy = [] := by
  apply List.filterMap_eq_nil_iff.2
  intro a ha
  rw [h a ha]
  rfl

/-- What follows an occurrence of `a` is behind every prefix that does not hold `a`. -/
theorem mem_of_mem_after {as bs pre post : List HttpAction} {a b : HttpAction}
    (h : as ++ bs = pre ++ a :: post) (ha : a ∉ as) (hb : b ∈ post) : b ∈ bs := by
  rcases List.append_eq_append_iff.1 h with ⟨mid, hpre, hbs⟩ | ⟨mid, has, hpost⟩
  · rw [hbs]
    exact List.mem_append_right mid (List.mem_cons_of_mem a hb)
  · cases mid with
    | nil =>
        rw [← List.nil_append bs, ← hpost]
        exact List.mem_cons_of_mem a hb
    | cons c mid =>
        have hac : a = c := (List.cons.inj hpost).1
        apply absurd _ ha
        rw [has, hac]
        exact List.mem_append_right pre List.mem_cons_self

/-- The log of a client that is stopped ends with what follows the first stop. -/
theorem Course.silent_of_stopped {pre rest : List HttpAction} (hpre : Starts pre)
    (hrest : ∀ op, .started op ∉ rest) (hlog : s.log = pre ++ .stopped :: rest) :
    ∀ pre post, s.log = pre ++ .stopped :: post → ∀ op, .started op ∉ post := by
  intro pre' post' heq op hop
  have hmem : HttpAction.started op ∈ .stopped :: rest :=
    mem_of_mem_after (hlog.symm.trans heq) hpre.stopped_notMem hop
  cases List.mem_cons.1 hmem with
  | inl h => cases h
  | inr h => exact hrest op h

theorem settled_of_stopped (hstop : s.stopped = true) {e : HttpEvent} (hr : s.react e = some s') :
    s'.stopped = true ∧ s'.startedOps = s.startedOps ∧ s'.results = s.results := by
  cases reaction_of_react hr with
  | answered hfalse =>
      rw [hstop] at hfalse
      cases hfalse
  | ignored => exact ⟨hstop, rfl, rfl⟩
  | checked => exact ⟨hstop, rfl, rfl⟩
  | stopped =>
      unfold startedOps results
      simp [HttpClient.stop, closeSocket, startedBy, signalledBy]

theorem Course.disciplined (h : Course called s) : Disciplined called s := by
  cases h with
  | running op hstop hpending hlog =>
      have hresults : s.results = [] := hlog.signalledBy_eq_nil
      constructor
      · intro _
        rw [hpending]
        rfl
      · simp [hresults]
      · intro pre r post heq
        exact absurd (by simp [heq]) (hlog.signalled_notMem r)
      · intro pre post heq
        exact absurd (by simp [heq]) hlog.stopped_notMem
      · simp [hstop, hlog.stopped_notMem]
      · intro htrue
        rw [hstop] at htrue
        cases htrue
      · intro _ hnone
        rw [hpending] at hnone
        cases hnone
  | finished pre post r hstop hpre hpost hlog =>
      have hresults : s.results = [r] := by
        unfold results
        rw [hlog, List.filterMap_append, hpre.signalledBy_eq_nil]
        change [] ++ r :: post.filterMap signalledBy = [r]
        rw [hpost.signalledBy_eq_nil]
        rfl
      have hstarted : ∀ op, HttpAction.started op ∉ .signalled r :: post := by
        intro op
        simp [hpost.started_notMem op]
      constructor
      · simp [hstop]
      · simp [hresults]
      · intro pre' r' post' heq
        have hsplit : (pre ++ [.stopped]) ++ .signalled r :: post =
            pre' ++ .signalled r' :: post' := by
          rw [← heq, hlog, List.append_assoc]
          rfl
        have hnot : HttpAction.signalled r' ∉ pre ++ [.stopped] := by
          simp [hpre.signalled_notMem r']
        obtain ⟨heq', -, -⟩ :=
          (List.append_cons_inj_of_notMem hnot (hpost.signalled_notMem r')).1 hsplit
        exact ⟨pre, heq'.symm, hpre.stopped_notMem⟩
      · exact silent_of_stopped hpre hstarted hlog
      · simp [hstop, hlog]
      · intro _ e s' hr
        exact settled_of_stopped hstop hr
      · intro _ _
        rw [hresults]
        rfl
  | halted hcalled pre post hstop hpre hpost hlog =>
      have hresults : s.results = [] := by
        unfold results
        rw [hlog, List.filterMap_append, hpre.signalledBy_eq_nil]
        change [] ++ post.filterMap signalledBy = []
        rw [hpost.signalledBy_eq_nil]
        rfl
      constructor
      · simp [hstop]
      · simp [hresults]
      · intro pre' r' post' heq
        have hmem : HttpAction.signalled r' ∈ s.log := by simp [heq]
        rw [hlog, List.mem_append, List.mem_cons] at hmem
        rcases hmem with hmem | hmem | hmem
        · exact absurd hmem (hpre.signalled_notMem r')
        · cases hmem
        · exact absurd hmem (hpost.signalled_notMem r')
      · exact silent_of_stopped hpre hpost.started_notMem hlog
      · simp [hstop, hlog]
      · intro _ e s' hr
        exact settled_of_stopped hstop hr
      · intro hnot
        exact absurd hcalled hnot

/-- **One operation in flight, at most one result.** In whatever order the operations complete, with
any error and any bytes, the deadline expires and `stop` is called. -/
theorem run_disciplined (endpoints : List ServerInfo) (messageId : String) (env : HttpEnv)
    (events : List HttpEvent) (s : HttpClient)
    (h : run (start env (new endpoints messageId)) events = some s) :
    Disciplined (.stopCalled ∈ events) s := by
  have hcourse : Course False (start env (new endpoints messageId)) :=
    course_start env endpoints messageId
  have hrun := hcourse.run h
  apply Course.disciplined
  exact hrun.mono fun hc => hc.resolve_left id

/-- The first of two endpoints does not answer in time, and what the second sends is no response. -/
def refusedEvents : List HttpEvent :=
  let first : ServerInfo := ⟨⟨"10.0.0.1", 80⟩, 5, 30⟩
  let second : ServerInfo := ⟨⟨"10.0.0.2", 80⟩, 5, 30⟩
  [.expired ⟨6, true, 0⟩,
    .completed (.connect first [second]) (some ⟨false, "aborted"⟩) [] ⟨6, true, 0⟩,
    .completed (.connect second []) none [] ⟨7, true, 0⟩,
    .completed .writeRequest none [] ⟨8, true, 0⟩,
    .completed .readStatusLine none (ascii "220 ready\r\n") ⟨9, true, 0⟩]

def refusedClient : HttpClient :=
  start ⟨0, true, 0⟩
    (new [⟨⟨"10.0.0.1", 80⟩, 5, 30⟩, ⟨⟨"10.0.0.2", 80⟩, 5, 30⟩] "message")

theorem run_disciplined_refused :
    ∃ s, run refusedClient refusedEvents = some s ∧ s.pending = [] ∧ s.results.length = 1 := by
  obtain ⟨s, hs⟩ : ∃ s, run refusedClient refusedEvents = some s := ⟨_, rfl⟩
  have hpending : (run refusedClient refusedEvents).map pending = some [] := by decide
  rw [hs] at hpending
  have hdisciplined := run_disciplined _ _ _ refusedEvents s hs
  have hnone : s.pending = [] := Option.some.inj hpending
  exact ⟨s, hs, hnone, hdisciplined.concluded (by simp [refusedEvents]) hnone⟩

end HttpClient

end Miscellany
