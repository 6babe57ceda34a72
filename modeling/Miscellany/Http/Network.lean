import Mathlib.Data.List.Infix
import Miscellany.Http.Discipline

/-!
# The client and its peer

What the peer sends before it closes the connection is a list of bytes that the client has
not read yet. A read takes a prefix of these bytes: `async_read_until` takes none when the
delimiter is already buffered, and otherwise any number that brings the delimiter into the
buffer; `transfer_exactly` takes the number asked for; `transfer_at_least` takes that number
or more. A read for which there are not enough bytes takes them all and ends with
`asio::error::eof`. The deadline and other faults of the connection end a read with another
error.
-/

namespace Miscellany

def crlf : List Byte := [13, 10]

/-- When a read is complete. -/
inductive ReadCondition where
  | untilDelim (delim : List Byte)
  | exactly (n : ℕ)
  | atLeast (n : ℕ)

/-- The condition with which the client starts a read. -/
def SocketOp.condition : SocketOp → Option ReadCondition
  | .connect _ _ => none
  | .writeRequest => none
  | .readStatusLine => some (.untilDelim crlf)
  | .readHeaders => some (.untilDelim (crlf ++ crlf))
  | .readContent _ => some (.atLeast 1)
  | .readChunkSize => some (.untilDelim crlf)
  | .readChunkData _ remaining => some (.exactly remaining)

/-- How a read can complete with the given bytes buffered and still to come: its error and the bytes
it takes. -/
inductive Completes (response unread : List Byte) :
    ReadCondition → Option ErrorCode → List Byte → Prop where
  | buffered {delim : List Byte} (h : delim <:+: response) :
      Completes response unread (.untilDelim delim) none []
  | untilDelim {delim data : List Byte} (hnot : ¬ delim <:+: response) (hdata : data <+: unread)
      (h : delim <:+: response ++ data) : Completes response unread (.untilDelim delim) none data
  | untilEof {delim : List Byte} {ec : ErrorCode} (h : ¬ delim <:+: response ++ unread)
      (hec : ec.isEof = true) : Completes response unread (.untilDelim delim) (some ec) unread
  | exactly {n : ℕ} {data : List Byte} (hdata : data <+: unread) (h : data.length = n) :
      Completes response unread (.exactly n) none data
  | exactlyEof {n : ℕ} {ec : ErrorCode} (h : unread.length < n) (hec : ec.isEof = true) :
      Completes response unread (.exactly n) (some ec) unread
  | atLeast {n : ℕ} {data : List Byte} (hdata : data <+: unread) (h : n ≤ data.length) :
      Completes response unread (.atLeast n) none data
  | atLeastEof {n : ℕ} {ec : ErrorCode} (h : unread.length < n) (hec : ec.isEof = true) :
      Completes response unread (.atLeast n) (some ec) unread

theorem exists_completes (response unread : List Byte) (cond : ReadCondition) :
    ∃ ec data, Completes response unread cond ec data := by
  let eof : ErrorCode := ⟨true, "End of file"⟩
  cases cond with
  | untilDelim delim =>
      by_cases hbuffered : delim <:+: response
      · exact ⟨none, [], .buffered hbuffered⟩
      by_cases hcomes : delim <:+: response ++ unread
      · exact ⟨none, unread, .untilDelim hbuffered List.prefix_rfl hcomes⟩
      · exact ⟨some eof, unread, .untilEof hcomes rfl⟩
  | exactly n =>
      by_cases hn : unread.length < n
      · exact ⟨some eof, unread, .exactlyEof hn rfl⟩
      · exact ⟨none, unread.take n, .exactly (List.take_prefix n unread) (by simp; omega)⟩
  | atLeast n =>
      by_cases hn : unread.length < n
      · exact ⟨some eof, unread, .atLeastEof hn rfl⟩
      · exact ⟨none, unread, .atLeast List.prefix_rfl (by omega)⟩

theorem Completes.data_prefix {response unread data : List Byte} {cond : ReadCondition}
    {ec : Option ErrorCode} (h : Completes response unread cond ec data) : data <+: unread := by
  cases h with
  | buffered => exact List.nil_prefix
  | untilDelim _ hdata => exact hdata
  | untilEof => exact List.prefix_rfl
  | exactly hdata => exact hdata
  | exactlyEof => exact List.prefix_rfl
  | atLeast hdata => exact hdata
  | atLeastEof => exact List.prefix_rfl

/-- A client, and the bytes that its peer sends before it closes the connection. -/
structure Connection where
  client : HttpClient
  unread : List Byte

namespace Connection

/-- An outstanding read completes as the bytes of the peer allow it. -/
def Delivers (c : Connection) (op : SocketOp) (ec : Option ErrorCode) (data : List Byte) : Prop :=
  op ∈ c.client.pending ∧
    ∃ cond, op.condition = some cond ∧ Completes c.client.response c.unread cond ec data

/-- The connection after the handler of an operation that took the given bytes. -/
def after (c : Connection) (op : SocketOp) (ec : Option ErrorCode) (data : List Byte)
    (env : HttpEnv) : Connection :=
  ⟨c.client.complete op ec data env, c.unread.drop data.length⟩

/-- An operation fails for another reason than that the peer has closed the connection, for example
because the deadline has expired. -/
def Fails (c : Connection) (op : SocketOp) (ec : Option ErrorCode) (data : List Byte) : Prop :=
  op ∈ c.client.pending ∧ data <+: c.unread ∧ ∃ e : ErrorCode, ec = some e ∧ e.isEof = false

/-- An outstanding read completes in any way. -/
def Returns (c : Connection) (op : SocketOp) (ec : Option ErrorCode) (data : List Byte) : Prop :=
  c.Delivers op ec data ∨ c.Fails op ec data

/-- However the reads complete among the ways that `completes` admits, no handler throws and the
client comes to be stopped with the property `P`. -/
inductive Ends (completes : Connection → SocketOp → Option ErrorCode → List Byte → Prop)
    (P : HttpClient → Prop) : Connection → Prop where
  | done {c : Connection} (hstop : c.client.stopped = true) (h : P c.client) : Ends completes P c
  | step {c : Connection} (hex : ∃ op ec data, c.Delivers op ec data)
      (hsafe : ∀ op ec data, completes c op ec data → c.client.throws op ec = false)
      (hall : ∀ op ec data env, completes c op ec data →
        Ends completes P (c.after op ec data env)) : Ends completes P c

section Ends

variable {completes : Connection → SocketOp → Option ErrorCode → List Byte → Prop}
  {P Q : HttpClient → Prop} {c : Connection}

theorem Ends.mono (h : Ends completes P c) (hPQ : ∀ s, P s → Q s) : Ends completes Q c := by
  induction h with
  | done hstop h => exact .done hstop (hPQ _ h)
  | step hex hsafe _ ih => exact .step hex hsafe ih

theorem Ends.after_of_running {op : SocketOp} {ec : Option ErrorCode} {data : List Byte}
    (h : Ends completes P c) (hstop : c.client.stopped = false)
    (hcompletes : completes c op ec data)
    (env : HttpEnv) : Ends completes P (c.after op ec data env) := by
  cases h with
  | done htrue =>
      rw [hstop] at htrue
      cases htrue
  | step _ _ hall => exact hall op ec data env hcompletes

theorem Ends.throws_of_running {op : SocketOp} {ec : Option ErrorCode} {data : List Byte}
    (h : Ends completes P c) (hstop : c.client.stopped = false)
    (hcompletes : completes c op ec data) : c.client.throws op ec = false := by
  cases h with
  | done htrue =>
      rw [hstop] at htrue
      cases htrue
  | step _ hsafe _ => exact hsafe op ec data hcompletes

theorem Ends.of_pending_eq_nil (h : Ends completes P c) (hpending : c.client.pending = []) :
    P c.client := by
  cases h with
  | done _ h => exact h
  | step hex _ _ =>
      obtain ⟨op, ec, data, hop, -⟩ := hex
      rw [hpending] at hop
      cases hop

end Ends

end Connection

namespace HttpClient

/-! ### Before the body -/

variable {s s' : HttpClient}

/-- No content has been stored. -/
def Untouched (s : HttpClient) : Prop := s.content = [] ∧ s.contentLength = 0

/-- The reads of the body. -/
def readsBody : SocketOp → Bool
  | .readContent _ => true
  | .readChunkSize => true
  | .readChunkData _ _ => true
  | _ => false

/-- Content is stored only once the body is being read. -/
def Opening (s : HttpClient) : Prop :=
  s.stopped = false → Untouched s ∨ ∃ op ∈ s.pending, readsBody op = true

theorem opening_finishError (errMsg : String) (s : HttpClient) :
    Opening (finishError errMsg s) := by
  intro h
  cases h

theorem opening_finish (s : HttpClient) : Opening (finish s) := by
  intro h
  cases h

theorem opening_asyncOp_body {op : SocketOp} (h : readsBody op = true) (s : HttpClient) :
    Opening (asyncOp op s) := by
  intro _
  exact Or.inr ⟨op, by simp [asyncOp], h⟩

theorem opening_asyncOp (h : Untouched s) (op : SocketOp) : Opening (asyncOp op s) :=
  fun _ => Or.inl h

theorem opening_startConnect (h : Untouched s) (env : HttpEnv) (iter : List ServerInfo) :
    Opening (startConnect env iter s) := by
  cases iter with
  | nil => exact opening_finishError _ s
  | cons info next => exact fun _ => Or.inl h

theorem opening_handle (env : HttpEnv) {op : SocketOp} (ec : Option ErrorCode)
    (hstop : s.stopped = false) (h : Untouched s ∨ readsBody op = true) :
    Opening (handle env op ec s) := by
  have hstop' : ¬ s.stopped = true := by simp [hstop]
  cases op with
  | connect info next =>
      have hs : Untouched s := h.resolve_right (by simp [readsBody])
      simp only [handle, handleConnect, if_neg hstop']
      have hclosed : Untouched (closeSocket s) := hs
      split
      · exact opening_startConnect hs env next
      split
      · exact opening_startConnect hclosed env next
      · exact opening_asyncOp hs _
  | writeRequest =>
      have hs : Untouched s := h.resolve_right (by simp [readsBody])
      simp only [handle, handleWriteRequest, if_neg hstop']
      split
      · exact opening_finishError _ s
      · exact opening_asyncOp hs _
  | readStatusLine =>
      have hs : Untouched s := h.resolve_right (by simp [readsBody])
      simp only [handle, handleReadStatusLine, if_neg hstop']
      split
      · exact opening_finishError _ s
      split
      · exact opening_finishError _ _
      split
      · exact opening_finishError _ _
      · exact opening_asyncOp hs _
  | readHeaders =>
      simp only [handle, handleReadHeaders, if_neg hstop']
      split
      · exact opening_finishError _ s
      split
      · exact opening_asyncOp_body rfl _
      split
      · exact opening_asyncOp_body rfl _
      · exact opening_finishError _ _
  | readContent n =>
      simp only [handle, handleReadContent, if_neg hstop']
      split
      · split
        · exact opening_finish s
        · exact opening_finishError _ s
      · exact opening_asyncOp_body rfl _
  | readChunkSize =>
      simp only [handle, handleReadChunkSize, if_neg hstop']
      split
      · exact opening_finishError _ s
      split
      · exact opening_asyncOp_body rfl _
      · exact opening_finish _
  | readChunkData n r =>
      simp only [handle, handleReadChunkData, if_neg hstop']
      split
      · exact opening_finishError _ s
      split
      · exact opening_finishError _ _
      · exact opening_asyncOp_body rfl _

theorem opening_of_stopped (h : s.stopped = true) : Opening s := by
  intro hfalse
  rw [h] at hfalse
  cases hfalse

theorem Opening.complete {op : SocketOp} (h : Opening s) (hstop : s.stopped = false)
    (hpending : s.pending = [op]) (ec : Option ErrorCode) (data : List Byte) (env : HttpEnv) :
    Opening (complete op ec data env s) := by
  have hstop' : (deliver op data s).stopped = false := hstop
  apply opening_handle env ec hstop'
  apply (h hstop).imp id
  rintro ⟨op', hop', hbody⟩
  have heq : op' = op := by simpa [hpending] using hop'
  rwa [← heq]

theorem Opening.react {e : HttpEvent} {called : Prop} (h : Opening s) (hcourse : Course called s)
    (hr : react s e = some s') : Opening s' := by
  cases reaction_of_react hr with
  | @answered op ec data env hstop hop =>
      obtain ⟨op', hpending⟩ := List.length_eq_one_iff.1 (hcourse.disciplined.outstanding hstop)
      have heq : op = op' := by simpa [hpending] using hop
      exact h.complete hstop (heq ▸ hpending) ec data env
  | ignored hstop => exact opening_of_stopped hstop
  | checked => exact h
  | stopped => exact opening_of_stopped rfl

theorem Opening.run {es : List HttpEvent} {called : Prop} (h : Opening s)
    (hcourse : Course called s)
    (hr : run s es = some s') : Opening s' := by
  induction es generalizing s called with
  | nil =>
      cases hr
      exact h
  | cons e es ih =>
      simp only [HttpClient.run] at hr
      obtain ⟨t, ht, hrest⟩ := Option.bind_eq_some_iff.1 hr
      exact ih (h.react hcourse ht) (hcourse.react ht) hrest

/-- A client that waits for the header block. -/
structure AwaitsHeaders (s : HttpClient) : Prop where
  stopped : s.stopped = false
  pending : s.pending = [.readHeaders]
  untouched : Untouched s
  results : s.results = []

/-- Whatever happened before, a client that waits for the header block has stored no content and
signalled no result. -/
theorem awaitsHeaders_of_run {endpoints : List ServerInfo} {messageId : String} {env : HttpEnv}
    {events : List HttpEvent} (h : run (start env (new endpoints messageId)) events = some s)
    (hstop : s.stopped = false) (hpending : s.pending = [.readHeaders]) : AwaitsHeaders s := by
  have hcourse : Course False (start env (new endpoints messageId)) :=
    course_start env endpoints messageId
  have hnew : Untouched (new endpoints messageId) := ⟨rfl, rfl⟩
  have hopening : Opening (start env (new endpoints messageId)) :=
    opening_startConnect hnew env endpoints
  constructor
  · exact hstop
  · exact hpending
  · apply (hopening.run hcourse h hstop).resolve_right
    simp [hpending, readsBody]
  · cases hcourse.run h with
    | running op _ _ hlog => exact hlog.signalledBy_eq_nil
    | finished pre post r htrue => simp [hstop] at htrue
    | halted hcalled pre post htrue => simp [hstop] at htrue

/-- A client whose request has been answered with a good status line. -/
def readyClient : HttpClient :=
  start ⟨0, true, 0⟩ (new [⟨⟨"10.0.0.1", 80⟩, 5, 30⟩] "message")

def readyEvents : List HttpEvent :=
  [.completed (.connect ⟨⟨"10.0.0.1", 80⟩, 5, 30⟩ []) none [] ⟨1, true, 0⟩,
    .completed .writeRequest none [] ⟨1, true, 0⟩,
    .completed .readStatusLine none (ascii "HTTP/1.1 200 OK\r\n") ⟨2, true, 0⟩]

theorem run_readyEvents : ∃ s, run readyClient readyEvents = some s ∧ s.stopped = false ∧
    s.pending = [.readHeaders] ∧ s.response = [] := by
  exact ⟨_, rfl, by decide, by decide, by decide⟩

/-! ### Reading the body -/

/-- The client runs, with the given operations outstanding, and has stored the given bytes. -/
structure Reading (ops : List SocketOp) (body : List Byte) (s : HttpClient) : Prop where
  stopped : s.stopped = false
  pending : s.pending = ops
  content : s.content.flatten = body
  contentLength : s.contentLength = body.length % sizeMod
  results : s.results = []

/-- The client has ended with one result, which has the given message and bytes. -/
structure Concluded (errMsg : String) (body : List Byte) (s : HttpClient) : Prop where
  stopped : s.stopped = true
  pending : s.pending = []
  result : ∃ r, s.results = [r] ∧ r.errMsg = errMsg ∧ r.content.flatten = body ∧
    r.contentLength = body.length % sizeMod

variable {ops : List SocketOp} {body : List Byte} {op : SocketOp}

theorem Concluded.of_results {errMsg : String} (h : Concluded errMsg body s) {r : HttpResult}
    (hr : s.results = [r]) : r.errMsg = errMsg ∧ r.content.flatten = body ∧
      r.contentLength = body.length % sizeMod := by
  obtain ⟨r', hr', hresult⟩ := h.result
  rw [hr] at hr'
  cases hr'
  exact hresult

/-- A message that starts with the name of its handler is not empty. -/
theorem append_ne_empty {front : String} (hfront : front ≠ "") (msg : String) :
    front ++ msg ≠ "" := by
  intro h
  exact hfront (String.append_eq_empty_iff.1 h).1

theorem AwaitsHeaders.reading (h : AwaitsHeaders s) : Reading [.readHeaders] [] s := by
  constructor
  · exact h.stopped
  · exact h.pending
  · rw [h.untouched.1]
    rfl
  · exact h.untouched.2
  · exact h.results

theorem Reading.deliver (h : Reading [op] body s) (data : List Byte) :
    Reading [] body (deliver op data s) := by
  constructor
  · exact h.stopped
  · simp [HttpClient.deliver, h.pending]
  · exact h.content
  · exact h.contentLength
  · exact h.results

theorem Reading.setResponse (h : Reading ops body s) (response : List Byte) :
    Reading ops body { s with response := response } := by
  constructor
  · exact h.stopped
  · exact h.pending
  · exact h.content
  · exact h.contentLength
  · exact h.results

theorem Reading.pushContent (h : Reading ops body s) (buffer : List Byte) :
    Reading ops (body ++ buffer) (pushContent buffer s) := by
  constructor
  · exact h.stopped
  · exact h.pending
  · simp [HttpClient.pushContent, h.content]
  · simp [HttpClient.pushContent, h.contentLength]
  · exact h.results

theorem results_asyncOp (op : SocketOp) (s : HttpClient) : (asyncOp op s).results = s.results := by
  simp [HttpClient.results, asyncOp, signalledBy]

theorem Reading.asyncOp (h : Reading [] body s) (op : SocketOp) :
    Reading [op] body (asyncOp op s) := by
  constructor
  · exact h.stopped
  · simp [HttpClient.asyncOp, h.pending]
  · exact h.content
  · exact h.contentLength
  · rw [results_asyncOp, h.results]

theorem Reading.finishError (h : Reading [] body s) (errMsg : String) :
    Concluded errMsg body (finishError errMsg s) := by
  constructor
  · rfl
  · exact h.pending
  · refine ⟨s.result errMsg, ?_, rfl, h.content, h.contentLength⟩
    rw [HttpClient.results, log_finishError, List.filterMap_append]
    change s.results ++ [s.result errMsg] = _
    rw [h.results, List.nil_append]

theorem Reading.finish (h : Reading [] body s) : Concluded "" body (finish s) := by
  constructor
  · rfl
  · exact h.pending
  · refine ⟨s.result "", ?_, rfl, h.content, h.contentLength⟩
    rw [HttpClient.results, log_finish, List.filterMap_append]
    change s.results ++ [s.result ""] = _
    rw [h.results, List.nil_append]

theorem throws_some (op : SocketOp) (ec : ErrorCode) (s : HttpClient) :
    s.throws op (some ec) = false := by
  cases op <;> rfl

end HttpClient

namespace Connection

open HttpClient

variable {c : Connection} {op : SocketOp} {ec : Option ErrorCode} {body data : List Byte}

theorem exists_delivers {cond : ReadCondition} (hreading : Reading [op] body c.client)
    (hcond : op.condition = some cond) : ∃ op ec data, c.Delivers op ec data := by
  have hop : op ∈ c.client.pending := by simp [hreading.pending]
  obtain ⟨ec, data, h⟩ := exists_completes c.client.response c.unread cond
  exact ⟨op, ec, data, hop, cond, hcond, h⟩

theorem Returns.data_prefix (h : c.Returns op ec data) : data <+: c.unread := by
  cases h with
  | inl h =>
      obtain ⟨-, cond, -, hcompletes⟩ := h
      exact hcompletes.data_prefix
  | inr h => exact h.2.1

/-- A read moves bytes from those to come to those buffered. -/
theorem Returns.append_drop (h : c.Returns op ec data) :
    (c.client.response ++ data) ++ c.unread.drop data.length = c.client.response ++ c.unread := by
  obtain ⟨unread', heq⟩ := h.data_prefix
  rw [← heq, List.drop_left, List.append_assoc]

theorem Returns.eq_of_reading (h : c.Returns op ec data) {op' : SocketOp}
    (hreading : Reading [op'] body c.client) : op = op' := by
  have hop : op ∈ c.client.pending := h.elim And.left And.left
  rwa [hreading.pending, List.mem_singleton] at hop

/-- No handler throws but that of a chunk for which there is no array. -/
theorem Returns.throws_eq_false (h : c.Returns op ec data) {op' : SocketOp}
    (hreading : Reading [op'] body c.client)
    (hsize : ∀ n r, op' = .readChunkData n r → n ≤ ptrdiffMax) :
    c.client.throws op ec = false := by
  have hop := h.eq_of_reading hreading
  subst hop
  cases ec with
  | some ec => exact throws_some op ec c.client
  | none =>
      cases op with
      | readChunkData n r => simp [throws, Nat.not_lt.2 (hsize n r rfl)]
      | _ => rfl

/-- A read that returns without error has met its condition. -/
theorem Returns.completes {cond : ReadCondition} (h : c.Returns op none data)
    (hcond : op.condition = some cond) :
    Completes c.client.response c.unread cond none data := by
  cases h with
  | inl h =>
      obtain ⟨-, cond', hcond', hcompletes⟩ := h
      rw [hcond] at hcond'
      cases hcond'
      exact hcompletes
  | inr h =>
      obtain ⟨-, -, e, hnone, -⟩ := h
      cases hnone

/-- A read up to a delimiter that returns without error has buffered the delimiter. -/
theorem Returns.infix_of_untilDelim {delim : List Byte} (h : c.Returns op none data)
    (hcond : op.condition = some (.untilDelim delim)) : delim <:+: c.client.response ++ data := by
  cases h.completes hcond with
  | buffered h => rwa [List.append_nil]
  | untilDelim _ _ h => exact h

theorem Returns.length_of_exactly {n : ℕ} (h : c.Returns op none data)
    (hcond : op.condition = some (.exactly n)) : data.length = n := by
  cases h.completes hcond with
  | exactly _ h => exact h

end Connection

end Miscellany
