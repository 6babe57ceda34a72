import Miscellany.Http.Client

/-!
# What a handler does

A handler returns at once when the client is stopped. Otherwise it either starts one operation or
stops the client and signals one result. Which operation it starts depends on the one that has
completed: the servers are tried in the order of the list, the request is written to the first one
that answers, and then the status line, the headers and the body are read from it (`Follows`).
Likewise each operation has the messages with which its handler can end (`Reports`). What an
event does to a client is said once (`reaction_of_react`).
-/

namespace Miscellany

namespace HttpClient

/-- The handler of the first operation can start the second one. -/
inductive Follows : SocketOp → SocketOp → Prop
  | nextServer (info info' : ServerInfo) (next : List ServerInfo) :
      Follows (.connect info (info' :: next)) (.connect info' next)
  | connected (info : ServerInfo) (next : List ServerInfo) :
      Follows (.connect info next) .writeRequest
  | written : Follows .writeRequest .readStatusLine
  | accepted : Follows .readStatusLine .readHeaders
  | chunked : Follows .readHeaders .readChunkSize
  | content {n : ℕ} (hn : 0 < n) : Follows .readHeaders (.readContent n)
  | moreContent (n : ℕ) : Follows (.readContent n) (.readContent n)
  | chunk {n : ℕ} (hn : 0 < n) (remaining : ℕ) :
      Follows .readChunkSize (.readChunkData n remaining)
  | nextChunk (n remaining : ℕ) : Follows (.readChunkData n remaining) .readChunkSize

/-- The message when no server is left. -/
def failToConnect : String := "fail to connect to server"

/-- The handler of the operation can signal a result with the message. -/
inductive Reports : SocketOp → String → Prop
  | noServer (info : ServerInfo) : Reports (.connect info []) failToConnect
  | writeRequest (msg : String) : Reports .writeRequest ("handle_write_request: " ++ msg)
  | readStatusLine (msg : String) : Reports .readStatusLine ("handle_read_status_line: " ++ msg)
  | invalid : Reports .readStatusLine "Invalide response"
  | status {code : ℕ} (hcode : code ≠ 200) :
      Reports .readStatusLine ("Response with status code " ++ toString code)
  | readHeaders (msg : String) : Reports .readHeaders ("handle_read_headers:" ++ msg)
  | emptyContent : Reports .readHeaders "handle_read_headers: empty content"
  | contentRead (n : ℕ) : Reports (.readContent n) ""
  | readContent (n : ℕ) (msg : String) : Reports (.readContent n) ("handle_read_content: " ++ msg)
  | chunksRead : Reports .readChunkSize ""
  | readChunkSize (msg : String) : Reports .readChunkSize ("handle_read_chunk_size: " ++ msg)
  | readChunkData (n remaining : ℕ) (msg : String) :
      Reports (.readChunkData n remaining) ("handle_read_chunk_data: " ++ msg)
  | shortChunk (n remaining : ℕ) : Reports (.readChunkData n remaining) "fail to read chunk data"

/-- `remote_endpoint_` after an operation has been started by the handler of another one. -/
def peerAfter (op op' : SocketOp) (remoteEndpoint : Option Endpoint) : Option Endpoint :=
  match op, op' with
  | .connect info _, .writeRequest => some info.endpoint
  | _, _ => remoteEndpoint

/-- What the handler of an operation does to a client that is not stopped. -/
inductive Answers (op : SocketOp) (s s' : HttpClient) : Prop
  | starts (op' : SocketOp) (hfollows : Follows op op') (hstop : s'.stopped = s.stopped)
      (hpending : s'.pending = s.pending ++ [op']) (hlog : s'.log = s.log ++ [.started op'])
      (hpeer : s'.remoteEndpoint = peerAfter op op' s.remoteEndpoint)
  | signals (r : HttpResult) (hreports : Reports op r.errMsg) (hstop : s'.stopped = true)
      (hpending : s'.pending = s.pending) (hlog : s'.log = s.log ++ [.stopped, .signalled r])
      (hpeer : s'.remoteEndpoint = s.remoteEndpoint) (hresult : r.remoteEndpoint = s.remoteEndpoint)

variable {s s' t : HttpClient} {op op' : SocketOp}

/-- The fields of a client that the ways to end a handler are about. -/
structure SameCourse (s t : HttpClient) : Prop where
  stopped : t.stopped = s.stopped
  pending : t.pending = s.pending
  log : t.log = s.log
  remoteEndpoint : t.remoteEndpoint = s.remoteEndpoint

theorem Answers.of_sameCourse (hs : SameCourse s t) (h : Answers op t s') : Answers op s s' := by
  cases h with
  | starts op' hfollows hstop hpending hlog hpeer =>
      rw [hs.stopped] at hstop
      rw [hs.pending] at hpending
      rw [hs.log] at hlog
      rw [hs.remoteEndpoint] at hpeer
      exact .starts op' hfollows hstop hpending hlog hpeer
  | signals r hreports hstop hpending hlog hpeer hresult =>
      rw [hs.pending] at hpending
      rw [hs.log] at hlog
      rw [hs.remoteEndpoint] at hpeer hresult
      exact .signals r hreports hstop hpending hlog hpeer hresult

theorem log_finishError (errMsg : String) (s : HttpClient) :
    (finishError errMsg s).log = s.log ++ [.stopped, .signalled (s.result errMsg)] := by
  change (s.log ++ [.stopped]) ++ [.signalled (s.result errMsg)] = _
  rw [List.append_assoc]
  rfl

theorem log_finish (s : HttpClient) :
    (finish s).log = s.log ++ [.stopped, .signalled (s.result "")] := by
  change (s.log ++ [.stopped]) ++ [.signalled (s.result "")] = _
  rw [List.append_assoc]
  rfl

theorem answers_asyncOp (h : Follows op op')
    (hpeer : peerAfter op op' s.remoteEndpoint = s.remoteEndpoint) :
    Answers op s (asyncOp op' s) :=
  .starts op' h rfl rfl rfl hpeer.symm

theorem answers_finishError {errMsg : String} (h : Reports op errMsg) (s : HttpClient) :
    Answers op s (finishError errMsg s) :=
  .signals (s.result errMsg) h rfl rfl (log_finishError errMsg s) rfl rfl

theorem answers_finish (h : Reports op "") (s : HttpClient) : Answers op s (finish s) :=
  .signals (s.result "") h rfl rfl (log_finish s) rfl rfl

/-- The next server is tried, or none is left. -/
theorem answers_startConnect (env : HttpEnv) (info : ServerInfo) (next : List ServerInfo)
    (s : HttpClient) : Answers (.connect info next) s (startConnect env next s) := by
  cases next with
  | nil => exact answers_finishError (.noServer info) s
  | cons info' next =>
      apply Answers.of_sameCourse _ (answers_asyncOp (.nextServer info info' next) rfl)
      exact ⟨rfl, rfl, rfl, rfl⟩

theorem answers_handleConnect (env : HttpEnv) (info : ServerInfo) (next : List ServerInfo)
    (ec : Option ErrorCode) (h : s.stopped = false) :
    Answers (.connect info next) s (handleConnect env info next ec s) := by
  unfold handleConnect
  rw [if_neg (by simp [h])]
  split
  · exact answers_startConnect env info next s
  split
  · apply Answers.of_sameCourse _ (answers_startConnect env info next _)
    exact ⟨rfl, rfl, rfl, rfl⟩
  · exact .starts .writeRequest (.connected info next) rfl rfl rfl rfl

theorem answers_handleWriteRequest (ec : Option ErrorCode) (h : s.stopped = false) :
    Answers .writeRequest s (handleWriteRequest ec s) := by
  unfold handleWriteRequest
  rw [if_neg (by simp [h])]
  cases ec with
  | some ec => exact answers_finishError (.writeRequest ec.message) s
  | none => exact answers_asyncOp .written rfl

theorem answers_handleReadStatusLine (env : HttpEnv) (ec : Option ErrorCode)
    (h : s.stopped = false) : Answers .readStatusLine s (handleReadStatusLine env ec s) := by
  unfold handleReadStatusLine
  rw [if_neg (by simp [h])]
  cases ec with
  | some ec => exact answers_finishError (.readStatusLine ec.message) s
  | none =>
      let t : HttpClient := { s with response := (httpResponseStatus env.junk s.response).2.2 }
      have ht : SameCourse s t := ⟨rfl, rfl, rfl, rfl⟩
      dsimp only
      split
      · exact (answers_finishError .invalid t).of_sameCourse ht
      split
      · rename_i hcode
        exact (answers_finishError (.status (bne_iff_ne.1 hcode)) t).of_sameCourse ht
      · exact (answers_asyncOp .accepted rfl).of_sameCourse ht

theorem answers_handleReadHeaders (ec : Option ErrorCode) (h : s.stopped = false) :
    Answers .readHeaders s (handleReadHeaders ec s) := by
  unfold handleReadHeaders
  rw [if_neg (by simp [h])]
  cases ec with
  | some ec => exact answers_finishError (.readHeaders ec.message) s
  | none =>
      let t : HttpClient := { s with response := (httpHeaders s.response).2.2 }
      have ht : SameCourse s t := ⟨rfl, rfl, rfl, rfl⟩
      dsimp only
      split
      · exact (answers_asyncOp .chunked rfl).of_sameCourse ht
      split
      · rename_i hlength
        apply Answers.of_sameCourse _ (answers_asyncOp (.content hlength) rfl)
        split
        · exact ⟨rfl, rfl, rfl, rfl⟩
        · exact ht
      · exact (answers_finishError .emptyContent t).of_sameCourse ht

theorem answers_handleReadContent (n : ℕ) (ec : Option ErrorCode) (h : s.stopped = false) :
    Answers (.readContent n) s (handleReadContent n ec s) := by
  unfold handleReadContent
  rw [if_neg (by simp [h])]
  cases ec with
  | some ec =>
      dsimp only
      split
      · exact answers_finish (.contentRead n) s
      · exact answers_finishError (.readContent n ec.message) s
  | none =>
      apply Answers.of_sameCourse _ (answers_asyncOp (.moreContent n) rfl)
      exact ⟨rfl, rfl, rfl, rfl⟩

theorem answers_handleReadChunkSize (ec : Option ErrorCode) (h : s.stopped = false) :
    Answers .readChunkSize s (handleReadChunkSize ec s) := by
  unfold handleReadChunkSize
  rw [if_neg (by simp [h])]
  cases ec with
  | some ec => exact answers_finishError (.readChunkSize ec.message) s
  | none =>
      let t : HttpClient := { s with response := (httpChunkSize s.response).2 }
      have ht : SameCourse s t := ⟨rfl, rfl, rfl, rfl⟩
      dsimp only
      split
      · rename_i hsize
        exact (answers_asyncOp (.chunk hsize _) rfl).of_sameCourse ht
      · exact (answers_finish .chunksRead t).of_sameCourse ht

theorem answers_handleReadChunkData (n remaining : ℕ) (ec : Option ErrorCode)
    (h : s.stopped = false) :
    Answers (.readChunkData n remaining) s (handleReadChunkData n ec s) := by
  unfold handleReadChunkData
  rw [if_neg (by simp [h])]
  cases ec with
  | some ec => exact answers_finishError (.readChunkData n remaining ec.message) s
  | none =>
      let t : HttpClient := { s with response := (httpChunkData n s.response).2 }
      have ht : SameCourse s t := ⟨rfl, rfl, rfl, rfl⟩
      dsimp only
      split
      · exact (answers_finishError (.shortChunk n remaining) t).of_sameCourse ht
      · apply Answers.of_sameCourse _ (answers_asyncOp (.nextChunk n remaining) rfl)
        exact ⟨rfl, rfl, rfl, rfl⟩

theorem answers_handle (env : HttpEnv) (op : SocketOp) (ec : Option ErrorCode)
    (h : s.stopped = false) : Answers op s (handle env op ec s) := by
  cases op with
  | connect info next => exact answers_handleConnect env info next ec h
  | writeRequest => exact answers_handleWriteRequest ec h
  | readStatusLine => exact answers_handleReadStatusLine env ec h
  | readHeaders => exact answers_handleReadHeaders ec h
  | readContent n => exact answers_handleReadContent n ec h
  | readChunkSize => exact answers_handleReadChunkSize ec h
  | readChunkData n remaining => exact answers_handleReadChunkData n remaining ec h

/-! ### What an event does -/

/-- The handlers of a client that is stopped return at once. -/
theorem handle_of_stopped (env : HttpEnv) (op : SocketOp) (ec : Option ErrorCode)
    (h : s.stopped = true) : handle env op ec s = s := by
  cases op <;>
    simp [handle, handleConnect, handleWriteRequest, handleReadStatusLine, handleReadHeaders,
      handleReadContent, handleReadChunkSize, handleReadChunkData, h]

/-- The deadline concerns the timer and the socket. -/
theorem checkDeadline_eq (env : HttpEnv) (s : HttpClient) :
    ∃ isOpen expiresAt waits, checkDeadline env s =
      { s with isOpen := isOpen, expiresAt := expiresAt, waits := waits } := by
  unfold checkDeadline
  split
  · exact ⟨_, _, _, rfl⟩
  split
  · exact ⟨_, _, _, rfl⟩
  split
  · exact ⟨_, _, _, rfl⟩
  · exact ⟨_, _, _, rfl⟩

/-- What the handler of an event does to a client. -/
inductive Reaction (s : HttpClient) : HttpEvent → HttpClient → Prop
  | answered {op : SocketOp} {ec : Option ErrorCode} {data : List Byte} {env : HttpEnv}
      (hstop : s.stopped = false) (hop : op ∈ s.pending)
      (h : Answers op (deliver op data s) (complete op ec data env s)) :
      Reaction s (.completed op ec data env) (complete op ec data env s)
  | ignored {op : SocketOp} {ec : Option ErrorCode} {data : List Byte} {env : HttpEnv}
      (hstop : s.stopped = true) : Reaction s (.completed op ec data env) (deliver op data s)
  | checked {env : HttpEnv} (isOpen : Bool) (expiresAt : Option ℤ) (waits : ℕ) :
      Reaction s (.expired env)
        { s with isOpen := isOpen, expiresAt := expiresAt, waits := waits }
  | stopped : Reaction s .stopCalled (stop s)

theorem reaction_of_react {e : HttpEvent} (h : react s e = some s') : Reaction s e s' := by
  cases e with
  | completed op ec data env =>
      simp only [react] at h
      split at h
      · rename_i hop
        cases h
        cases hstop : s.stopped with
        | true =>
            have htrue : (deliver op data s).stopped = true := hstop
            rw [complete, handle_of_stopped env op ec htrue]
            exact .ignored hstop
        | false => exact .answered hstop hop.1 (answers_handle env op ec hstop)
      · cases h
  | expired env =>
      simp only [react] at h
      split at h
      · cases h
        obtain ⟨isOpen, expiresAt, waits, heq⟩ :=
          checkDeadline_eq env { s with waits := s.waits - 1 }
        rw [heq]
        exact .checked isOpen expiresAt waits
      · cases h
  | stopCalled =>
      cases h
      exact .stopped

end HttpClient

end Miscellany
