import Mathlib.Data.Int.Notation
import Miscellany.Library.Block
import Miscellany.Library.InputStream
import Miscellany.Str.Basic

/-!
# The HTTP client

The class `HttpClient`, in the order of the source. An asynchronous operation is started by
appending it to the operations outstanding, and its handler runs when the operation
completes. What the handlers do to the outside is written down in the order in which it
happens: an operation of the socket is started, the client is stopped, a result is
signalled. The bytes of the request are not followed.
-/

namespace Miscellany

/-- The type `tcp::endpoint`. -/
structure Endpoint where
  address : String
  port : ℕ
deriving DecidableEq

structure ServerInfo where
  endpoint : Endpoint
  connTimeout : ℤ
  transferTimeout : ℤ
deriving DecidableEq

/-- The type `error_code`, of an error; `isEof` tells whether it equals `asio::error::eof`. -/
structure ErrorCode where
  isEof : Bool
  message : String
deriving DecidableEq

/-- The operations of the socket, each with the arguments bound to its handler. An iterator is the
endpoint it refers to and those behind it. -/
inductive SocketOp where
  | connect (info : ServerInfo) (next : List ServerInfo)
  | writeRequest
  | readStatusLine
  | readHeaders
  | readContent (contentLength : ℕ)
  | readChunkSize
  | readChunkData (chunkSize remaining : ℕ)
deriving DecidableEq

/-- The arguments of the signal `result_sig`. -/
structure HttpResult where
  messageId : String
  remoteEndpoint : Option Endpoint
  content : List (List Byte)
  contentLength : ℕ
  errMsg : String
deriving DecidableEq

inductive HttpAction where
  | started (op : SocketOp)
  | stopped
  | signalled (r : HttpResult)
deriving DecidableEq

/-- What a handler is told by its surroundings: the time, whether a socket can be opened, and what
an uninitialised `unsigned int` holds. -/
structure HttpEnv where
  now : ℤ
  opens : Bool
  junk : ℕ

/-- The class `HttpClient`; `expiresAt` is `none` for `pos_infin`, and `waits` is the number of
waits for the deadline whose handler has not run. -/
structure HttpClient where
  isOpen : Bool
  response : List Byte
  expiresAt : Option ℤ
  waits : ℕ
  stopped : Bool
  endpoints : List ServerInfo
  messageId : String
  remoteEndpoint : Option Endpoint
  content : List (List Byte)
  contentLength : ℕ
  errMsg : String
  pending : List SocketOp
  log : List HttpAction
deriving DecidableEq

namespace HttpClient

open InputStream

/-- The bytes of a text of the source. -/
def ascii (text : String) : List Byte := text.toList.map fun c => UInt8.ofNat c.toNat

/-- The constructor. -/
def new (endpoints : List ServerInfo) (messageId : String) : HttpClient where
  isOpen := false
  response := []
  expiresAt := none
  waits := 0
  stopped := false
  endpoints := endpoints
  messageId := messageId
  remoteEndpoint := none
  content := []
  contentLength := 0
  errMsg := ""
  pending := []
  log := []

/-! ### Operations of the library -/

def asyncOp (op : SocketOp) (s : HttpClient) : HttpClient :=
  { s with pending := s.pending ++ [op], log := s.log ++ [.started op] }

/-- `async_connect`, which opens the socket when it is closed. -/
def asyncConnect (env : HttpEnv) (info : ServerInfo) (next : List ServerInfo) (s : HttpClient) :
    HttpClient :=
  asyncOp (.connect info next) { s with isOpen := s.isOpen || env.opens }

def asyncWait (s : HttpClient) : HttpClient := { s with waits := s.waits + 1 }

def closeSocket (s : HttpClient) : HttpClient := { s with isOpen := false }

def expiresFromNow (env : HttpEnv) (seconds : ℤ) (s : HttpClient) : HttpClient :=
  { s with expiresAt := some (env.now + seconds) }

/-! ### Starting and stopping -/

/-- The arguments with which `result_sig` is called. -/
def result (errMsg : String) (s : HttpClient) : HttpResult where
  messageId := s.messageId
  remoteEndpoint := s.remoteEndpoint
  content := s.content
  contentLength := s.contentLength
  errMsg := errMsg

/-- `signal_result()`. -/
def signalResult (s : HttpClient) : HttpClient :=
  { s with log := s.log ++ [.signalled (s.result "")] }

/-- `signal_result(err_msg)`. -/
def signalError (errMsg : String) (s : HttpClient) : HttpClient :=
  { s with errMsg := errMsg, log := s.log ++ [.signalled (s.result errMsg)] }

/-- `stop`; cancelling the wait for the deadline does not take its handler away. -/
def stop (s : HttpClient) : HttpClient :=
  closeSocket { s with stopped := true, log := s.log ++ [.stopped] }

def startConnect (env : HttpEnv) (iter : List ServerInfo) (s : HttpClient) : HttpClient :=
  match iter with
  | info :: next => asyncConnect env info next (expiresFromNow env info.connTimeout s)
  | [] => signalError "fail to connect to server" (stop s)

def start (env : HttpEnv) (s : HttpClient) : HttpClient :=
  asyncWait (startConnect env s.endpoints { s with stopped := false })

/-! ### Reading the response -/

/-- `http_response_status`: the version, the status code and the bytes left. -/
def httpResponseStatus (junk : ℕ) (response : List Byte) : List Byte × ℕ × List Byte :=
  let version := (ofBytes response).extractWord []
  let code := version.2.extractUnsigned 10 (2 ^ 32) junk
  let message := code.2.getline []
  (version.1, code.1, message.2.rest)

/-- Whether `pat` occurs in the line, as `find` tells. -/
def occurs (pat : List Byte) : List Byte → Bool
  | [] => pat.isEmpty
  | c :: cs => pat.isPrefixOf (c :: cs) || occurs pat cs

/-- One line of the header block: the transfer encoding and the length after it. -/
def headerLine (line transferEncoding : List Byte) (length : ℕ) : List Byte × ℕ :=
  if occurs (ascii "Transfer-Encoding") line then
    let dump := (ofBytes line).extractWord []
    ((dump.2.extractWord transferEncoding).1, length)
  else if occurs (ascii "Content-Length") line then
    let dump := (ofBytes line).extractWord []
    (transferEncoding, (dump.2.extractUnsigned 10 sizeMod length).1)
  else (transferEncoding, length)

/-- The loop of `http_headers`; each turn takes a byte or leaves the loop. -/
def httpHeadersLoop : ℕ → InputStream → List Byte → List Byte → ℕ → List Byte × ℕ × List Byte
  | 0, s, _, transferEncoding, length => (transferEncoding, length, s.rest)
  | fuel + 1, s, line, transferEncoding, length =>
      let r := s.getline line
      if r.2.fail || r.1 == ascii "\r" then (transferEncoding, length, r.2.rest)
      else
        let h := headerLine r.1 transferEncoding length
        httpHeadersLoop fuel r.2 r.1 h.1 h.2

/-- `http_headers`: the transfer encoding, the content length and the bytes left. -/
def httpHeaders (response : List Byte) : List Byte × ℕ × List Byte :=
  httpHeadersLoop (response.length + 1) (ofBytes response) [] [] 0

/-- `http_chunk_size`: the size and the bytes left. -/
def httpChunkSize (response : List Byte) : ℕ × List Byte :=
  let r := (ofBytes response).getline []
  (((ofBytes r.1).extractUnsigned 16 sizeMod 0).1, r.2.rest)

/-- `http_chunk_data`, for a buffer of the given size: what is stored and the bytes left. -/
def httpChunkData (size : ℕ) (response : List Byte) : List Byte × List Byte :=
  let r := (ofBytes response).read size
  (r.1, (r.2.getline []).2.rest)

/-- `http_content`. -/
def httpContent (size : ℕ) (response : List Byte) : List Byte × List Byte :=
  let r := (ofBytes response).read size
  (r.1, r.2.rest)

/-- Appending a buffer to `content_` and its length to `content_length_`. -/
def pushContent (buffer : List Byte) (s : HttpClient) : HttpClient :=
  { s with
    content := s.content ++ [buffer]
    contentLength := (s.contentLength + buffer.length) % sizeMod }

/-- The number of bytes to wait for: `chunk_size + 2 - response_.size()` in `size_t`, as an `int`
and not below zero. -/
def remaining (chunkSize size : ℕ) : ℕ :=
  let diff := (chunkSize + 2 + (sizeMod - size % sizeMod)) % sizeMod % 2 ^ 32
  if diff < 2 ^ 31 then diff else 0

/-! ### Handlers -/

/-- `stop` and `signal_result(err_msg)`, as each error of a handler ends. -/
def finishError (errMsg : String) (s : HttpClient) : HttpClient := signalError errMsg (stop s)

/-- `stop` and `signal_result()`. -/
def finish (s : HttpClient) : HttpClient := signalResult (stop s)

def handleConnect (env : HttpEnv) (info : ServerInfo) (next : List ServerInfo)
    (ec : Option ErrorCode) (s : HttpClient) : HttpClient :=
  if s.stopped then s
  else if !s.isOpen then startConnect env next s
  else if ec.isSome then startConnect env next (closeSocket s)
  else
    asyncOp .writeRequest
      (expiresFromNow env info.transferTimeout { s with remoteEndpoint := some info.endpoint })

def handleWriteRequest (ec : Option ErrorCode) (s : HttpClient) : HttpClient :=
  if s.stopped then s
  else match ec with
    | some ec => finishError ("handle_write_request: " ++ ec.message) s
    | none => asyncOp .readStatusLine s

def handleReadStatusLine (env : HttpEnv) (ec : Option ErrorCode) (s : HttpClient) : HttpClient :=
  if s.stopped then s
  else match ec with
    | some ec => finishError ("handle_read_status_line: " ++ ec.message) s
    | none =>
        let r := httpResponseStatus env.junk s.response
        let s := { s with response := r.2.2 }
        if r.1.take 5 != ascii "HTTP/" then finishError "Invalide response" s
        else if r.2.1 != 200 then
          finishError ("Response with status code " ++ toString r.2.1) s
        else asyncOp .readHeaders s

def handleReadHeaders (ec : Option ErrorCode) (s : HttpClient) : HttpClient :=
  if s.stopped then s
  else match ec with
    | some ec => finishError ("handle_read_headers:" ++ ec.message) s
    | none =>
        let r := httpHeaders s.response
        let s := { s with response := r.2.2 }
        if r.1 == ascii "chunked" then asyncOp .readChunkSize s
        else if 0 < r.2.1 then
          let s :=
            if 0 < s.response.length then
              let c := httpContent s.response.length s.response
              pushContent c.1 { s with response := c.2 }
            else s
          asyncOp (.readContent r.2.1) s
        else finishError "handle_read_headers: empty content" s

def handleReadContent (contentLength : ℕ) (ec : Option ErrorCode) (s : HttpClient) : HttpClient :=
  if s.stopped then s
  else match ec with
    | some ec =>
        if ec.isEof then finish s
        else finishError ("handle_read_content: " ++ ec.message) s
    | none =>
        let c := httpContent s.response.length s.response
        asyncOp (.readContent contentLength) (pushContent c.1 { s with response := c.2 })

def handleReadChunkSize (ec : Option ErrorCode) (s : HttpClient) : HttpClient :=
  if s.stopped then s
  else match ec with
    | some ec => finishError ("handle_read_chunk_size: " ++ ec.message) s
    | none =>
        let r := httpChunkSize s.response
        let s := { s with response := r.2 }
        if 0 < r.1 then asyncOp (.readChunkData r.1 (remaining r.1 s.response.length)) s
        else finish s

/-- For a `chunkSize` for which there is an array; see `throws`. -/
def handleReadChunkData (chunkSize : ℕ) (ec : Option ErrorCode) (s : HttpClient) : HttpClient :=
  if s.stopped then s
  else match ec with
    | some ec => finishError ("handle_read_chunk_data: " ++ ec.message) s
    | none =>
        let r := httpChunkData chunkSize s.response
        let s := { s with response := r.2 }
        if r.1.length != chunkSize then finishError "fail to read chunk data" s
        else asyncOp .readChunkSize (pushContent r.1 s)

/-- The handler bound to an operation. -/
def handle (env : HttpEnv) (op : SocketOp) (ec : Option ErrorCode) (s : HttpClient) : HttpClient :=
  match op with
  | .connect info next => handleConnect env info next ec s
  | .writeRequest => handleWriteRequest ec s
  | .readStatusLine => handleReadStatusLine env ec s
  | .readHeaders => handleReadHeaders ec s
  | .readContent contentLength => handleReadContent contentLength ec s
  | .readChunkSize => handleReadChunkSize ec s
  | .readChunkData chunkSize _ => handleReadChunkData chunkSize ec s

def checkDeadline (env : HttpEnv) (s : HttpClient) : HttpClient :=
  if s.stopped then s
  else
    match s.expiresAt with
    | none => asyncWait s
    | some t =>
        if t ≤ env.now then closeSocket (asyncWait { s with expiresAt := none })
        else asyncWait s

/-! ### Events -/

/-- What can happen between two handlers: an operation outstanding completes, after bytes from the
peer have been appended to `response_`; a wait for the deadline ends; `stop` is called from
outside. -/
inductive HttpEvent where
  | completed (op : SocketOp) (ec : Option ErrorCode) (data : List Byte) (env : HttpEnv)
  | expired (env : HttpEnv)
  | stopCalled

/-- The handler throws: there is no array of more than `PTRDIFF_MAX` bytes for the `HttpBuffer` that
`handle_read_chunk_data` makes before it looks at the data. The other buffers are made for bytes
that have been received, and these allocations succeed. -/
def throws (op : SocketOp) (ec : Option ErrorCode) (s : HttpClient) : Bool :=
  match op, ec with
  | .readChunkData chunkSize _, none => !s.stopped && decide (ptrdiffMax < chunkSize)
  | _, _ => false

/-- The client when the handler of an operation is called: the operation is no longer outstanding,
and the bytes it has read are in `response_`. -/
def deliver (op : SocketOp) (data : List Byte) (s : HttpClient) : HttpClient :=
  { s with pending := s.pending.erase op, response := s.response ++ data }

def complete (op : SocketOp) (ec : Option ErrorCode) (data : List Byte) (env : HttpEnv)
    (s : HttpClient) : HttpClient :=
  handle env op ec (deliver op data s)

/-- The handler that an event runs, when the event is possible. A handler that throws ends the
program. -/
def react (s : HttpClient) : HttpEvent → Option HttpClient
  | .completed op ec data env =>
      if op ∈ s.pending ∧ throws op ec s = false then some (complete op ec data env s) else none
  | .expired env =>
      if 0 < s.waits then some (checkDeadline env { s with waits := s.waits - 1 }) else none
  | .stopCalled => some (stop s)

def run (s : HttpClient) : List HttpEvent → Option HttpClient
  | [] => some s
  | e :: es => (s.react e).bind fun s => run s es

end HttpClient

end Miscellany
