import Miscellany.Http.Network

/-!
# Chunked bodies

A chunk is a line with its size in hexadecimal digits and possibly an extension, the data,
and a line end; a line with the size zero closes the body. The functions that take the size
line and the data off the buffer undo this encoding when the buffer holds all of them, and
the buffer holds all of them when the read of the chunk was started with the right number of
bytes. However the stream is split into reads, the chain of handlers then stores the body.
-/

namespace Miscellany

open InputStream

/-- A size line: digits, and an extension that is empty or starts with a semicolon. -/
structure SizeLine where
  digits : List Byte
  ext : List Byte
  digits_ne_nil : digits ≠ []
  hex : ∀ d ∈ digits, isDigit 16 d = true
  ext_head : ∀ c ∈ ext.head?, c = 59
  lf_notMem_ext : lf ∉ ext

namespace SizeLine

/-- A size line without an extension. -/
def ofDigits (digits : List Byte) (hne : digits ≠ []) (hhex : digits.all (isDigit 16) = true) :
    SizeLine where
  digits := digits
  ext := []
  digits_ne_nil := hne
  hex := List.all_eq_true.1 hhex
  ext_head := fun _ hc => nomatch hc
  lf_notMem_ext := List.not_mem_nil

def size (l : SizeLine) : ℕ := digitsVal 16 l.digits

def bytes (l : SizeLine) : List Byte := l.digits ++ l.ext ++ crlf

/-- The line as `getline` returns it. -/
def text (l : SizeLine) : List Byte := l.digits ++ (l.ext ++ [13])

theorem bytes_eq (l : SizeLine) : l.bytes = l.text ++ [lf] := by
  simp [bytes, text, crlf, lf]

theorem lf_notMem_text (l : SizeLine) : lf ∉ l.text := by
  have hdigits : lf ∉ l.digits := by
    intro hmem
    exact absurd (l.hex lf hmem) (by decide)
  have hcr : lf ∉ ([13] : List Byte) := by decide
  simp only [text, List.mem_append, not_or]
  exact ⟨hdigits, l.lf_notMem_ext, hcr⟩

theorem endsNumber (l : SizeLine) : EndsNumber (l.ext ++ [13]) := by
  intro c hc
  cases hext : l.ext with
  | nil =>
      rw [hext] at hc
      obtain rfl : (13 : Byte) = c := Option.some.inj hc
      decide
  | cons c' ext =>
      have hsemi : c' = 59 := l.ext_head c' (by simp [hext])
      rw [hext] at hc
      obtain rfl : c' = c := Option.some.inj hc
      rw [hsemi]
      decide

/-- What a read of a stream that starts with the line has buffered, once it has the line end. -/
theorem eq_bytes_append {l : SizeLine} {buf rest : List Byte} (hbuf : buf <+: l.bytes ++ rest)
    (hcrlf : crlf <:+: buf) : ∃ buf', buf = l.bytes ++ buf' ∧ buf' <+: rest := by
  have hlf : lf ∈ buf := hcrlf.subset (by decide)
  rcases List.prefix_or_prefix_of_prefix hbuf (List.prefix_append l.bytes rest) with h | h
  · rw [bytes_eq, List.prefix_concat_iff] at h
    cases h with
    | inl h => exact ⟨[], by rw [bytes_eq, List.append_nil, h], List.nil_prefix⟩
    | inr h => exact absurd (h.subset hlf) l.lf_notMem_text
  · obtain ⟨buf', rfl⟩ := h
    exact ⟨buf', rfl, (List.prefix_append_right_inj l.bytes).1 hbuf⟩

end SizeLine

/-- A chunk with data. -/
structure Chunk where
  line : SizeLine
  data : List Byte
  size_eq : line.size = data.length
  data_ne_nil : data ≠ []

namespace Chunk

def bytes (ch : Chunk) : List Byte := ch.line.bytes ++ ch.data ++ crlf

end Chunk

/-- The stream of a chunked body. -/
def encodeChunks (chunks : List Chunk) (last : SizeLine) : List Byte :=
  chunks.flatMap Chunk.bytes ++ last.bytes

/-- The body that the chunks divide. -/
def bodyOf (chunks : List Chunk) : List Byte := chunks.flatMap Chunk.data

namespace HttpClient

/-! ### Taking a chunk off the buffer -/

theorem httpChunkSize_bytes {l : SizeLine} (h : l.size < sizeMod) (rest : List Byte) :
    httpChunkSize (l.bytes ++ rest) = (l.size, rest) := by
  have hline : (ofBytes (l.bytes ++ rest)).getline [] = (l.text, ofBytes rest) := by
    rw [l.bytes_eq, List.append_assoc]
    exact getline_ofBytes_append l.lf_notMem_text rest []
  rw [httpChunkSize, hline]
  exact Prod.ext (extractUnsigned_digits l.digits_ne_nil l.hex l.endsNumber h 0) rfl

theorem httpChunkData_append (data rest : List Byte) :
    httpChunkData data.length (data ++ crlf ++ rest) = (data, rest) := by
  have hcr : lf ∉ ([13] : List Byte) := by decide
  have hline := getline_ofBytes_append hcr rest []
  rw [List.append_assoc, httpChunkData, read_ofBytes_append]
  exact Prod.ext rfl (congrArg (fun r => r.2.rest) hline)

theorem httpChunkData_of_lt {n : ℕ} {response : List Byte} (h : response.length < n) :
    (httpChunkData n response).1.length ≠ n := by
  rw [httpChunkData, read_ofBytes_of_lt h]
  exact Nat.ne_of_lt h

/-- What is buffered beyond the chunk has a size whose difference, as an `int`, is not positive. -/
def FitsInt (chunkSize size : ℕ) : Prop := (size - (chunkSize + 2)) % 2 ^ 32 ≤ 2 ^ 31

theorem remaining_of_fitsInt {chunkSize size : ℕ} (hchunk : chunkSize + 2 ≤ WbaStr.intMax)
    (h : FitsInt chunkSize size) : remaining chunkSize size = chunkSize + 2 - size := by
  unfold FitsInt at h
  unfold remaining sizeMod
  unfold WbaStr.intMax at hchunk
  dsimp only
  split <;> omega

/-! ### The handlers of a chunk -/

variable {s : HttpClient} {data rest buf : List Byte} {n : ℕ}

theorem complete_readHeaders_chunked (hstop : s.stopped = false)
    (h : httpHeaders (s.response ++ data) = (ascii "chunked", n, rest)) (env : HttpEnv) :
    complete .readHeaders none data env s =
      asyncOp .readChunkSize { deliver .readHeaders data s with response := rest } := by
  have hheaders : httpHeaders (deliver .readHeaders data s).response =
      (ascii "chunked", n, rest) := h
  simp only [complete, handle, handleReadHeaders, hheaders, beq_self_eq_true, if_true]
  exact if_neg (by simp [deliver, hstop])

theorem complete_readChunkSize (hstop : s.stopped = false)
    (h : httpChunkSize (s.response ++ data) = (n, rest)) (hn : 0 < n) (env : HttpEnv) :
    complete .readChunkSize none data env s = asyncOp (.readChunkData n (remaining n rest.length))
      { deliver .readChunkSize data s with response := rest } := by
  have hsize : httpChunkSize (deliver .readChunkSize data s).response = (n, rest) := h
  simp only [complete, handle, handleReadChunkSize, hsize, if_pos hn]
  exact if_neg (by simp [deliver, hstop])

theorem complete_readChunkSize_zero (hstop : s.stopped = false)
    (h : httpChunkSize (s.response ++ data) = (0, rest)) (env : HttpEnv) :
    complete .readChunkSize none data env s =
      finish { deliver .readChunkSize data s with response := rest } := by
  have hsize : httpChunkSize (deliver .readChunkSize data s).response = (0, rest) := h
  simp only [complete, handle, handleReadChunkSize, hsize, Nat.lt_irrefl, if_false]
  exact if_neg (by simp [deliver, hstop])

theorem complete_readChunkData (hstop : s.stopped = false)
    (h : httpChunkData n (s.response ++ data) = (buf, rest)) (hn : buf.length = n) (r : ℕ)
    (env : HttpEnv) :
    complete (.readChunkData n r) none data env s = asyncOp .readChunkSize
      (pushContent buf { deliver (.readChunkData n r) data s with response := rest }) := by
  have hdata : httpChunkData n (deliver (.readChunkData n r) data s).response = (buf, rest) := h
  simp only [complete, handle, handleReadChunkData, hdata, hn, bne_self_eq_false,
    Bool.false_eq_true, if_false]
  exact if_neg (by simp [deliver, hstop])

theorem complete_readChunkData_short (hstop : s.stopped = false)
    (h : httpChunkData n (s.response ++ data) = (buf, rest)) (hn : buf.length ≠ n) (r : ℕ)
    (env : HttpEnv) :
    complete (.readChunkData n r) none data env s = finishError "fail to read chunk data"
      { deliver (.readChunkData n r) data s with response := rest } := by
  have hdata : httpChunkData n (deliver (.readChunkData n r) data s).response = (buf, rest) := h
  simp only [complete, handle, handleReadChunkData, hdata, bne_iff_ne, if_pos hn]
  exact if_neg (by simp [deliver, hstop])

theorem complete_readChunkSize_error (hstop : s.stopped = false) (ec : ErrorCode) (data : List Byte)
    (env : HttpEnv) :
    complete .readChunkSize (some ec) data env s =
      finishError ("handle_read_chunk_size: " ++ ec.message) (deliver .readChunkSize data s) :=
  if_neg (by simp [deliver, hstop])

theorem complete_readChunkData_error (hstop : s.stopped = false) (ec : ErrorCode) (n r : ℕ)
    (data : List Byte) (env : HttpEnv) :
    complete (.readChunkData n r) (some ec) data env s =
      finishError ("handle_read_chunk_data: " ++ ec.message)
        (deliver (.readChunkData n r) data s) :=
  if_neg (by simp [deliver, hstop])

theorem Reading.readHeaders_chunked {body : List Byte} (h : Reading [.readHeaders] body s)
    (hheaders : httpHeaders (s.response ++ data) = (ascii "chunked", n, rest)) (env : HttpEnv) :
    Reading [.readChunkSize] body (complete .readHeaders none data env s) ∧
      (complete .readHeaders none data env s).response = rest := by
  rw [complete_readHeaders_chunked h.stopped hheaders]
  exact ⟨((h.deliver data).setResponse rest).asyncOp _, rfl⟩

theorem Reading.readChunkSize {body : List Byte} (h : Reading [.readChunkSize] body s)
    (hsize : httpChunkSize (s.response ++ data) = (n, rest)) (hn : 0 < n) (env : HttpEnv) :
    Reading [.readChunkData n (remaining n rest.length)] body
        (complete .readChunkSize none data env s) ∧
      (complete .readChunkSize none data env s).response = rest := by
  rw [complete_readChunkSize h.stopped hsize hn]
  exact ⟨((h.deliver data).setResponse rest).asyncOp _, rfl⟩

theorem Reading.readChunkSize_zero {body : List Byte} (h : Reading [.readChunkSize] body s)
    (hsize : httpChunkSize (s.response ++ data) = (0, rest)) (env : HttpEnv) :
    Concluded "" body (complete .readChunkSize none data env s) := by
  rw [complete_readChunkSize_zero h.stopped hsize]
  exact ((h.deliver data).setResponse rest).finish

theorem Reading.readChunkData {body : List Byte} {r : ℕ} (h : Reading [.readChunkData n r] body s)
    (hdata : httpChunkData n (s.response ++ data) = (buf, rest)) (hn : buf.length = n)
    (env : HttpEnv) :
    Reading [.readChunkSize] (body ++ buf) (complete (.readChunkData n r) none data env s) ∧
      (complete (.readChunkData n r) none data env s).response = rest := by
  rw [complete_readChunkData h.stopped hdata hn]
  exact ⟨(((h.deliver data).setResponse rest).pushContent buf).asyncOp _, rfl⟩

theorem Reading.readChunkData_short {body : List Byte} {r : ℕ}
    (h : Reading [.readChunkData n r] body s) (hlength : (s.response ++ data).length < n)
    (env : HttpEnv) :
    Concluded "fail to read chunk data" body (complete (.readChunkData n r) none data env s) := by
  rw [complete_readChunkData_short h.stopped rfl (httpChunkData_of_lt hlength)]
  exact ((h.deliver data).setResponse _).finishError _

/-- A read of the size line that fails ends in an error. -/
theorem Reading.readChunkSize_error {body : List Byte} (h : Reading [.readChunkSize] body s)
    (ec : ErrorCode) (data : List Byte) (env : HttpEnv) :
    Concluded ("handle_read_chunk_size: " ++ ec.message) body
      (complete .readChunkSize (some ec) data env s) := by
  rw [complete_readChunkSize_error h.stopped]
  exact (h.deliver data).finishError _

theorem Reading.readChunkData_error {body : List Byte} {r : ℕ}
    (h : Reading [.readChunkData n r] body s) (ec : ErrorCode) (data : List Byte) (env : HttpEnv) :
    Concluded ("handle_read_chunk_data: " ++ ec.message) body
      (complete (.readChunkData n r) (some ec) data env s) := by
  rw [complete_readChunkData_error h.stopped]
  exact (h.deliver data).finishError _

end HttpClient

namespace Connection

open HttpClient

variable {c : Connection} {op : SocketOp} {ec : Option ErrorCode} {body data rest : List Byte}

/-! ### Reads on a well formed stream -/

/-- A read of a size line ends when the line is buffered. -/
theorem Delivers.sizeLine {l : SizeLine} (h : c.Delivers op ec data)
    (hreading : Reading [.readChunkSize] body c.client)
    (hstream : c.client.response ++ c.unread = l.bytes ++ rest) :
    op = .readChunkSize ∧ ec = none ∧ ∃ buf, c.client.response ++ data = l.bytes ++ buf ∧
      buf ++ c.unread.drop data.length = rest := by
  have hop := Returns.eq_of_reading (Or.inl h) hreading
  have hsplit := (Returns.append_drop (Or.inl h)).trans hstream
  have hline : crlf <:+: c.client.response ++ data →
      ∃ buf, c.client.response ++ data = l.bytes ++ buf ∧
        buf ++ c.unread.drop data.length = rest := by
    intro hcrlf
    obtain ⟨buf, hbuf, -⟩ := SizeLine.eq_bytes_append ⟨_, hsplit⟩ hcrlf
    rw [hbuf, List.append_assoc] at hsplit
    exact ⟨buf, hbuf, List.append_cancel_left hsplit⟩
  obtain ⟨-, cond, hcond, hcompletes⟩ := h
  rw [hop] at hcond
  cases hcond
  cases hcompletes with
  | buffered hcrlf => exact ⟨hop, rfl, hline (by rwa [List.append_nil])⟩
  | untilDelim _ _ hcrlf => exact ⟨hop, rfl, hline hcrlf⟩
  | untilEof hnot _ =>
      apply absurd _ hnot
      rw [hstream]
      exact ⟨l.digits ++ l.ext, rest, rfl⟩

/-- A read of as many bytes as the chunk still needs ends when the chunk is buffered. -/
theorem Delivers.chunkData {n r : ℕ} {chunk : List Byte} (h : c.Delivers op ec data)
    (hreading : Reading [.readChunkData n r] body c.client)
    (hstream : c.client.response ++ c.unread = chunk ++ rest)
    (hr : r = chunk.length - c.client.response.length) :
    op = .readChunkData n r ∧ ec = none ∧ ∃ buf, c.client.response ++ data = chunk ++ buf ∧
      buf ++ c.unread.drop data.length = rest := by
  have hop := Returns.eq_of_reading (Or.inl h) hreading
  have hsplit := (Returns.append_drop (Or.inl h)).trans hstream
  obtain ⟨-, cond, hcond, hcompletes⟩ := h
  rw [hop] at hcond
  cases hcond
  cases hcompletes with
  | exactly hdata hlength =>
      have hle : chunk.length ≤ (c.client.response ++ data).length := by
        rw [List.length_append]
        omega
      obtain ⟨buf, hbuf⟩ := List.prefix_of_prefix_length_le
        (List.prefix_append chunk rest) ⟨_, hsplit⟩ hle
      rw [← hbuf, List.append_assoc] at hsplit
      exact ⟨hop, rfl, buf, hbuf.symm, List.append_cancel_left hsplit⟩
  | exactlyEof hlt _ =>
      have hlength := congrArg List.length hstream
      simp only [List.length_append] at hlength
      omega

/-- A read completes as the bytes of the peer allow it, and when it is that of a size line, the
number of bytes buffered behind the line is such that the conversion to `int` does no harm. -/
def DeliversFitting (c : Connection) (op : SocketOp) (ec : Option ErrorCode) (data : List Byte) :
    Prop :=
  c.Delivers op ec data ∧ (op = .readChunkSize →
    FitsInt (httpChunkSize (c.client.response ++ data)).1
      (httpChunkSize (c.client.response ++ data)).2.length)

theorem ends_of_closed {last : SizeLine} (hlast : last.size = 0)
    (hreading : Reading [.readChunkSize] body c.client)
    (hstream : c.client.response ++ c.unread = last.bytes ++ rest) :
    Ends DeliversFitting (Concluded "" body) c := by
  apply Ends.step
  · exact exists_delivers hreading rfl
  · rintro op ec data ⟨hdelivers, -⟩
    exact Returns.throws_eq_false (Or.inl hdelivers) hreading (by simp)
  rintro op ec data env ⟨hdelivers, -⟩
  obtain ⟨rfl, rfl, buf, hbuf, -⟩ := hdelivers.sizeLine hreading hstream
  have hsize : httpChunkSize (c.client.response ++ data) = (0, buf) := by
    rw [hbuf, httpChunkSize_bytes (by rw [hlast]; decide), hlast]
  have hended := hreading.readChunkSize_zero hsize env
  exact .done hended.stopped hended

/-- From the read of a chunk to the read of the next size line. -/
theorem ends_of_chunkData {P : HttpClient → Prop} {chunk : List Byte} {r : ℕ}
    (hle : chunk.length ≤ ptrdiffMax)
    (hreading : Reading [.readChunkData chunk.length r] body c.client)
    (hstream : c.client.response ++ c.unread = chunk ++ crlf ++ rest)
    (hr : r = (chunk ++ crlf).length - c.client.response.length)
    (hnext : ∀ c' : Connection, Reading [.readChunkSize] (body ++ chunk) c'.client →
      c'.client.response ++ c'.unread = rest → Ends DeliversFitting P c') :
    Ends DeliversFitting P c := by
  apply Ends.step
  · exact exists_delivers hreading rfl
  · rintro op ec data ⟨hdelivers, -⟩
    apply Returns.throws_eq_false (Or.inl hdelivers) hreading
    rintro n r' ⟨⟩
    exact hle
  rintro op ec data env ⟨hdelivers, -⟩
  obtain ⟨rfl, rfl, buf, hbuf, hrest⟩ := hdelivers.chunkData hreading hstream hr
  have hdata : httpChunkData chunk.length (c.client.response ++ data) = (chunk, buf) := by
    rw [hbuf]
    exact httpChunkData_append chunk buf
  obtain ⟨hreading', hresponse⟩ := hreading.readChunkData hdata rfl env
  apply hnext _ hreading'
  unfold after
  rw [hresponse]
  exact hrest

/-- Taking the chunks one after the other; the induction is on the chunks still to come. -/
theorem ends_of_chunks {chunks : List Chunk} {last : SizeLine} (hlast : last.size = 0)
    (hchunks : ∀ ch ∈ chunks, ch.data.length + 2 ≤ WbaStr.intMax)
    (hreading : Reading [.readChunkSize] body c.client)
    (hstream : c.client.response ++ c.unread = encodeChunks chunks last ++ rest) :
    Ends DeliversFitting (Concluded "" (body ++ bodyOf chunks)) c := by
  induction chunks generalizing c body with
  | nil =>
      rw [bodyOf, List.flatMap_nil, List.append_nil]
      exact ends_of_closed hlast hreading hstream
  | cons ch chunks ih =>
      have hfirst : ch.data.length + 2 ≤ WbaStr.intMax := hchunks ch List.mem_cons_self
      have hline : c.client.response ++ c.unread =
          ch.line.bytes ++ (ch.data ++ crlf ++ (encodeChunks chunks last ++ rest)) := by
        rw [hstream]
        simp [encodeChunks, Chunk.bytes]
      apply Ends.step
      · exact exists_delivers hreading rfl
      · rintro op ec data ⟨hdelivers, -⟩
        exact Returns.throws_eq_false (Or.inl hdelivers) hreading (by simp)
      rintro op ec data env ⟨hdelivers, hfits⟩
      obtain ⟨rfl, rfl, buf, hbuf, hrest⟩ := hdelivers.sizeLine hreading hline
      have hsize : httpChunkSize (c.client.response ++ data) = (ch.data.length, buf) := by
        rw [hbuf, ← ch.size_eq]
        apply httpChunkSize_bytes
        rw [ch.size_eq]
        exact lt_of_le_of_lt (Nat.le_of_add_right_le hfirst) (by decide)
      have hremaining : remaining ch.data.length buf.length =
          (ch.data ++ crlf).length - buf.length := by
        have hfit := hfits rfl
        rw [hsize] at hfit
        rw [remaining_of_fitsInt hfirst hfit, List.length_append]
        rfl
      obtain ⟨hread, hresponse⟩ := hreading.readChunkSize hsize
        (List.length_pos_of_ne_nil ch.data_ne_nil) env
      have hle : ch.data.length ≤ ptrdiffMax :=
        (Nat.le_of_add_right_le hfirst).trans (by decide)
      apply ends_of_chunkData hle hread
      · unfold after
        rw [hresponse]
        exact hrest
      · unfold after
        rw [hresponse]
        exact hremaining
      intro c' hreading' hstream'
      have hend :=
        ih (fun ch' hch' => hchunks ch' (List.mem_cons_of_mem ch hch')) hreading' hstream'
      rwa [List.append_assoc] at hend

/-- The client has signalled success with the given body. -/
def Decoded (body : List Byte) (s : HttpClient) : Prop :=
  ∃ r, s.results = [r] ∧ r.errMsg = "" ∧ r.content.flatten = body ∧ r.contentLength = body.length

/-- **Chunked decoding undoes chunked encoding**, in every run in which the number of bytes buffered
fits. -/
theorem ends_decoded {endpoints : List ServerInfo} {messageId : String} {env : HttpEnv}
    {events : List HttpEvent} {s : HttpClient}
    (hrun : run (start env (new endpoints messageId)) events = some s) (hstop : s.stopped = false)
    (hpending : s.pending = [.readHeaders]) (chunks : List Chunk) (last : SizeLine)
    (hlast : last.size = 0) (hchunks : ∀ ch ∈ chunks, ch.data.length ≤ WbaStr.intMax - 2)
    (hbody : (bodyOf chunks).length < sizeMod) (data unread tail : List Byte)
    (hstream : ∃ n buf, httpHeaders (s.response ++ data) = (ascii "chunked", n, buf) ∧
      buf ++ unread = encodeChunks chunks last ++ tail) (env' : HttpEnv) :
    Ends DeliversFitting (Decoded (bodyOf chunks))
      ⟨s.complete .readHeaders none data env', unread⟩ := by
  obtain ⟨n, buf, hheaders, hstream⟩ := hstream
  have hawaits := (awaitsHeaders_of_run hrun hstop hpending).reading
  obtain ⟨hreading, hresponse⟩ := hawaits.readHeaders_chunked hheaders env'
  have hle : ∀ ch ∈ chunks, ch.data.length + 2 ≤ WbaStr.intMax := by
    intro ch hch
    have h := hchunks ch hch
    unfold WbaStr.intMax at h ⊢
    omega
  have hend : Ends DeliversFitting (Concluded "" ([] ++ bodyOf chunks))
      ⟨s.complete .readHeaders none data env', unread⟩ := by
    apply ends_of_chunks hlast hle hreading
    rw [hresponse]
    exact hstream
  apply hend.mono
  intro t ht
  obtain ⟨r, hresults, hmsg, hcontent, hlength⟩ := ht.result
  rw [List.nil_append] at hcontent hlength
  rw [Nat.mod_eq_of_lt hbody] at hlength
  exact ⟨r, hresults, hmsg, hcontent, hlength⟩

/-! ### Reading ahead too far -/

/-- A read that asks for more than the peer sends ends in an error. -/
theorem not_ends_of_short {n r : ℕ} {decoded : List Byte}
    (hreading : Reading [.readChunkData n r] body c.client) (hshort : c.unread.length < r) :
    ¬ Ends Delivers (Decoded decoded) c := by
  intro hends
  let eof : ErrorCode := ⟨true, "End of file"⟩
  have hdelivers : c.Delivers (.readChunkData n r) (some eof) c.unread :=
    ⟨by simp [hreading.pending], .exactly r, rfl, .exactlyEof hshort rfl⟩
  have hafter := hends.after_of_running hreading.stopped hdelivers ⟨0, true, 0⟩
  have hended := hreading.readChunkData_error eof c.unread ⟨0, true, 0⟩
  obtain ⟨result, hresult, hmsg, -⟩ := hafter.of_pending_eq_nil hended.pending
  have herror := (hended.of_results hresult).1
  rw [hmsg] at herror
  exact absurd herror (by decide)

theorem not_ends_of_overread {l : SizeLine} {decoded : List Byte}
    (hreading : Reading [.readChunkSize] body c.client)
    (hresponse : c.client.response = l.bytes ++ rest) (hsize : l.size < sizeMod) (hpos : 0 < l.size)
    (hshort : c.unread.length < remaining l.size rest.length) :
    ¬ Ends Delivers (Decoded decoded) c := by
  intro hends
  have hcrlf : crlf <:+: c.client.response := by
    rw [hresponse]
    exact ⟨l.digits ++ l.ext, rest, rfl⟩
  have hdelivers : c.Delivers .readChunkSize none [] :=
    ⟨by simp [hreading.pending], .untilDelim crlf, rfl, .buffered hcrlf⟩
  have hline : httpChunkSize (c.client.response ++ []) = (l.size, rest) := by
    rw [List.append_nil, hresponse]
    exact httpChunkSize_bytes hsize rest
  obtain ⟨hread, -⟩ := hreading.readChunkSize hline hpos ⟨0, true, 0⟩
  have hafter := hends.after_of_running hreading.stopped hdelivers ⟨0, true, 0⟩
  exact not_ends_of_short (c := c.after .readChunkSize none [] ⟨0, true, 0⟩) hread hshort hafter

theorem httpHeaders_chunked (rest : List Byte) :
    httpHeaders (ascii "Transfer-Encoding: chunked\r\n\r\n" ++ rest) =
      (ascii "chunked", 0, rest) := by
  have hfield : lf ∉ ascii "Transfer-Encoding: chunked\r" := by decide
  have hend : lf ∉ ascii "\r" := by decide
  have htext : ascii "Transfer-Encoding: chunked\r\n\r\n" =
      ascii "Transfer-Encoding: chunked\r" ++ lf :: (ascii "\r" ++ [lf]) := by
    decide
  have hbytes : ascii "Transfer-Encoding: chunked\r\n\r\n" ++ rest =
      ascii "Transfer-Encoding: chunked\r" ++ lf :: (ascii "\r" ++ lf :: rest) := by
    rw [htext, List.append_assoc, List.cons_append, List.append_assoc, List.singleton_append]
  have hline : headerLine (ascii "Transfer-Encoding: chunked\r") [] 0 = (ascii "chunked", 0) := by
    decide
  have hfuel :
      (ascii "Transfer-Encoding: chunked\r" ++ lf :: (ascii "\r" ++ lf :: rest)).length + 1 =
        rest.length + 29 + 1 + 1 := by
    simp [ascii]
  have hmore : ¬ (false || ascii "Transfer-Encoding: chunked\r" == ascii "\r") = true := by decide
  have hdone : (false || ascii "\r" == ascii "\r") = true := by decide
  rw [hbytes, httpHeaders, hfuel, httpHeadersLoop, getline_ofBytes_append hfield, hline]
  apply (if_neg hmore).trans
  rw [httpHeadersLoop, getline_ofBytes_append hend]
  exact if_pos hdone

/-- The zero line of a body. -/
def zeroLine : SizeLine := .ofDigits (ascii "0") (by decide) (by decide)

/-- A chunk of one byte. -/
def smallChunk : Chunk :=
  ⟨.ofDigits (ascii "1") (by decide) (by decide), ascii "x", by decide, by decide⟩

/-- As many bytes as a chunk may have. -/
def largeData : List Byte := List.replicate (2 ^ 31 - 3) 0

theorem length_largeData : largeData.length = 2 ^ 31 - 3 := List.length_replicate

def largeChunk : Chunk where
  line := .ofDigits (ascii "7ffffffd") (by decide) (by decide)
  data := largeData
  size_eq := by
    rw [length_largeData]
    decide
  data_ne_nil := by
    apply List.ne_nil_of_length_pos
    rw [length_largeData]
    decide

/-- What follows the first size line when the two chunks are sent. -/
def behindFirst : List Byte := ascii "x" ++ crlf ++ (largeChunk.bytes ++ zeroLine.bytes)

theorem encodeChunks_overread :
    encodeChunks [smallChunk, largeChunk] zeroLine = smallChunk.line.bytes ++ behindFirst := by
  simp [encodeChunks, Chunk.bytes, behindFirst, smallChunk]

/-- The first chunk is buffered with more than `2 ^ 31` bytes behind it, and the client asks for
bytes that do not come. -/
theorem remaining_behindFirst : remaining 1 behindFirst.length = 2 ^ 31 - 12 := by
  have hlength : behindFirst.length = 2 ^ 31 + 15 := by
    have hline : largeChunk.line.bytes.length = 10 := by decide
    have hzero : zeroLine.bytes.length = 3 := by decide
    have hdata : largeChunk.data.length = 2 ^ 31 - 3 := length_largeData
    have hcrlf : crlf.length = 2 := by decide
    have hx : (ascii "x").length = 1 := by decide
    have hsum : behindFirst.length = (ascii "x").length + crlf.length +
        (largeChunk.line.bytes.length + largeChunk.data.length + crlf.length +
          zeroLine.bytes.length) := by
      simp only [behindFirst, Chunk.bytes, List.length_append]
    omega
  rw [hlength]
  decide

/-- All chunks arrive with the headers: behind the first size line, `diff` is too small for an
`int` and comes out positive. -/
theorem not_ends_decoded_overread : ∃ s, run readyClient readyEvents = some s ∧
    s.stopped = false ∧ s.pending = [.readHeaders] ∧ zeroLine.size = 0 ∧
    (∀ ch ∈ [smallChunk, largeChunk], ch.data.length ≤ WbaStr.intMax - 2) ∧
    (∃ n buf, httpHeaders (s.response ++ (ascii "Transfer-Encoding: chunked\r\n\r\n" ++
        encodeChunks [smallChunk, largeChunk] zeroLine)) = (ascii "chunked", n, buf) ∧
      buf ++ [] = encodeChunks [smallChunk, largeChunk] zeroLine) ∧
    ¬ Ends Delivers (Decoded (bodyOf [smallChunk, largeChunk]))
      ⟨s.complete .readHeaders none (ascii "Transfer-Encoding: chunked\r\n\r\n" ++
        encodeChunks [smallChunk, largeChunk] zeroLine) ⟨3, true, 0⟩, []⟩ := by
  obtain ⟨s, hrun, hstop, hpending, hresponse⟩ := run_readyEvents
  have hheaders : httpHeaders (s.response ++ (ascii "Transfer-Encoding: chunked\r\n\r\n" ++
      encodeChunks [smallChunk, largeChunk] zeroLine)) =
      (ascii "chunked", 0, encodeChunks [smallChunk, largeChunk] zeroLine) := by
    rw [hresponse, List.nil_append]
    exact httpHeaders_chunked _
  have hbound : ∀ ch ∈ [smallChunk, largeChunk], ch.data.length ≤ WbaStr.intMax - 2 := by
    intro ch hch
    rcases List.mem_cons.1 hch with rfl | hch
    · decide
    · rw [List.mem_singleton.1 hch]
      exact length_largeData.le
  refine ⟨s, hrun, hstop, hpending, by decide, hbound, ⟨0, _, hheaders, List.append_nil _⟩, ?_⟩
  have hawaits := (awaitsHeaders_of_run hrun hstop hpending).reading
  obtain ⟨hreading, hbuffered⟩ := hawaits.readHeaders_chunked hheaders ⟨3, true, 0⟩
  apply not_ends_of_overread hreading (hbuffered.trans encodeChunks_overread) (by decide)
    (by decide)
  change 0 < remaining 1 behindFirst.length
  rw [remaining_behindFirst]
  decide

theorem ends_decoded_smallBody : ∃ s, run readyClient readyEvents = some s ∧
    Ends DeliversFitting (Decoded (ascii "x")) ⟨s.complete .readHeaders none
      (ascii "Transfer-Encoding: chunked\r\n\r\n1\r") ⟨3, true, 0⟩, ascii "\nx\r\n0\r\n\r\n"⟩ := by
  obtain ⟨s, hrun, hstop, hpending, hresponse⟩ := run_readyEvents
  have hheaders : httpHeaders (s.response ++ ascii "Transfer-Encoding: chunked\r\n\r\n1\r") =
      (ascii "chunked", 0, ascii "1\r") := by
    rw [hresponse]
    exact httpHeaders_chunked (ascii "1\r")
  have hstream : ascii "1\r" ++ ascii "\nx\r\n0\r\n\r\n" =
      encodeChunks [smallChunk] zeroLine ++ ascii "\r\n" := by
    decide
  exact ⟨s, hrun, ends_decoded hrun hstop hpending [smallChunk] zeroLine (by decide) (by decide)
    (by decide) _ _ (ascii "\r\n") ⟨0, ascii "1\r", hheaders, hstream⟩ ⟨3, true, 0⟩⟩

end Connection

end Miscellany
