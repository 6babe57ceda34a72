import Miscellany.Http.Chunked

/-!
# Success of a chunked body

A size line that is well formed is read for what it says, and a chunk is taken only with the
line end behind it: the number of bytes asked for is never such that the data is buffered
without it. So when no malformed line is met, a body that is cut off is not taken for
complete. A line that is no size is taken for the end of the body, and what follows the data
of a chunk is not looked at. The array for a chunk is made before the data is looked at, which
throws when the line asks for too much.
-/

namespace Miscellany

open HttpClient InputStream

/-- The stream starts with a chunked body that has the given bytes. -/
def CompleteBody (stream body : List Byte) : Prop :=
  ∃ chunks last rest, SizeLine.size last = 0 ∧ stream = encodeChunks chunks last ++ rest ∧
    body = bodyOf chunks

/-- The body starts with a digit of a size. -/
theorem CompleteBody.exists_digit {stream body : List Byte} (h : CompleteBody stream body) :
    ∃ d ds, stream = d :: ds ∧ isDigit 16 d = true := by
  have hline : ∀ (l : SizeLine) (rest : List Byte), stream = l.bytes ++ rest →
      ∃ d ds, stream = d :: ds ∧ isDigit 16 d = true := by
    intro l rest hstream
    obtain ⟨d, ds, hdigits⟩ := List.exists_cons_of_ne_nil l.digits_ne_nil
    refine ⟨d, ds ++ l.ext ++ crlf ++ rest, ?_, l.hex d (by simp [hdigits])⟩
    rw [hstream, SizeLine.bytes, hdigits]
    rfl
  obtain ⟨chunks, last, rest, -, hstream, -⟩ := h
  cases chunks with
  | nil => exact hline last rest hstream
  | cons ch chunks =>
      apply hline ch.line (ch.data ++ crlf ++ (encodeChunks chunks last ++ rest))
      rw [hstream]
      simp [encodeChunks, Chunk.bytes]

/-- How a stream can go on after some chunks without a malformed line: with the line that closes the
body, with bytes in which no line ends, or with a chunk that is cut off. Where the bytes that are
there are enough for the read of the chunk, there is an array for as many as the line says. -/
inductive GoesOn : List Byte → Prop where
  | closed {last : SizeLine} (hlast : last.size = 0) (rest : List Byte) :
      GoesOn (last.bytes ++ rest)
  | noLine {rest : List Byte} (h : ¬ crlf <:+: rest) : GoesOn rest
  | cut {l : SizeLine} {rest : List Byte} (hpos : 0 < l.size) (hsize : l.size < sizeMod)
      (hcut : rest.length < l.size + 2)
      (hfits : ∀ b, b + remaining l.size b ≤ rest.length → l.size ≤ ptrdiffMax) :
      GoesOn (l.bytes ++ rest)

/-- The stream consists of chunks up to a point from which it goes on without a malformed line. -/
def WellFramed (stream : List Byte) : Prop :=
  ∃ (chunks : List Chunk) (rest : List Byte), stream = chunks.flatMap Chunk.bytes ++ rest ∧
    (∀ ch ∈ chunks, ch.data.length ≤ ptrdiffMax) ∧ GoesOn rest

namespace HttpClient

variable {s : HttpClient} {body data stream : List Byte}

/-- One result has been signalled, and a success only with the whole body of the stream. -/
def Reported (stream : List Byte) (s : HttpClient) : Prop :=
  ∃ r, s.results = [r] ∧ (r.errMsg = "" → CompleteBody stream r.content.flatten)

theorem Concluded.reported_of_error {errMsg : String} (h : Concluded errMsg body s)
    (hmsg : errMsg ≠ "") : Reported stream s := by
  obtain ⟨r, hresults, hr, -⟩ := h.result
  refine ⟨r, hresults, ?_⟩
  intro hempty
  rw [hr] at hempty
  exact absurd hempty hmsg

theorem Concluded.reported_of_complete (h : Concluded "" body s)
    (hbody : CompleteBody stream body) :
    Reported stream s := by
  obtain ⟨r, hresults, -, hcontent, -⟩ := h.result
  refine ⟨r, hresults, ?_⟩
  intro _
  rwa [hcontent]

/-- The number of bytes asked for brings in the whole chunk with its line end, or not even the
data. -/
theorem remaining_covers (n size : ℕ) :
    size + remaining n size < n ∨ n + 2 ≤ size + remaining n size := by
  unfold remaining sizeMod
  dsimp only
  split <;> omega

end HttpClient

namespace Connection

open HttpClient

variable {c : Connection} {body stream rest : List Byte} {chunks taken : List Chunk}

/-- Where only a read is pending, and a read that fails concludes with an error, the download ends
with a result if it does after a read that succeeds. -/
theorem ends_of_reading {op : SocketOp} {cond : ReadCondition} {handler : String}
    (hreading : Reading [op] body c.client) (hcond : op.condition = some cond)
    (hhandler : handler ≠ "")
    (hsafe : ∀ data, c.Returns op none data → c.client.throws op none = false)
    (herror : ∀ ec data env, Concluded (handler ++ ErrorCode.message ec) body
      (c.after op (some ec) data env).client)
    (hnext : ∀ data env, c.Returns op none data →
      Ends Returns (Reported stream) (c.after op none data env)) :
    Ends Returns (Reported stream) c := by
  apply Ends.step
  · exact exists_delivers hreading hcond
  · intro op' ec data hreturns
    have hop := hreturns.eq_of_reading hreading
    subst hop
    cases ec with
    | some ec => exact throws_some op' ec c.client
    | none => exact hsafe data hreturns
  intro op' ec data env hreturns
  have hop := hreturns.eq_of_reading hreading
  subst hop
  cases ec with
  | some ec =>
      have hended := herror ec data env
      exact .done hended.stopped (hended.reported_of_error (append_ne_empty hhandler _))
  | none => exact hnext data env hreturns

/-- On a stream that starts with a size line, a read of the line fails or takes the line. -/
theorem ends_of_line {l : SizeLine} (hsize : l.size < sizeMod)
    (hreading : Reading [.readChunkSize] body c.client)
    (hstream : c.client.response ++ c.unread = l.bytes ++ rest)
    (hnext : ∀ data buf env, httpChunkSize (c.client.response ++ data) = (l.size, buf) →
      buf ++ c.unread.drop data.length = rest →
      Ends Returns (Reported stream) (c.after .readChunkSize none data env)) :
    Ends Returns (Reported stream) c := by
  apply ends_of_reading hreading rfl (by decide) (fun _ _ => rfl) hreading.readChunkSize_error
  intro data env hreturns
  have hsplit := hreturns.append_drop.trans hstream
  obtain ⟨buf, hbuf, -⟩ := SizeLine.eq_bytes_append ⟨_, hsplit⟩ (hreturns.infix_of_untilDelim rfl)
  apply hnext data buf env
  · rw [hbuf]
    exact httpChunkSize_bytes hsize buf
  · rw [hbuf, List.append_assoc] at hsplit
    exact List.append_cancel_left hsplit

/-- A read of a chunk fails, or brings in too little, or the whole chunk with its line end. -/
theorem ends_of_readChunkData {n : ℕ}
    (hreading : Reading [.readChunkData n (remaining n c.client.response.length)] body c.client)
    (hfits : c.client.response.length + remaining n c.client.response.length ≤
      (c.client.response ++ c.unread).length → n ≤ ptrdiffMax)
    (hnext : ∀ data env,
      c.Returns (.readChunkData n (remaining n c.client.response.length)) none data →
      n + 2 ≤ (c.client.response ++ data).length →
      Ends Returns (Reported stream)
        (c.after (.readChunkData n (remaining n c.client.response.length)) none data env)) :
    Ends Returns (Reported stream) c := by
  have hlength : ∀ data,
      c.Returns (.readChunkData n (remaining n c.client.response.length)) none data →
      (c.client.response ++ data).length =
        c.client.response.length + remaining n c.client.response.length := by
    intro data hreturns
    rw [List.length_append, hreturns.length_of_exactly rfl]
  apply ends_of_reading hreading rfl (by decide) _ hreading.readChunkData_error
  · intro data env hreturns
    cases remaining_covers n c.client.response.length with
    | inl hshort =>
        have hended := hreading.readChunkData_short ((hlength data hreturns).trans_lt hshort) env
        exact .done hended.stopped (hended.reported_of_error (by decide))
    | inr hcovers => exact hnext data env hreturns (hcovers.trans_eq (hlength data hreturns).symm)
  · intro data hreturns
    apply hreturns.throws_eq_false hreading
    rintro n' r ⟨⟩
    apply hfits
    rw [← hlength data hreturns, ← hreturns.append_drop]
    exact (List.prefix_append _ _).length_le

/-- On a stream that starts with a chunk, a read of the chunk fails or takes the chunk. -/
theorem ends_of_data {chunk : List Byte} (hle : chunk.length ≤ ptrdiffMax)
    (hreading : Reading [.readChunkData chunk.length
      (remaining chunk.length c.client.response.length)] body c.client)
    (hstream : c.client.response ++ c.unread = chunk ++ crlf ++ rest)
    (hnext : ∀ c' : Connection, Reading [.readChunkSize] (body ++ chunk) c'.client →
      c'.client.response ++ c'.unread = rest → Ends Returns (Reported stream) c') :
    Ends Returns (Reported stream) c := by
  apply ends_of_readChunkData hreading (fun _ => hle)
  intro data env hreturns hcovers
  have hsplit := hreturns.append_drop.trans hstream
  have hle : (chunk ++ crlf).length ≤ (c.client.response ++ data).length := by
    have hchunk : (chunk ++ crlf).length = chunk.length + 2 := List.length_append
    rwa [hchunk]
  obtain ⟨buf, hbuf⟩ := List.prefix_of_prefix_length_le (List.prefix_append _ rest) ⟨_, hsplit⟩ hle
  have hdata : httpChunkData chunk.length (c.client.response ++ data) = (chunk, buf) := by
    rw [← hbuf]
    exact httpChunkData_append chunk buf
  obtain ⟨hreading', hresponse⟩ := hreading.readChunkData hdata rfl env
  apply hnext _ hreading'
  unfold after
  rw [hresponse]
  rw [← hbuf, List.append_assoc] at hsplit
  exact List.append_cancel_left hsplit

/-- The end of a stream without a malformed line; `taken` are the chunks before it. -/
theorem ends_of_goesOn (h : GoesOn rest)
    (hreading : Reading [.readChunkSize] (bodyOf taken) c.client)
    (hstream : stream = taken.flatMap Chunk.bytes ++ rest)
    (hrest : c.client.response ++ c.unread = rest) : Ends Returns (Reported stream) c := by
  cases h with
  | @closed last hlast rest =>
      apply ends_of_line (by rw [hlast]; decide) hreading hrest
      intro data buf env hsize _
      rw [hlast] at hsize
      have hended := hreading.readChunkSize_zero hsize env
      have hcomplete : CompleteBody stream (bodyOf taken) := by
        refine ⟨taken, last, rest, hlast, ?_, rfl⟩
        rw [hstream, encodeChunks, List.append_assoc]
      exact .done hended.stopped (hended.reported_of_complete hcomplete)
  | noLine hnone =>
      apply ends_of_reading hreading rfl (by decide) (fun _ _ => rfl) hreading.readChunkSize_error
      intro data env hreturns
      apply absurd _ hnone
      rw [← hrest, ← hreturns.append_drop]
      exact (hreturns.infix_of_untilDelim rfl).trans (List.prefix_append _ _).isInfix
  | @cut l rest hpos hsize hcut hfits =>
      apply ends_of_line hsize hreading hrest
      intro data buf env hline hbuf
      obtain ⟨hread, hresponse⟩ := hreading.readChunkSize hline hpos env
      rw [← hresponse] at hread
      apply ends_of_readChunkData (c := c.after .readChunkSize none data env) hread
      · unfold after
        rw [hresponse, hbuf]
        exact hfits buf.length
      intro data' env' hreturns hcovers
      -- the bytes buffered are among those that the cut left
      have hlength := congrArg List.length hreturns.append_drop
      unfold after at hlength hcovers
      rw [List.length_append, hresponse, hbuf] at hlength
      rw [hresponse] at hcovers
      omega

/-- The induction is on the chunks still to come. -/
theorem ends_reported (hchunks : ∀ ch ∈ chunks, ch.data.length ≤ ptrdiffMax) (hrest : GoesOn rest)
    (hreading : Reading [.readChunkSize] (bodyOf taken) c.client)
    (hstream : stream = taken.flatMap Chunk.bytes ++ (chunks.flatMap Chunk.bytes ++ rest))
    (hcomes : c.client.response ++ c.unread = chunks.flatMap Chunk.bytes ++ rest) :
    Ends Returns (Reported stream) c := by
  induction chunks generalizing c taken with
  | nil => exact ends_of_goesOn hrest hreading hstream hcomes
  | cons ch chunks ih =>
      have hle : ch.data.length ≤ ptrdiffMax := hchunks ch List.mem_cons_self
      have hfirst : ch.line.size < sizeMod := by
        rw [ch.size_eq]
        exact lt_of_le_of_lt hle (by decide)
      have hline : c.client.response ++ c.unread =
          ch.line.bytes ++ (ch.data ++ crlf ++ (chunks.flatMap Chunk.bytes ++ rest)) := by
        rw [hcomes]
        simp [Chunk.bytes]
      apply ends_of_line hfirst hreading hline
      intro data buf env hsize hbuf
      rw [ch.size_eq] at hsize
      obtain ⟨hread, hresponse⟩ := hreading.readChunkSize hsize
        (List.length_pos_of_ne_nil ch.data_ne_nil) env
      rw [← hresponse] at hread
      apply ends_of_data (c := c.after .readChunkSize none data env) hle hread
      · unfold after
        rw [hresponse]
        exact hbuf
      intro c' hreading' hcomes'
      have htaken : Reading [.readChunkSize] (bodyOf (taken ++ [ch])) c'.client := by
        simpa [bodyOf] using hreading'
      apply ih (fun ch' hch' => hchunks ch' (List.mem_cons_of_mem ch hch')) htaken _ hcomes'
      rw [hstream]
      simp

/-- **Chunked success means a complete message**, on every stream without a malformed line, and
however the reads complete. -/
theorem ends_reported_of_wellFramed {endpoints : List ServerInfo} {messageId : String}
    {env : HttpEnv}
    {events : List HttpEvent} {s : HttpClient}
    (hrun : run (start env (new endpoints messageId)) events = some s) (hstop : s.stopped = false)
    (hpending : s.pending = [.readHeaders]) (data unread stream : List Byte)
    (hstream : ∃ n buf, httpHeaders (s.response ++ data) = (ascii "chunked", n, buf) ∧
      buf ++ unread = stream) (hframed : WellFramed stream) (env' : HttpEnv) :
    Ends Returns (Reported stream) ⟨s.complete .readHeaders none data env', unread⟩ := by
  obtain ⟨n, buf, hheaders, hstream⟩ := hstream
  obtain ⟨chunks, rest, hchunks, hsizes, hrest⟩ := hframed
  have hawaits := (awaitsHeaders_of_run hrun hstop hpending).reading
  obtain ⟨hreading, hresponse⟩ := hawaits.readHeaders_chunked hheaders env'
  have htaken : Reading [.readChunkSize] (bodyOf []) (s.complete .readHeaders none data env') :=
    hreading
  apply ends_reported hsizes hrest
  · exact htaken
  · rw [hchunks]
    rfl
  · rw [hresponse, hstream, hchunks]

theorem ends_reported_cutBody : ∃ s, run readyClient readyEvents = some s ∧
    Ends Returns (Reported (ascii "1\r\nx")) ⟨s.complete .readHeaders none
      (ascii "Transfer-Encoding: chunked\r\n\r\n1\r") ⟨3, true, 0⟩, ascii "\nx"⟩ := by
  obtain ⟨s, hrun, hstop, hpending, hresponse⟩ := run_readyEvents
  have hheaders : httpHeaders (s.response ++ ascii "Transfer-Encoding: chunked\r\n\r\n1\r") =
      (ascii "chunked", 0, ascii "1\r") := by
    rw [hresponse]
    exact httpHeaders_chunked (ascii "1\r")
  have hcut : GoesOn (smallChunk.line.bytes ++ ascii "x") :=
    .cut (by decide) (by decide) (by decide) (fun _ _ => by decide)
  have hframed : WellFramed (ascii "1\r\nx") := ⟨[], _, rfl, by simp, hcut⟩
  exact ⟨s, hrun, ends_reported_of_wellFramed hrun hstop hpending _ _ (ascii "1\r\nx")
    ⟨0, ascii "1\r", hheaders, by decide⟩ hframed ⟨3, true, 0⟩⟩

/-! ### A line that is no size -/

/-- The client of `readyClient` when the header block has come with bytes of the body that hold a
whole line: it can read the size of the first chunk at once. -/
theorem exists_buffered {text : List Byte} (hline : crlf <:+: text) :
    ∃ s, run readyClient readyEvents = some s ∧ s.stopped = false ∧ s.pending = [.readHeaders] ∧
      httpHeaders (s.response ++ (ascii "Transfer-Encoding: chunked\r\n\r\n" ++ text)) =
        (ascii "chunked", 0, text) ∧
      ∃ s', s' = s.complete .readHeaders none
          (ascii "Transfer-Encoding: chunked\r\n\r\n" ++ text) ⟨3, true, 0⟩ ∧
        Reading [.readChunkSize] [] s' ∧ s'.response = text ∧
        (⟨s', []⟩ : Connection).Delivers .readChunkSize none [] := by
  obtain ⟨s, hrun, hstop, hpending, hresponse⟩ := run_readyEvents
  have hheaders : httpHeaders (s.response ++ (ascii "Transfer-Encoding: chunked\r\n\r\n" ++
      text)) = (ascii "chunked", 0, text) := by
    rw [hresponse]
    exact httpHeaders_chunked text
  have hawaits := (awaitsHeaders_of_run hrun hstop hpending).reading
  obtain ⟨hreading, hbuffered⟩ := hawaits.readHeaders_chunked hheaders ⟨3, true, 0⟩
  refine ⟨s, hrun, hstop, hpending, hheaders, _, rfl, hreading, hbuffered, ?_⟩
  refine ⟨?_, .untilDelim crlf, rfl, .buffered ?_⟩
  · simp [hreading.pending]
  · rw [hbuffered]
    exact hline

/-- The client takes a line that is no size for the end of the body. -/
theorem not_ends_reported_badLine : ∃ s, run readyClient readyEvents = some s ∧
    s.stopped = false ∧ s.pending = [.readHeaders] ∧
    httpHeaders (s.response ++ (ascii "Transfer-Encoding: chunked\r\n\r\n" ++ ascii "zz\r\n")) =
      (ascii "chunked", 0, ascii "zz\r\n") ∧
    ¬ Ends Returns (Reported (ascii "zz\r\n")) ⟨s.complete .readHeaders none
      (ascii "Transfer-Encoding: chunked\r\n\r\n" ++ ascii "zz\r\n") ⟨3, true, 0⟩, []⟩ := by
  have hline : crlf <:+: ascii "zz\r\n" := ⟨ascii "zz", [], rfl⟩
  obtain ⟨s, hrun, hstop, hpending, hheaders, s', hs', hreading, hbuffered, hdelivers⟩ :=
    exists_buffered hline
  refine ⟨s, hrun, hstop, hpending, hheaders, ?_⟩
  rw [← hs']
  intro hends
  have hsize : httpChunkSize (s'.response ++ []) = (0, []) := by
    rw [hbuffered]
    decide
  have hended := hreading.readChunkSize_zero hsize ⟨4, true, 0⟩
  have hafter := hends.after_of_running hreading.stopped (Or.inl hdelivers) ⟨4, true, 0⟩
  obtain ⟨r, hresults, hcomplete⟩ := hafter.of_pending_eq_nil hended.pending
  obtain ⟨d, ds, hstream, hdigit⟩ := (hcomplete (hended.of_results hresults).1).exists_digit
  obtain ⟨rfl, -⟩ := List.cons.inj hstream
  exact absurd hdigit (by decide)

/-! ### A size for which there is no array -/

/-- No result is signalled: two bytes are enough for the read of a chunk of `2 ^ 63` bytes, and its
handler throws. -/
theorem not_ends_oversize (P : HttpClient → Prop) : ∃ s, run readyClient readyEvents = some s ∧
    s.stopped = false ∧ s.pending = [.readHeaders] ∧
    ¬ Ends Returns P ⟨s.complete .readHeaders none
      (ascii "Transfer-Encoding: chunked\r\n\r\n" ++ ascii "8000000000000000\r\nab")
      ⟨3, true, 0⟩, []⟩ := by
  have hline : crlf <:+: ascii "8000000000000000\r\nab" :=
    ⟨ascii "8000000000000000", ascii "ab", rfl⟩
  obtain ⟨s, hrun, hstop, hpending, -, s', hs', hreading, hbuffered, hdelivers⟩ :=
    exists_buffered hline
  refine ⟨s, hrun, hstop, hpending, ?_⟩
  rw [← hs']
  intro hends
  have hsize : httpChunkSize (s'.response ++ []) = (2 ^ 63, ascii "ab") := by
    rw [hbuffered]
    decide
  obtain ⟨hread, -⟩ := hreading.readChunkSize hsize (by decide) ⟨4, true, 0⟩
  have hnothing : remaining (2 ^ 63) (ascii "ab").length = 0 := by decide
  rw [hnothing] at hread
  have hafter := hends.after_of_running hreading.stopped (Or.inl hdelivers) ⟨4, true, 0⟩
  set c : Connection := (⟨s', []⟩ : Connection).after .readChunkSize none [] ⟨4, true, 0⟩
  have hreading' : Reading [.readChunkData (2 ^ 63) 0] [] c.client := hread
  have hop : SocketOp.readChunkData (2 ^ 63) 0 ∈ c.client.pending :=
    hreading'.pending ▸ List.mem_singleton_self _
  have hchunk : c.Delivers (.readChunkData (2 ^ 63) 0) none [] :=
    ⟨hop, .exactly 0, rfl, .exactly List.nil_prefix rfl⟩
  have hsafe := hafter.throws_of_running hreading'.stopped (Or.inl hchunk)
  have hthrows : throws (.readChunkData (2 ^ 63) 0) none c.client = true := by
    rw [throws, hreading'.stopped]
    decide
  rw [hthrows] at hsafe
  cases hsafe

end Connection

end Miscellany
