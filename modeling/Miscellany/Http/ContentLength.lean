import Miscellany.Http.Network

/-!
# Bodies with a content length

The announced length is handed from read to read but never compared with what has been
stored: the client takes the end of the stream for the end of the body. It stores what the
peer sends after the header block, and signals success when the peer closes the connection.
-/

namespace Miscellany

open InputStream

namespace HttpClient

variable {s : HttpClient} {body data rest transferEncoding : List Byte} {n : ℕ}

/-! ### The announced length -/

theorem headerLine_lt (line transferEncoding : List Byte) (h : n < sizeMod) :
    (headerLine line transferEncoding n).2 < sizeMod := by
  unfold headerLine
  split_ifs
  · exact h
  · exact extractUnsigned_lt _ h
  · exact h

theorem httpHeadersLoop_lt (fuel : ℕ) (stream : InputStream) (line : List Byte) (h : n < sizeMod) :
    (httpHeadersLoop fuel stream line transferEncoding n).2.1 < sizeMod := by
  induction fuel generalizing stream line transferEncoding n with
  | zero => exact h
  | succ fuel ih =>
      unfold httpHeadersLoop
      dsimp only
      split_ifs
      · exact h
      · exact ih _ _ (headerLine_lt _ _ h)

/-- The length is a `size_t`. -/
theorem length_lt_of_httpHeaders {response : List Byte}
    (h : httpHeaders response = (transferEncoding, n, rest)) : n < sizeMod := by
  have hlt : (httpHeaders response).2.1 < sizeMod :=
    httpHeadersLoop_lt (response.length + 1) (ofBytes response) [] (by decide)
  rwa [h] at hlt

/-! ### The handlers of the content -/

theorem complete_readHeaders_length (hstop : s.stopped = false)
    (h : httpHeaders (s.response ++ data) = (transferEncoding, n, rest))
    (hplain : transferEncoding ≠ ascii "chunked") (hn : 0 < n) (env : HttpEnv) :
    complete .readHeaders none data env s = asyncOp (.readContent n)
      (if 0 < rest.length then
        pushContent rest { deliver .readHeaders data s with response := [] }
      else { deliver .readHeaders data s with response := rest }) := by
  have hheaders : httpHeaders (deliver .readHeaders data s).response =
      (transferEncoding, n, rest) := h
  have hne : ¬ (transferEncoding == ascii "chunked") = true := by simp [hplain]
  simp only [complete, handle, handleReadHeaders, hheaders, if_neg hne, if_pos hn, httpContent,
    read_ofBytes_self]
  exact if_neg (by simp [deliver, hstop])

theorem complete_readContent (hstop : s.stopped = false) (data : List Byte) (env : HttpEnv) :
    complete (.readContent n) none data env s = asyncOp (.readContent n)
      (pushContent (s.response ++ data)
        { deliver (.readContent n) data s with response := [] }) := by
  have hcontent : httpContent (deliver (.readContent n) data s).response.length
      (deliver (.readContent n) data s).response = (s.response ++ data, []) := by
    rw [httpContent, read_ofBytes_self]
    rfl
  simp only [complete, handle, handleReadContent, hcontent]
  exact if_neg (by simp [deliver, hstop])

theorem complete_readContent_error (hstop : s.stopped = false) (ec : ErrorCode) (data : List Byte)
    (env : HttpEnv) :
    complete (.readContent n) (some ec) data env s =
      if ec.isEof then finish (deliver (.readContent n) data s)
      else finishError ("handle_read_content: " ++ ec.message)
        (deliver (.readContent n) data s) :=
  if_neg (by simp [deliver, hstop])

theorem Reading.readHeaders_length (h : Reading [.readHeaders] body s)
    (hheaders : httpHeaders (s.response ++ data) = (transferEncoding, n, rest))
    (hplain : transferEncoding ≠ ascii "chunked") (hn : 0 < n) (env : HttpEnv) :
    Reading [.readContent n] (body ++ rest) (complete .readHeaders none data env s) ∧
      (complete .readHeaders none data env s).response = [] := by
  rw [complete_readHeaders_length h.stopped hheaders hplain hn]
  split_ifs with hlength
  · exact ⟨(((h.deliver data).setResponse []).pushContent rest).asyncOp _, rfl⟩
  · have hnil : rest = [] := List.eq_nil_of_length_eq_zero (Nat.eq_zero_of_not_pos hlength)
    rw [hnil, List.append_nil]
    exact ⟨((h.deliver data).setResponse []).asyncOp _, rfl⟩

theorem Reading.readContent (h : Reading [.readContent n] body s) (hresponse : s.response = [])
    (data : List Byte) (env : HttpEnv) :
    Reading [.readContent n] (body ++ data) (complete (.readContent n) none data env s) ∧
      (complete (.readContent n) none data env s).response = [] := by
  rw [complete_readContent h.stopped, hresponse, List.nil_append]
  exact ⟨(((h.deliver data).setResponse []).pushContent data).asyncOp _, rfl⟩

theorem Reading.readContent_eof (h : Reading [.readContent n] body s) {ec : ErrorCode}
    (hec : ec.isEof = true) (data : List Byte) (env : HttpEnv) :
    Concluded "" body (complete (.readContent n) (some ec) data env s) := by
  rw [complete_readContent_error h.stopped, if_pos hec]
  exact (h.deliver data).finish

theorem Reading.readContent_error (h : Reading [.readContent n] body s) {ec : ErrorCode}
    (hec : ec.isEof = false) (data : List Byte) (env : HttpEnv) :
    Concluded ("handle_read_content: " ++ ec.message) body
      (complete (.readContent n) (some ec) data env s) := by
  rw [complete_readContent_error h.stopped, if_neg (by simp [hec])]
  exact (h.deliver data).finishError _

/-- One result has been signalled, and a success only with the whole body, of the given length. -/
def WholeBody (n : ℕ) (stream : List Byte) (s : HttpClient) : Prop :=
  ∃ r, s.results = [r] ∧ (r.errMsg = "" →
    n ≤ stream.length ∧ r.contentLength = n ∧ r.content.flatten = stream.take n)

end HttpClient

namespace Connection

open HttpClient

variable {c : Connection} {op : SocketOp} {ec : Option ErrorCode}
  {body data stream rest transferEncoding : List Byte} {n : ℕ}

/-- How a read of the content returns: with bytes, at the end of the stream, or with an error. -/
theorem Returns.readContent_cases (h : c.Returns (.readContent n) ec data) :
    (ec = none ∧ 0 < data.length) ∨
      (∃ e : ErrorCode, ec = some e ∧ e.isEof = true ∧ c.unread = []) ∨
      ∃ e : ErrorCode, ec = some e ∧ e.isEof = false := by
  cases h with
  | inl h =>
      obtain ⟨-, cond, hcond, hcompletes⟩ := h
      cases hcond
      cases hcompletes with
      | atLeast _ hlength => exact Or.inl ⟨rfl, hlength⟩
      | @atLeastEof _ e hlength heof =>
          exact Or.inr (Or.inl ⟨e, rfl, heof, List.length_eq_zero_iff.1 (Nat.lt_one_iff.1 hlength)⟩)
  | inr h =>
      obtain ⟨-, -, e, he, heof⟩ := h
      exact Or.inr (Or.inr ⟨e, he, heof⟩)

theorem wholeBody_of_error {errMsg : String} {s : HttpClient} (h : Concluded errMsg body s)
    (hmsg : errMsg ≠ "") : WholeBody n stream s := by
  obtain ⟨r, hresults, hr, -⟩ := h.result
  refine ⟨r, hresults, ?_⟩
  intro hempty
  rw [hr] at hempty
  exact absurd hempty hmsg

/-- Success comes when the stream has been stored; the induction is on what is still to come. -/
theorem ends_wholeBody (hn : n < sizeMod) (hlength : stream.length = n)
    (hreading : Reading [.readContent n] body c.client) (hresponse : c.client.response = [])
    (hstream : body ++ c.unread = stream) : Ends Returns (WholeBody n stream) c := by
  induction hk : c.unread.length using Nat.strong_induction_on generalizing c body with
  | _ k ih =>
      apply Ends.step
      · exact exists_delivers hreading rfl
      · intro op ec data hreturns
        exact hreturns.throws_eq_false hreading (by simp)
      intro op ec data env hreturns
      have hop := hreturns.eq_of_reading hreading
      subst hop
      rcases hreturns.readContent_cases with ⟨rfl, hpos⟩ | ⟨e, rfl, heof, hend⟩ | ⟨e, rfl, heof⟩
      · obtain ⟨hreading', hresponse'⟩ := hreading.readContent hresponse data env
        obtain ⟨unread', hunread⟩ := hreturns.data_prefix
        have hafter : (c.after (.readContent n) none data env).unread = unread' := by
          rw [after, ← hunread, List.drop_left]
        have hshorter : unread'.length < k := by
          rw [← hk, ← hunread, List.length_append]
          omega
        apply ih unread'.length hshorter hreading' hresponse'
        · rw [hafter, List.append_assoc, hunread, hstream]
        · rw [hafter]
      · have hended := hreading.readContent_eof heof data env
        rw [hend, List.append_nil] at hstream
        obtain ⟨r, hresults, -, hcontent, hcount⟩ := hended.result
        rw [hstream] at hcontent hcount
        apply Ends.done hended.stopped
        refine ⟨r, hresults, ?_⟩
        intro _
        rw [hcount, hcontent, hlength, Nat.mod_eq_of_lt hn, ← hlength, List.take_length]
        exact ⟨le_rfl, rfl, rfl⟩
      · have hended := hreading.readContent_error heof data env
        exact .done hended.stopped (wholeBody_of_error hended (append_ne_empty (by decide) _))

/-- When all has been stored and the peer closes the connection, the client signals success. -/
theorem wholeBody_of_eof (h : Ends Returns (WholeBody n stream) c)
    (hreading : Reading [.readContent n] stream c.client) (hunread : c.unread = []) :
    stream.length = n := by
  let eof : ErrorCode := ⟨true, "End of file"⟩
  have hdelivers : c.Delivers (.readContent n) (some eof) c.unread :=
    ⟨by simp [hreading.pending], .atLeast 1, rfl, .atLeastEof (by simp [hunread]) rfl⟩
  have hended :
      Concluded "" stream (c.after (.readContent n) (some eof) c.unread ⟨0, true, 0⟩).client :=
    hreading.readContent_eof rfl c.unread ⟨0, true, 0⟩
  have hafter := h.after_of_running hreading.stopped (Or.inl hdelivers) ⟨0, true, 0⟩
  obtain ⟨r, hresults, hwhole⟩ := hafter.of_pending_eq_nil hended.pending
  obtain ⟨hmsg, hcontent, -⟩ := hended.of_results hresults
  obtain ⟨hle, -, htake⟩ := hwhole hmsg
  rw [hcontent] at htake
  have hlength := congrArg List.length htake
  rw [List.length_take_of_le hle] at hlength
  exact hlength

/-- The peer sends all at once and closes the connection. -/
theorem length_of_ends_wholeBody (h : Ends Returns (WholeBody n stream) c)
    (hreading : Reading [.readContent n] body c.client) (hresponse : c.client.response = [])
    (hstream : body ++ c.unread = stream) : stream.length = n := by
  cases hunread : c.unread with
  | nil =>
      rw [hunread, List.append_nil] at hstream
      rw [hstream] at hreading
      exact wholeBody_of_eof h hreading hunread
  | cons b bs =>
      have hpos : 1 ≤ c.unread.length := by simp [hunread]
      have hdelivers : c.Delivers (.readContent n) none c.unread :=
        ⟨by simp [hreading.pending], .atLeast 1, rfl, .atLeast List.prefix_rfl hpos⟩
      obtain ⟨hreading', -⟩ := hreading.readContent hresponse c.unread ⟨0, true, 0⟩
      rw [hstream] at hreading'
      have hafter := h.after_of_running hreading.stopped (Or.inl hdelivers) ⟨0, true, 0⟩
      apply wholeBody_of_eof hafter hreading'
      rw [after, List.drop_length]

/-- **Content-Length success means the whole body** exactly when the peer sends as many bytes as it
has announced before it closes the connection. -/
theorem ends_wholeBody_iff {endpoints : List ServerInfo} {messageId : String} {env : HttpEnv}
    {events : List HttpEvent} {s : HttpClient}
    (hrun : run (start env (new endpoints messageId)) events = some s) (hstop : s.stopped = false)
    (hpending : s.pending = [.readHeaders]) (data unread buf : List Byte)
    (hheaders : httpHeaders (s.response ++ data) = (transferEncoding, n, buf))
    (hplain : transferEncoding ≠ ascii "chunked") (hn : 0 < n) (env' : HttpEnv) :
    Ends Returns (WholeBody n (buf ++ unread)) ⟨s.complete .readHeaders none data env', unread⟩ ↔
      (buf ++ unread).length = n := by
  have hawaits := (awaitsHeaders_of_run hrun hstop hpending).reading
  obtain ⟨hreading, hresponse⟩ := hawaits.readHeaders_length hheaders hplain hn env'
  constructor
  · intro h
    exact length_of_ends_wholeBody h hreading hresponse rfl
  · intro hlength
    exact ends_wholeBody (length_lt_of_httpHeaders hheaders) hlength hreading hresponse rfl

/-- The peer closes the connection after two of five bytes, and the client signals success. -/
theorem not_ends_wholeBody_closedEarly : ∃ s, run readyClient readyEvents = some s ∧
    s.stopped = false ∧ s.pending = [.readHeaders] ∧
    httpHeaders (s.response ++ ascii "Content-Length: 5\r\n\r\nhe") = ([], 5, ascii "he") ∧
    ¬ Ends Returns (WholeBody 5 (ascii "he")) ⟨s.complete .readHeaders none
      (ascii "Content-Length: 5\r\n\r\nhe") ⟨3, true, 0⟩, []⟩ := by
  obtain ⟨s, hrun, hstop, hpending, hresponse⟩ := run_readyEvents
  have hheaders : httpHeaders (s.response ++ ascii "Content-Length: 5\r\n\r\nhe") =
      ([], 5, ascii "he") := by
    rw [hresponse]
    decide
  refine ⟨s, hrun, hstop, hpending, hheaders, ?_⟩
  intro hends
  have hawaits := (awaitsHeaders_of_run hrun hstop hpending).reading
  obtain ⟨hreading, hempty⟩ :=
    hawaits.readHeaders_length hheaders (by decide) (by decide) ⟨3, true, 0⟩
  have hlength := length_of_ends_wholeBody hends hreading hempty rfl
  exact absurd hlength (by decide)

theorem ends_wholeBody_iff_hello : ∃ s, run readyClient readyEvents = some s ∧
    Ends Returns (WholeBody 5 (ascii "hello")) ⟨s.complete .readHeaders none
      (ascii "Content-Length: 5\r\n\r\nhe") ⟨3, true, 0⟩, ascii "llo"⟩ := by
  obtain ⟨s, hrun, hstop, hpending, hresponse⟩ := run_readyEvents
  have hheaders : httpHeaders (s.response ++ ascii "Content-Length: 5\r\n\r\nhe") =
      ([], 5, ascii "he") := by
    rw [hresponse]
    decide
  have hiff := ends_wholeBody_iff hrun hstop hpending _ (ascii "llo") _ hheaders (by decide)
    (by decide) ⟨3, true, 0⟩
  exact ⟨s, hrun, hiff.2 (by decide)⟩

end Connection

end Miscellany
