import Miscellany.Http.Chunked

/-!
# Waiting for a chunk

When a size line has been read, the client waits for the bytes that the chunk and its line
end still lack. Their number is a difference of values of the type `size_t`, which is stored
in an `int` and not below zero. It is right as long as it is less than `2 ^ 31`; a larger one
loses its upper bits, and then the read of the chunk completes before the chunk is there.
-/

namespace Miscellany

open InputStream

namespace HttpClient

/-- However the outstanding read of the chunk completes without an error, the whole chunk is then
buffered with its line end, and the handler takes the number of bytes that the buffer is made
for. -/
def WaitsForChunk (s : HttpClient) (chunkSize remaining : ℕ) : Prop :=
  ∀ unread data, Connection.Delivers ⟨s, unread⟩ (.readChunkData chunkSize remaining) none data →
    chunkSize + 2 ≤ (s.response ++ data).length ∧
      (httpChunkData chunkSize (s.response ++ data)).1.length = chunkSize

variable {s : HttpClient} {data rest : List Byte} {n r : ℕ}

/-- The bytes asked for and those buffered are enough exactly if fewer than `2 ^ 31` are missing. -/
theorem le_add_remaining_iff (n size : ℕ) :
    n + 2 ≤ size + remaining n size ↔ n + 2 < size + 2 ^ 31 := by
  unfold remaining sizeMod
  dsimp only
  split <;> omega

theorem length_httpChunkData (h : n ≤ data.length) : (httpChunkData n data).1.length = n := by
  have hsplit := read_ofBytes_append (data.take n) (data.drop n)
  have hlength : (data.take n).length = n := by
    rw [List.length_take]
    exact Nat.min_eq_left h
  rw [List.take_append_drop, hlength] at hsplit
  rw [httpChunkData, hsplit]
  exact hlength

/-- A read of the chunk that completes without an error has taken the number of bytes asked for. -/
theorem length_of_delivers {unread : List Byte}
    (h : Connection.Delivers ⟨s, unread⟩ (.readChunkData n r) none data) : data.length = r := by
  obtain ⟨-, cond, hcond, hcompletes⟩ := h
  obtain rfl := Option.some.inj hcond
  cases hcompletes with
  | exactly hdata hlength => exact hlength

/-- The read of the chunk can complete without an error. -/
theorem delivers_replicate (hpending : .readChunkData n r ∈ s.pending) :
    Connection.Delivers ⟨s, List.replicate r 0⟩ (.readChunkData n r) none
      (List.replicate r 0) :=
  ⟨hpending, .exactly r, rfl, .exactly List.prefix_rfl List.length_replicate⟩

theorem waitsForChunk_iff_le (hpending : .readChunkData n r ∈ s.pending) :
    WaitsForChunk s n r ↔ n + 2 ≤ s.response.length + r := by
  constructor
  · intro hwaits
    have hle := (hwaits _ _ (delivers_replicate hpending)).1
    rw [List.length_append, List.length_replicate] at hle
    exact hle
  · intro hle unread data hdelivers
    have hlength : (s.response ++ data).length = s.response.length + r := by
      rw [List.length_append, length_of_delivers hdelivers]
    refine ⟨?_, length_httpChunkData ?_⟩
    · rw [hlength]
      exact hle
    · omega

/-- When a size line with a size other than zero has been read, the client waits for the whole chunk
exactly if fewer than `2 ^ 31` bytes of it and its line end are missing. -/
theorem waitsForChunk_iff (hstop : s.stopped = false)
    (hsize : httpChunkSize (s.response ++ data) = (n, rest)) (hn : 0 < n) (env : HttpEnv) :
    (complete .readChunkSize none data env s).response = rest ∧
      .readChunkData n (remaining n rest.length) ∈
        (complete .readChunkSize none data env s).pending ∧
      (WaitsForChunk (complete .readChunkSize none data env s) n (remaining n rest.length) ↔
        n + 2 < rest.length + 2 ^ 31) := by
  rw [complete_readChunkSize hstop hsize hn]
  have hpending : .readChunkData n (remaining n rest.length) ∈
      (asyncOp (.readChunkData n (remaining n rest.length))
        { deliver .readChunkSize data s with response := rest }).pending := by
    simp [asyncOp]
  refine ⟨rfl, hpending, ?_⟩
  rw [waitsForChunk_iff_le hpending]
  exact le_add_remaining_iff n rest.length

/-- The events up to the headers of a chunked body. -/
def chunkedEvents : List HttpEvent :=
  readyEvents ++
    [.completed .readHeaders none (ascii "Transfer-Encoding: chunked\r\n\r\n") ⟨3, true, 0⟩]

theorem waitsForChunk_small : ∃ s, run readyClient chunkedEvents = some s ∧
    WaitsForChunk (complete .readChunkSize none (ascii "5\r\nab") ⟨4, true, 0⟩ s) 5
      (remaining 5 (ascii "ab").length) := by
  have hready : ∃ s, run readyClient chunkedEvents = some s ∧ s.stopped = false ∧
      s.response = [] := ⟨_, rfl, by decide, by decide⟩
  obtain ⟨s, hrun, hstop, hresponse⟩ := hready
  have hsize : httpChunkSize (s.response ++ ascii "5\r\nab") = (5, ascii "ab") := by
    rw [hresponse]
    decide
  refine ⟨s, hrun, ?_⟩
  exact (waitsForChunk_iff hstop hsize (by decide) ⟨4, true, 0⟩).2.2.2 (by decide)

/-- A chunk of `2 ^ 31` bytes: the client waits for no bytes at all, and gives up. -/
theorem not_waitsForChunk_huge :
    ∃ s, run readyClient (chunkedEvents ++
        [.completed .readChunkSize none (ascii "80000000\r\n") ⟨4, true, 0⟩]) = some s ∧
      s.stopped = false ∧ s.response = [] ∧ s.pending = [.readChunkData (2 ^ 31) 0] ∧
      ¬ WaitsForChunk s (2 ^ 31) 0 ∧
      (complete (.readChunkData (2 ^ 31) 0) none [] ⟨5, true, 0⟩ s).stopped = true := by
  refine ⟨_, rfl, by decide, by decide, by decide, ?_, by decide⟩
  rw [waitsForChunk_iff_le (by decide)]
  decide

end HttpClient

end Miscellany
