import Mathlib.Data.List.Infix
import Mathlib.Data.UInt
import Miscellany.Library.Transition

/-!
# The echo client and server

`unixsock_client.c` and the process that `unixsock_server.c` forks for it, with the
two directions of the stream socket between them. A stream keeps the bytes in order
but not the limits of the messages: `recv` takes any number of the bytes that have
arrived, at least one and at most the 100 that `str` has room for. `send` is taken
to pass on the whole message, as it does on a blocking socket.

The client sends a line and waits for one `recv`. The echo of a line may come in
several pieces, so the client may be behind with what it shows. No byte is lost or
moved by that, but the pieces add up: `recv` can fill `str`, and the client then
writes the final zero behind it.

The parent process never closes the socket of the client, so `recv` in the client
never returns zero.
-/

namespace Miscellany

namespace UnixSock

abbrev Bytes := List UInt8

/-- `fgets` with room for `n` bytes and the zero behind them, followed by `feof`: the line and
the rest of the input, or `none` at the end of the input. A last line without a newline is lost. -/
def fgets : ℕ → Bytes → Option (Bytes × Bytes)
  | 0, input => some ([], input)
  | _ + 1, [] => none
  | n + 1, b :: input =>
      if b = 10 then some ([b], input)
      else (fgets n input).map fun r => (b :: r.1, r.2)

/-- What the client sends for a line: the bytes before the newline and before the first zero. -/
def message (line : Bytes) : Bytes := line.takeWhile fun b => b ≠ 10 ∧ b ≠ 0

/-- The messages of an input of at most `fuel` bytes. -/
def messagesFrom : ℕ → Bytes → List Bytes
  | 0, _ => []
  | fuel + 1, input =>
      match fgets 99 input with
      | none => []
      | some (line, rest) => message line :: messagesFrom fuel rest

/-- The messages that the client sends for an input, if every echo comes. -/
def messages (input : Bytes) : List Bytes := messagesFrom input.length input

/-- Where the client is. -/
inductive ClientPc where
  /-- Before `fgets`. -/
  | typing
  /-- In `recv`. -/
  | waiting
  /-- Behind the write of the zero at `str[100]`, outside of the array. -/
  | overrun
  /-- The end of the input. -/
  | closed
deriving DecidableEq

/-- Where the process of the server is. -/
inductive ServerPc where
  | receiving
  | sending (str : Bytes)
  | exited
deriving DecidableEq

/-- The two processes and the bytes on their way. `sent` and `shown` are what the client has sent
and what it has received and printed so far; no operation reads them. -/
structure Echo where
  stdin : Bytes
  client : ClientPc
  server : ServerPc
  toServer : Bytes
  toClient : Bytes
  sent : List Bytes
  shown : List Bytes
deriving DecidableEq

inductive Action where
  /-- The client reads a line and sends it. -/
  | type
  /-- `recv` in the client gives `n` bytes. -/
  | echo (n : ℕ)
  /-- `recv` in the server gives `n` bytes. -/
  | take (n : ℕ)
  /-- The server sends what it has received. -/
  | reply
  /-- `recv` in the server gives zero. -/
  | hangUp
deriving DecidableEq

namespace Echo

def start (input : Bytes) : Echo where
  stdin := input
  client := .typing
  server := .receiving
  toServer := []
  toClient := []
  sent := []
  shown := []

/-- The effect of an action; `none` is an action that is not possible. -/
def step (s : Echo) : Action → Option Echo
  | .type =>
      if s.client = .typing then
        match fgets 99 s.stdin with
        | none => some { s with client := .closed }
        | some (line, rest) => some { s with
            stdin := rest
            client := .waiting
            toServer := s.toServer ++ message line
            sent := s.sent ++ [message line] }
      else none
  | .echo n =>
      if s.client = .waiting ∧ 0 < n ∧ n ≤ 100 ∧ n ≤ s.toClient.length then some { s with
        client := if n < 100 then .typing else .overrun
        toClient := s.toClient.drop n
        shown := s.shown ++ [s.toClient.take n] }
      else none
  | .take n =>
      if s.server = .receiving ∧ 0 < n ∧ n ≤ 100 ∧ n ≤ s.toServer.length then some { s with
        server := .sending (s.toServer.take n)
        toServer := s.toServer.drop n }
      else none
  | .reply =>
      match s.server with
      | .sending str =>
          -- `send` fails when the client has closed the socket
          if s.client = .closed then some { s with server := .exited }
          else some { s with server := .receiving, toClient := s.toClient ++ str }
      | _ => none
  | .hangUp =>
      if s.server = .receiving ∧ s.client = .closed ∧ s.toServer = [] then
        some { s with server := .exited }
      else none

/-- The runs of the two processes. -/
abbrev Run : Echo → List (Echo × Action) → Echo → Prop :=
  Trace fun s a t => s.step a = some t

/-- What the server holds between `recv` and `send`. -/
def held (s : Echo) : Bytes :=
  match s.server with
  | .sending str => str
  | _ => []

end Echo

/-! ### The lines of the input -/

theorem fgets_eq_append {n : ℕ} {input line rest : Bytes} (h : fgets n input = some (line, rest)) :
    input = line ++ rest := by
  fun_induction fgets n input generalizing line with
  | case1 input =>
      cases h
      rfl
  | case2 => cases h
  | case3 n input =>
      cases h
      rfl
  | case4 n b input hb ih =>
      obtain ⟨⟨line, rest⟩, hfgets, heq⟩ := Option.map_eq_some_iff.1 h
      cases heq
      rw [ih hfgets, List.cons_append]

theorem length_fgets_le {n : ℕ} {input line rest : Bytes} (h : fgets n input = some (line, rest)) :
    line.length ≤ n := by
  fun_induction fgets n input generalizing line with
  | case1 input =>
      cases h
      exact Nat.zero_le _
  | case2 => cases h
  | case3 n input =>
      cases h
      simp
  | case4 n b input hb ih =>
      obtain ⟨⟨line, rest⟩, hfgets, heq⟩ := Option.map_eq_some_iff.1 h
      cases heq
      exact Nat.succ_le_succ (ih hfgets)

theorem length_rest_lt {n : ℕ} {input line rest : Bytes}
    (h : fgets (n + 1) input = some (line, rest)) : rest.length < input.length := by
  have hne : line ≠ [] := by
    cases input with
    | nil => cases h
    | cons b input =>
        rw [fgets] at h
        split_ifs at h
        · cases h
          simp
        · obtain ⟨r, -, heq⟩ := Option.map_eq_some_iff.1 h
          cases heq
          simp
  have hpos := List.length_pos_of_ne_nil hne
  rw [fgets_eq_append h, List.length_append]
  omega

theorem messagesFrom_eq {fuel fuel' : ℕ} {input : Bytes} (hfuel : input.length ≤ fuel)
    (hfuel' : input.length ≤ fuel') : messagesFrom fuel input = messagesFrom fuel' input := by
  induction fuel generalizing fuel' input with
  | zero =>
      obtain rfl : input = [] := List.eq_nil_of_length_eq_zero (Nat.le_zero.1 hfuel)
      cases fuel' <;> rfl
  | succ fuel ih =>
      cases fuel' with
      | zero =>
          obtain rfl : input = [] := List.eq_nil_of_length_eq_zero (Nat.le_zero.1 hfuel')
          rfl
      | succ fuel' =>
          rw [messagesFrom, messagesFrom]
          cases h : fgets 99 input with
          | none => rfl
          | some r =>
              have hlt := length_rest_lt h
              exact congrArg _ (ih (by omega) (by omega))

theorem messages_of_eof {input : Bytes} (h : fgets 99 input = none) : messages input = [] := by
  cases input with
  | nil => rfl
  | cons b input => simp [messages, messagesFrom, h]

theorem messages_cons {input line rest : Bytes} (h : fgets 99 input = some (line, rest)) :
    messages input = message line :: messages rest := by
  have hlt := length_rest_lt h
  cases input with
  | nil => cases h
  | cons b input =>
      rw [messages, List.length_cons, messagesFrom, h, messages]
      exact congrArg _ (messagesFrom_eq (Nat.le_of_lt_succ hlt) le_rfl)

/-! ### What every state satisfies -/

namespace Echo

variable {s t : Echo} {a : Action} {input : Bytes} {steps : List (Echo × Action)}

/-- The bytes that have been sent are those that have been shown and, in this order, those that
come back, those that the server holds and those on their way to it. -/
structure Inv (input : Bytes) (s : Echo) : Prop where
  input : messages input = s.sent ++ messages s.stdin
  closed : s.client = .closed → messages s.stdin = []
  flow : s.client ≠ .closed →
    s.sent.flatten = s.shown.flatten ++ s.toClient ++ s.held ++ s.toServer
  shown : s.shown.flatten <+: s.sent.flatten
  busy : s.server ≠ .sending []
  exited : s.server = .exited → s.client = .closed

theorem inv_start (input : Bytes) : Inv input (start input) := by
  refine ⟨rfl, ?_, ?_, List.prefix_refl _, ?_, ?_⟩ <;> simp [start, held]

theorem Inv.step (h : Inv input s) (hstep : s.step a = some t) : Inv input t := by
  cases a with
  | type =>
      rw [Echo.step] at hstep
      split_ifs at hstep with htyping
      split at hstep
      · rename_i heof
        cases hstep
        exact ⟨h.input, fun _ => messages_of_eof heof, fun hc => absurd rfl hc, h.shown, h.busy,
          fun _ => rfl⟩
      · rename_i line rest hline
        cases hstep
        have hflow := h.flow (by simp [htyping])
        refine ⟨?_, nofun, fun _ => ?_, ?_, h.busy, fun he => ?_⟩
        · simp [h.input, messages_cons hline]
        · simp [hflow, held]
        · simpa using h.shown.trans (List.prefix_append _ _)
        · exact absurd (h.exited he) (by simp [htyping])
  | echo n =>
      by_cases hn : s.client = .waiting ∧ 0 < n ∧ n ≤ 100 ∧ n ≤ s.toClient.length
      · rw [Echo.step, if_pos hn] at hstep
        cases hstep
        have hflow := h.flow (by simp [hn.1])
        have heq : s.sent.flatten = (s.shown ++ [s.toClient.take n]).flatten ++
            s.toClient.drop n ++ s.held ++ s.toServer := by
          rw [hflow, List.flatten_append, List.flatten_singleton,
            List.append_assoc s.shown.flatten (s.toClient.take n), List.take_append_drop]
        refine ⟨h.input, fun hc => ?_, fun _ => heq, ?_, h.busy, fun he => ?_⟩
        · by_cases hlt : n < 100 <;> simp [hlt] at hc
        · simp only [heq, List.append_assoc]
          exact List.prefix_append _ _
        · exact absurd (h.exited he) (by simp [hn.1])
      · rw [Echo.step, if_neg hn] at hstep
        cases hstep
  | take n =>
      rw [Echo.step] at hstep
      split_ifs at hstep with hn
      cases hstep
      refine ⟨h.input, h.closed, fun hc => ?_, h.shown, fun hb => ?_, nofun⟩
      · simp [h.flow hc, held, hn.1]
      · have hnil := congrArg List.length (ServerPc.sending.inj hb)
        rw [List.length_take, List.length_nil] at hnil
        omega
  | reply =>
      rw [Echo.step] at hstep
      split at hstep
      · rename_i str hstr
        split_ifs at hstep with hc
        · cases hstep
          exact ⟨h.input, h.closed, fun hc' => absurd hc hc', h.shown, nofun, fun _ => hc⟩
        · cases hstep
          refine ⟨h.input, h.closed, fun _ => ?_, h.shown, nofun, nofun⟩
          simp [h.flow hc, held, hstr]
      · cases hstep
  | hangUp =>
      rw [Echo.step] at hstep
      split_ifs at hstep with hc
      cases hstep
      exact ⟨h.input, h.closed, fun hc' => absurd hc.2.1 hc', h.shown, nofun, fun _ => hc.2.1⟩

theorem Run.inv (hrun : Run s steps t) (h : Inv input s) : Inv input t :=
  Trace.invariant hrun h fun _ _ _ h => h.step

/-- In every run, whatever the pieces in which the bytes arrive, the client shows the bytes of the
messages of the input in their order, none of them twice, and none is lost. -/
theorem run_integrity (hrun : Run (start input) steps t) :
    t.sent <+: messages input ∧ t.shown.flatten <+: t.sent.flatten ∧
      (t.client = .closed → t.sent = messages input) ∧
      (t.client ≠ .closed →
        t.sent.flatten = t.shown.flatten ++ t.toClient ++ t.held ++ t.toServer) := by
  have h := hrun.inv (inv_start input)
  refine ⟨?_, h.shown, fun hc => ?_, h.flow⟩
  · rw [h.input]
    exact List.prefix_append _ _
  · rw [h.input, h.closed hc, List.append_nil]

/-- The line `hi` and its echo, in two pieces for the server. -/
theorem run_integrity_hi : ∃ steps t, Run (start [104, 105, 10]) steps t ∧ t.client = .closed ∧
    t.sent = messages [104, 105, 10] := by
  have hrun : Run (start [104, 105, 10]) _ _ :=
    .snoc (a := .type) (.snoc (a := .echo 2) (.snoc (a := .reply) (.snoc (a := .take 1)
      (.snoc (a := .reply) (.snoc (a := .take 1) (.snoc (a := .type)
        .nil rfl) rfl) rfl) rfl) rfl) rfl) rfl
  exact ⟨_, _, hrun, rfl, (run_integrity hrun).2.2.1 rfl⟩

/-! ### Waiting for ever -/

/-- Neither process can go on. -/
def Stuck (s : Echo) : Prop := ∀ a, s.step a = none

/-- A server that cannot go on waits for bytes, or has exited. -/
theorem Inv.server_of_stuck (h : Inv input s) (hstuck : s.Stuck) :
    s.server = .receiving ∧ s.toServer = [] ∧ s.client ≠ .closed ∨
      s.server = .exited ∧ s.client = .closed := by
  cases hserver : s.server with
  | receiving =>
      have hempty : s.toServer = [] := by
        by_contra hne
        have hpos := List.length_pos_of_ne_nil hne
        have htake := hstuck (.take 1)
        rw [Echo.step, if_pos ⟨hserver, by omega, by omega, hpos⟩] at htake
        cases htake
      refine .inl ⟨rfl, hempty, fun hc => ?_⟩
      have hhang := hstuck .hangUp
      rw [Echo.step, if_pos ⟨hserver, hc, hempty⟩] at hhang
      cases hhang
  | sending str =>
      have hreply := hstuck .reply
      rw [Echo.step, hserver] at hreply
      simp only at hreply
      split_ifs at hreply
  | exited => exact .inr ⟨rfl, h.exited hserver⟩

theorem Inv.shown_eq_of_stuck (h : Inv input s) (hstuck : s.Stuck) (hc : s.client = .waiting) :
    s.shown.flatten = s.sent.flatten := by
  rcases h.server_of_stuck hstuck with ⟨hserver, hempty, -⟩ | ⟨-, hc'⟩
  · have hback : s.toClient = [] := by
      by_contra hne
      have hpos := List.length_pos_of_ne_nil hne
      have hecho := hstuck (.echo 1)
      rw [Echo.step, if_pos ⟨hc, by omega, by omega, hpos⟩] at hecho
      cases hecho
    simp [h.flow (by simp [hc]), held, hserver, hempty, hback]
  · rw [hc] at hc'
    cases hc'

theorem Inv.stuck_of_shown_eq (h : Inv input s) (hc : s.client = .waiting)
    (heq : s.shown.flatten = s.sent.flatten) : s.Stuck := by
  have hflow := h.flow (by simp [hc])
  rw [← heq, List.append_assoc, List.append_assoc, List.self_eq_append_right,
    List.append_eq_nil_iff, List.append_eq_nil_iff] at hflow
  obtain ⟨hback, hheld, hempty⟩ := hflow
  have hserver : ∀ str, s.server ≠ .sending str := by
    intro str hstr
    rw [held, hstr] at hheld
    exact h.busy (hheld ▸ hstr)
  intro a
  cases a with
  | type => simp [Echo.step, hc]
  | echo n =>
      rw [Echo.step, if_neg]
      rintro ⟨-, hpos, -, hle⟩
      rw [hback, List.length_nil] at hle
      omega
  | take n =>
      rw [Echo.step, if_neg]
      rintro ⟨-, hpos, -, hle⟩
      rw [hempty, List.length_nil] at hle
      omega
  | reply =>
      rw [Echo.step]
      split
      · rename_i str hstr
        exact absurd hstr (hserver str)
      · rfl
  | hangUp => simp [Echo.step, hc]

/-- Without a client that types or waits, only the server can go on. -/
theorem stuck_of_server (hc : s.client = .closed ∧ s.server = .exited ∨
    s.client = .overrun ∧ s.server = .receiving ∧ s.toServer = []) : s.Stuck := by
  intro a
  rcases hc with ⟨hc, hserver⟩ | ⟨hc, hserver, hempty⟩
  · cases a <;> simp [Echo.step, hc, hserver]
  · cases a with
    | take n =>
        rw [Echo.step, if_neg]
        rintro ⟨-, hpos, -, hle⟩
        rw [hempty, List.length_nil] at hle
        omega
    | _ => simp [Echo.step, hc, hserver]

/-- The processes stop for good at the end of the input, after a write outside of `str`, or when
the client waits for an echo and everything has been shown already. -/
theorem Inv.stuck_iff (h : Inv input s) :
    s.Stuck ↔ (s.client = .waiting ∧ s.shown.flatten = s.sent.flatten) ∨
      (s.client = .closed ∧ s.server = .exited) ∨
      (s.client = .overrun ∧ s.server = .receiving ∧ s.toServer = []) := by
  constructor
  · intro hstuck
    have hserver := h.server_of_stuck hstuck
    cases hc : s.client with
    | typing =>
        have htype := hstuck .type
        rw [Echo.step, if_pos hc] at htype
        split at htype <;> cases htype
    | waiting => exact .inl ⟨rfl, h.shown_eq_of_stuck hstuck hc⟩
    | overrun =>
        rcases hserver with ⟨hserver, hempty, -⟩ | ⟨-, hc'⟩
        · exact .inr (.inr ⟨rfl, hserver, hempty⟩)
        · rw [hc] at hc'
          cases hc'
    | closed =>
        rcases hserver with ⟨-, -, hc'⟩ | ⟨hserver, -⟩
        · exact absurd hc hc'
        · exact .inr (.inl ⟨rfl, hserver⟩)
  · rintro (⟨hc, heq⟩ | hend)
    · exact h.stuck_of_shown_eq hc heq
    · exact stuck_of_server hend

/-- What one step does to the client: it goes on waiting, it sends a message, or it is not waiting
any more. -/
theorem step_waiting (hstep : s.step a = some t) (hc : t.client = .waiting) :
    (s.client = .waiting ∧ t.sent = s.sent ∧ t.shown = s.shown ∧ t.stdin = s.stdin) ∨
      ∃ line rest, a = .type ∧ fgets 99 s.stdin = some (line, rest) ∧
        t.sent = s.sent ++ [message line] ∧ t.shown = s.shown := by
  cases a with
  | type =>
      rw [Echo.step] at hstep
      split_ifs at hstep
      split at hstep
      · cases hstep
        cases hc
      · rename_i line rest hline
        cases hstep
        exact .inr ⟨line, rest, rfl, hline, rfl, rfl⟩
  | echo n =>
      by_cases hn : s.client = .waiting ∧ 0 < n ∧ n ≤ 100 ∧ n ≤ s.toClient.length
      · rw [Echo.step, if_pos hn] at hstep
        cases hstep
        by_cases hlt : n < 100 <;> simp [hlt] at hc
      · rw [Echo.step, if_neg hn] at hstep
        cases hstep
  | take n =>
      rw [Echo.step] at hstep
      split_ifs at hstep
      cases hstep
      exact .inl ⟨hc, rfl, rfl, rfl⟩
  | reply =>
      rw [Echo.step] at hstep
      split at hstep
      · split_ifs at hstep <;> cases hstep <;> exact .inl ⟨hc, rfl, rfl, rfl⟩
      · cases hstep
  | hangUp =>
      rw [Echo.step] at hstep
      split_ifs at hstep
      cases hstep
      exact .inl ⟨hc, rfl, rfl, rfl⟩

/-- A client that waits for the echo of a line that is not empty has not been shown everything. -/
theorem Run.shown_lt (hrun : Run (start input) steps t) (hne : ∀ m ∈ messages input, m ≠ [])
    (hc : t.client = .waiting) : t.shown.flatten.length < t.sent.flatten.length := by
  induction hrun with
  | nil => cases hc
  | @snoc steps t u a hrun hstep ih =>
      have h := Run.inv hrun (inv_start input)
      rcases step_waiting hstep hc with ⟨hc', hsent, hshown, -⟩ |
        ⟨line, rest, -, hline, hsent, hshown⟩
      · rw [hsent, hshown]
        exact ih hc'
      · have hmem : message line ∈ messages input := by
          rw [h.input, messages_cons hline]
          simp
        have hpos := List.length_pos_of_ne_nil (hne _ hmem)
        have hle := h.shown.length_le
        rw [hsent, hshown, List.flatten_append, List.length_append, List.flatten_singleton]
        omega

/-- The client waits for ever exactly when it has sent an empty line with nothing left to come
back, and never if all lines are not empty. -/
theorem run_stuck_iff (hrun : Run (start input) steps t) :
    (t.Stuck ↔ (t.client = .waiting ∧ t.shown.flatten = t.sent.flatten) ∨
      (t.client = .closed ∧ t.server = .exited) ∨
      (t.client = .overrun ∧ t.server = .receiving ∧ t.toServer = [])) ∧
    ((∀ m ∈ messages input, m ≠ []) → t.Stuck → t.client ≠ .waiting) := by
  have h := hrun.inv (inv_start input)
  refine ⟨h.stuck_iff, fun hne hstuck hc => ?_⟩
  have hlt := hrun.shown_lt hne hc
  rcases h.stuck_iff.1 hstuck with ⟨-, heq⟩ | ⟨hc', -⟩ | ⟨hc', -⟩
  · rw [heq] at hlt
    exact lt_irrefl _ hlt
  · rw [hc] at hc'
    cases hc'
  · rw [hc] at hc'
    cases hc'

/-- An empty line stops both processes. -/
theorem run_stuck_newline :
    ∃ steps t, Run (start [10]) steps t ∧ t.client = .waiting ∧ t.Stuck := by
  have hrun : Run (start [10]) _ _ := .snoc (a := .type) .nil rfl
  exact ⟨_, _, hrun, rfl, (run_stuck_iff hrun).1.2 (.inl ⟨rfl, rfl⟩)⟩

/-! ### The array of the client -/

/-- The client is shown everything before it sends the next line. -/
def CaughtUp (x : Echo × Action) : Prop :=
  x.2 = .type → x.1.shown.flatten = x.1.sent.flatten

theorem length_message_le {line rest : Bytes} (h : fgets 99 input = some (line, rest)) :
    (message line).length ≤ 99 :=
  ((List.takeWhile_prefix _).length_le).trans (length_fgets_le h)

theorem Run.sent_le (hrun : Run (start input) steps t) (hup : ∀ x ∈ steps, CaughtUp x)
    (hc : t.client = .waiting) : t.sent.flatten.length ≤ t.shown.flatten.length + 99 := by
  induction hrun with
  | nil => cases hc
  | @snoc steps t u a hrun hstep ih =>
      rcases step_waiting hstep hc with ⟨hc', hsent, hshown, -⟩ |
        ⟨line, rest, rfl, hline, hsent, hshown⟩
      · rw [hsent, hshown]
        exact ih (fun x hx => hup x (List.mem_append_left _ hx)) hc'
      · have heq : t.shown.flatten = t.sent.flatten := hup (t, .type) (by simp) rfl
        have hle := length_message_le hline
        rw [hsent, hshown, List.flatten_append, List.length_append, List.flatten_singleton, heq]
        omega

/-- As long as every echo comes whole, the client does not write outside of `str`. -/
theorem run_no_overrun (hrun : Run (start input) steps t) (hup : ∀ x ∈ steps, CaughtUp x) :
    t.client ≠ .overrun := by
  induction hrun with
  | nil => nofun
  | @snoc steps t u a hrun hstep ih =>
      have hup' : ∀ x ∈ steps, CaughtUp x := fun x hx => hup x (List.mem_append_left _ hx)
      have hclient := ih hup'
      cases a with
      | type =>
          rw [Echo.step] at hstep
          split_ifs at hstep
          split at hstep <;> cases hstep <;> nofun
      | echo n =>
          by_cases hn : t.client = .waiting ∧ 0 < n ∧ n ≤ 100 ∧ n ≤ t.toClient.length
          · have hlag := Run.sent_le hrun hup' hn.1
            have hflow := congrArg List.length
              ((Run.inv hrun (inv_start input)).flow (by simp [hn.1]))
            have hlt : n < 100 := by
              simp only [List.length_append] at hflow
              omega
            rw [Echo.step, if_pos hn, if_pos hlt] at hstep
            cases hstep
            nofun
          · rw [Echo.step, if_neg hn] at hstep
            cases hstep
      | take n =>
          rw [Echo.step] at hstep
          split_ifs at hstep
          cases hstep
          exact hclient
      | reply =>
          rw [Echo.step] at hstep
          split at hstep
          · split_ifs at hstep <;> cases hstep <;> exact hclient
          · cases hstep
      | hangUp =>
          rw [Echo.step] at hstep
          split_ifs at hstep
          cases hstep
          exact hclient

/-- Two lines, each of which comes back whole. -/
theorem run_no_overrun_hi :
    ∃ steps t, Run (start [104, 105, 10, 121, 111, 10]) steps t ∧
      t.sent = [[104, 105], [121, 111]] ∧ t.client ≠ .overrun := by
  have hrun : Run (start [104, 105, 10, 121, 111, 10]) _ _ :=
    .snoc (a := .echo 2) (.snoc (a := .reply) (.snoc (a := .take 2) (.snoc (a := .type)
      (.snoc (a := .echo 2) (.snoc (a := .reply) (.snoc (a := .take 2)
        (.snoc (a := .type) .nil rfl) rfl) rfl) rfl) rfl) rfl) rfl) rfl
  refine ⟨_, _, hrun, rfl, run_no_overrun hrun fun x hx => ?_⟩
  simp only [List.nil_append, List.cons_append, List.mem_cons, List.not_mem_nil, or_false] at hx
  rcases hx with rfl | rfl | rfl | rfl | rfl | rfl | rfl | rfl
  · intro _
    rfl
  · nofun
  · nofun
  · nofun
  · intro _
    rfl
  · nofun
  · nofun
  · nofun

set_option maxRecDepth 4000 in
/-- Two lines of 99 bytes, the first of which comes back in two pieces. -/
theorem exists_overrun :
    ∃ steps t, Run (start (List.replicate 198 97)) steps t ∧ t.client = .overrun := by
  have hrun : Run (start (List.replicate 198 97)) _ _ :=
    .snoc (a := .echo 100) (.snoc (a := .reply) (.snoc (a := .take 99) (.snoc (a := .type)
      (.snoc (a := .echo 1) (.snoc (a := .reply) (.snoc (a := .take 99)
        (.snoc (a := .type) .nil rfl) rfl) rfl) rfl) rfl) rfl) rfl) rfl
  exact ⟨_, _, hrun, rfl⟩

end Echo

end UnixSock

end Miscellany
