import Mathlib.Algebra.Order.Ring.Int
import Mathlib.Logic.Function.Basic
import Miscellany.Library.Transition

/-!
# The connections of the server

`inet_server.c`: `main` accepts connections, and a timer starts `timer_handler` in a thread of its
own, which closes the connections that are older than `FD_AGE` seconds. The two share the array
`fds`, and take the mutex `mtx` for it; but `accept` is called without the mutex, so a number that
the handler has just closed can come back from `accept` before the handler has cleared its entry.

The state has the times in `fds`, and what each descriptor is open for. A run is any order of the
steps of `main`, of any number of handlers and of the clock. `close` fails on a descriptor that is
not open, and on no other. A call of `accept` that fails changes nothing. The two threads that read
only read `con_fd`, and are left out.
-/

namespace Miscellany

namespace InetServer

def maxFd : ℕ := 1024

def fdAge : ℤ := 20

/-- What a descriptor is open for. -/
inductive Descriptor where
  | closed
  /-- The program has opened it by itself, such as `listen_fd`. -/
  | own
  /-- A connection that has been accepted at a time. -/
  | connection (accepted : ℤ)
deriving DecidableEq

/-- Where `main` is. -/
inductive MainPc where
  /-- In `accept`. -/
  | accepting
  /-- Before the close of a descriptor above `MAX_FD`. -/
  | refusing (fd : ℕ)
  /-- Before the entry of `fds` is written. -/
  | accepted (fd : ℕ)
deriving DecidableEq

/-- Who has locked `mtx`, and where in its critical section it is. -/
inductive Inside where
  | nobody
  | main
  /-- A handler with the time `now` of its call, at the head of the loop. -/
  | sweeping (now : ℤ) (i : ℕ)
  /-- A handler that has closed `i` and has not cleared its entry. -/
  | clearing (now : ℤ) (i : ℕ)
deriving DecidableEq

structure Server where
  now : ℤ
  fds : ℕ → ℤ
  descriptor : ℕ → Descriptor
  main : MainPc
  inside : Inside
  /-- The times of the handlers that wait for `mtx`. -/
  waiting : List ℤ

inductive Action where
  /-- The time goes on. -/
  | clock
  | accept (fd : ℕ)
  | refuse
  | lock
  /-- `main` writes the entry and unlocks `mtx`. -/
  | store
  /-- The timer starts a handler. -/
  | tick
  | handlerLock
  /-- The handler goes on to the next entry. -/
  | skip
  | close
  | closeFails
  | clear
  | handlerUnlock
deriving DecidableEq

/-- The test of `timer_handler`, which was called at `now`. -/
def Old (now tm : ℤ) : Prop := 0 < tm ∧ tm + fdAge < now

instance (now tm : ℤ) : Decidable (Old now tm) := inferInstanceAs (Decidable (_ ∧ _))

namespace Server

open Function (update)

inductive Step : Server → Action → Server → Prop where
  | clock {s : Server} {now : ℤ} (h : s.now ≤ now) : Step s .clock { s with now := now }
  | accept {s : Server} {fd : ℕ} (hmain : s.main = .accepting) (hfd : s.descriptor fd = .closed) :
      Step s (.accept fd) { s with
        descriptor := update s.descriptor fd (.connection s.now)
        main := if maxFd < fd then .refusing fd else .accepted fd }
  | refuse {s : Server} {fd : ℕ} (hmain : s.main = .refusing fd) :
      Step s .refuse { s with
        descriptor := update s.descriptor fd .closed
        main := .accepting }
  | lock {s : Server} {fd : ℕ} (hmain : s.main = .accepted fd) (hfree : s.inside = .nobody) :
      Step s .lock { s with inside := .main }
  | store {s : Server} {fd : ℕ} (hmain : s.main = .accepted fd) (hinside : s.inside = .main) :
      Step s .store { s with
        fds := update s.fds fd s.now
        main := .accepting
        inside := .nobody }
  | tick {s : Server} : Step s .tick { s with waiting := s.now :: s.waiting }
  | handlerLock {s : Server} {now : ℤ} (hwaiting : now ∈ s.waiting) (hfree : s.inside = .nobody) :
      Step s .handlerLock { s with
        inside := .sweeping now 0
        waiting := s.waiting.erase now }
  | skip {s : Server} {now : ℤ} {i : ℕ} (hinside : s.inside = .sweeping now i) (hi : i ≤ maxFd)
      (hold : ¬ Old now (s.fds i)) :
      Step s .skip { s with inside := .sweeping now (i + 1) }
  | close {s : Server} {now : ℤ} {i : ℕ} (hinside : s.inside = .sweeping now i) (hi : i ≤ maxFd)
      (hold : Old now (s.fds i)) (hopen : s.descriptor i ≠ .closed) :
      Step s .close { s with
        descriptor := update s.descriptor i .closed
        inside := .clearing now i }
  | closeFails {s : Server} {now : ℤ} {i : ℕ} (hinside : s.inside = .sweeping now i)
      (hi : i ≤ maxFd) (hold : Old now (s.fds i)) (hclosed : s.descriptor i = .closed) :
      Step s .closeFails { s with inside := .sweeping now (i + 1) }
  | clear {s : Server} {now : ℤ} {i : ℕ} (hinside : s.inside = .clearing now i) :
      Step s .clear { s with
        fds := update s.fds i 0
        inside := .sweeping now (i + 1) }
  | handlerUnlock {s : Server} {now : ℤ} {i : ℕ} (hinside : s.inside = .sweeping now i)
      (hi : maxFd < i) :
      Step s .handlerUnlock { s with inside := .nobody }

/-- The server before its first `accept`; `own` are the descriptors that it has opened. -/
def start (own : List ℕ) (now : ℤ) : Server where
  now := now
  fds := fun _ => 0
  descriptor := fun fd => if fd ∈ own then .own else .closed
  main := .accepting
  inside := .nobody
  waiting := []

/-! ### The invariant -/

/-- The time of the handler that has locked `mtx` is not later than now, and it has left no old
entry behind. -/
def InsideOk (s : Server) : Inside → Prop
  | .nobody => True
  | .main => ∃ fd, s.main = .accepted fd
  | .sweeping now i => now ≤ s.now ∧ ∀ j < i, ¬ Old now (s.fds j)
  | .clearing now i => now ≤ s.now ∧ i ≤ maxFd ∧ ∀ j < i, ¬ Old now (s.fds j)

/-- The handler has closed `i` and not cleared its entry. -/
def Clearing (s : Server) (i : ℕ) : Prop := ∃ now, s.inside = .clearing now i

/-- What holds of the number `i`. Its entry is that of an open connection, unless it is about to be
cleared; a connection is in `fds`, unless `main` has just accepted it. -/
structure EntryOk (s : Server) (i : ℕ) : Prop where
  range : 0 < s.fds i → i ≤ maxFd
  past : s.fds i ≤ s.now
  entry : 0 < s.fds i → ¬ s.Clearing i →
    s.main ≠ .accepted i ∧ ∃ t, s.descriptor i = .connection t ∧ t ≤ s.fds i
  connection : ∀ t, s.descriptor i = .connection t →
    t ≤ s.now ∧ (s.main = .accepted i ∨ s.main = .refusing i ∨ 0 < s.fds i ∧ ¬ s.Clearing i)

structure Inv (own : List ℕ) (s : Server) : Prop where
  now : 0 < s.now
  own : ∀ i, s.descriptor i = .own ↔ i ∈ own
  waiting : ∀ now ∈ s.waiting, now ≤ s.now
  inside : s.InsideOk s.inside
  accepted : ∀ fd, s.main = .accepted fd → fd ≤ maxFd ∧ ∃ t, s.descriptor fd = .connection t
  refusing : ∀ fd, s.main = .refusing fd → maxFd < fd ∧ ∃ t, s.descriptor fd = .connection t
  entries : ∀ i, s.EntryOk i

theorem inv_start {own : List ℕ} {now : ℤ} (h : 0 < now) : Inv own (start own now) := by
  refine ⟨h, fun i => ?_, ?_, trivial, ?_, ?_, fun i => ⟨?_, le_of_lt h, ?_, fun t => ?_⟩⟩
  · by_cases hi : i ∈ own <;> simp [start, hi]
  · simp [start]
  · simp [start]
  · simp [start]
  · simp [start]
  · simp [start]
  · by_cases hi : i ∈ own <;> simp [start, hi]

variable {own : List ℕ} {s t : Server} {a : Action}

/-- A number that a step does not touch. -/
theorem EntryOk.frame {i : ℕ} (h : s.EntryOk i) (hnow : s.now ≤ t.now) (hfds : t.fds i = s.fds i)
    (hdescriptor : t.descriptor i = s.descriptor i)
    (haccepted : t.main = .accepted i ↔ s.main = .accepted i)
    (hrefusing : t.main = .refusing i ↔ s.main = .refusing i)
    (hclearing : t.Clearing i ↔ s.Clearing i) : t.EntryOk i := by
  obtain ⟨hrange, hpast, hentry, hconnection⟩ := h
  refine ⟨?_, ?_, ?_, ?_⟩
  · rwa [hfds]
  · rw [hfds]
    exact hpast.trans hnow
  · rwa [hfds, Ne, haccepted, hclearing, hdescriptor]
  · intro x hx
    rw [hdescriptor] at hx
    rw [haccepted, hrefusing, hfds, hclearing]
    exact ⟨(hconnection x hx).1.trans hnow, (hconnection x hx).2⟩

theorem Inv.clock (h : Inv own s) {now : ℤ} (hle : s.now ≤ now) :
    Inv own { s with now := now } := by
  have hinside := h.inside
  refine ⟨h.now.trans_le hle, h.own, fun x hx => (h.waiting x hx).trans hle, ?_, h.accepted,
    h.refusing, fun i => (h.entries i).frame hle rfl rfl Iff.rfl Iff.rfl Iff.rfl⟩
  cases hi : s.inside <;> simp only [hi, InsideOk] at hinside ⊢
  · exact hinside
  · exact ⟨hinside.1.trans hle, hinside.2⟩
  · exact ⟨hinside.1.trans hle, hinside.2⟩

/-- While `main` is in `accept` or refuses a connection, it has not locked `mtx`. -/
theorem Inv.inside_of_main (h : Inv own s) (hmain : ∀ fd, s.main ≠ .accepted fd)
    {main : MainPc} {descriptor : ℕ → Descriptor} :
    InsideOk { s with descriptor := descriptor, main := main } s.inside := by
  have hinside := h.inside
  cases hi : s.inside with
  | nobody => trivial
  | main =>
      rw [hi] at hinside
      obtain ⟨fd, hfd⟩ := hinside
      exact absurd hfd (hmain fd)
  | sweeping now i =>
      rw [hi] at hinside
      exact hinside
  | clearing now i =>
      rw [hi] at hinside
      exact hinside

theorem Inv.accept (h : Inv own s) {fd : ℕ} (hmain : s.main = .accepting)
    (hfd : s.descriptor fd = .closed) :
    Inv own { s with
      descriptor := update s.descriptor fd (.connection s.now)
      main := if maxFd < fd then .refusing fd else .accepted fd } := by
  have hself : update s.descriptor fd (.connection s.now) fd = .connection s.now :=
    Function.update_self _ _ _
  refine ⟨h.now, fun i => ?_, h.waiting, h.inside_of_main (by simp [hmain]), fun i hi => ?_,
    fun i hi => ?_, fun i => ?_⟩
  · dsimp only
    by_cases hi : i = fd
    · rw [hi, hself, ← h.own, hfd]
      exact iff_of_false nofun nofun
    · rw [Function.update_of_ne hi]
      exact h.own i
  · dsimp only at hi
    split_ifs at hi with hlt
    cases hi
    exact ⟨Nat.le_of_not_lt hlt, _, hself⟩
  · dsimp only at hi
    split_ifs at hi with hlt
    cases hi
    exact ⟨hlt, _, hself⟩
  · by_cases hi : i = fd
    · subst hi
      refine ⟨(h.entries i).range, (h.entries i).past, fun hpos hclear => ?_, fun x hx => ?_⟩
      · obtain ⟨-, x, hx, -⟩ := (h.entries i).entry hpos hclear
        rw [hfd] at hx
        cases hx
      · dsimp only at hx
        rw [hself] at hx
        cases hx
        by_cases hlt : maxFd < i
        · exact ⟨le_rfl, .inr (.inl (if_pos hlt))⟩
        · exact ⟨le_rfl, .inl (if_neg hlt)⟩
    · refine (h.entries i).frame le_rfl rfl (Function.update_of_ne hi _ _) ?_ ?_ Iff.rfl
      · rw [hmain]
        refine iff_of_false ?_ nofun
        split_ifs
        · nofun
        · exact fun heq => hi (MainPc.accepted.inj heq).symm
      · rw [hmain]
        refine iff_of_false ?_ nofun
        split_ifs
        · exact fun heq => hi (MainPc.refusing.inj heq).symm
        · nofun

theorem Inv.refuse (h : Inv own s) {fd : ℕ} (hmain : s.main = .refusing fd) :
    Inv own { s with
      descriptor := update s.descriptor fd .closed
      main := .accepting } := by
  have hself : update s.descriptor fd .closed fd = .closed := Function.update_self _ _ _
  obtain ⟨hlt, x, hx⟩ := h.refusing fd hmain
  refine ⟨h.now, fun i => ?_, h.waiting, h.inside_of_main (by simp [hmain]), nofun, nofun,
    fun i => ?_⟩
  · dsimp only
    by_cases hi : i = fd
    · rw [hi, hself, ← h.own, hx]
      exact iff_of_false nofun nofun
    · rw [Function.update_of_ne hi]
      exact h.own i
  · by_cases hi : i = fd
    · subst hi
      refine ⟨(h.entries i).range, (h.entries i).past, fun hpos _ => ?_, fun x hx => ?_⟩
      · exact absurd ((h.entries i).range hpos) (Nat.not_le_of_lt hlt)
      · dsimp only at hx
        rw [hself] at hx
        cases hx
    · refine (h.entries i).frame le_rfl rfl (Function.update_of_ne hi _ _) ?_ ?_ Iff.rfl
      · rw [hmain]
        exact iff_of_false nofun nofun
      · rw [hmain]
        exact iff_of_false nofun fun heq => hi (MainPc.refusing.inj heq).symm

theorem Inv.store (h : Inv own s) {fd : ℕ} (hmain : s.main = .accepted fd)
    (hinside : s.inside = .main) :
    Inv own { s with
      fds := update s.fds fd s.now
      main := .accepting
      inside := .nobody } := by
  have hself : update s.fds fd s.now fd = s.now := Function.update_self _ _ _
  have hclearing : ∀ i, ¬ s.Clearing i := by
    rintro i ⟨now, hnow⟩
    rw [hinside] at hnow
    cases hnow
  obtain ⟨hle, x, hx⟩ := h.accepted fd hmain
  have hxnow := ((h.entries fd).connection x hx).1
  refine ⟨h.now, h.own, h.waiting, trivial, nofun, nofun, fun i => ?_⟩
  have hclearing' : ¬ Clearing { s with
      fds := update s.fds fd s.now
      main := .accepting
      inside := .nobody } i := nofun
  by_cases hi : i = fd
  · subst hi
    refine ⟨fun _ => hle, hself.le, fun _ _ => ⟨nofun, x, hx, hxnow.trans hself.ge⟩, fun y hy => ?_⟩
    rw [hx] at hy
    cases hy
    exact ⟨hxnow, .inr (.inr ⟨h.now.trans_le hself.ge, hclearing'⟩)⟩
  · refine (h.entries i).frame le_rfl (Function.update_of_ne hi _ _) rfl ?_ ?_ ?_
    · rw [hmain]
      exact iff_of_false nofun fun heq => hi (MainPc.accepted.inj heq).symm
    · rw [hmain]
      exact iff_of_false nofun nofun
    · exact iff_of_false hclearing' (hclearing i)

/-- A step that changes nothing but who is in the critical section, and who waits for it. -/
theorem Inv.goInside (h : Inv own s) {inside : Inside} {waiting : List ℤ}
    (hwaiting : ∀ now ∈ waiting, now ≤ s.now) (hinside : s.InsideOk inside)
    (hclearing : ∀ now i, inside = .clearing now i ↔ s.inside = .clearing now i) :
    Inv own { s with inside := inside, waiting := waiting } := by
  refine ⟨h.now, h.own, hwaiting, ?_, h.accepted, h.refusing, fun i => ?_⟩
  · cases inside <;> exact hinside
  · exact (h.entries i).frame le_rfl rfl rfl Iff.rfl Iff.rfl
      (exists_congr fun now => hclearing now i)

/-- What the handler closes is a connection that `main` has entered into `fds`. -/
theorem Inv.connection_of_old (h : Inv own s) {now : ℤ} {i : ℕ}
    (hinside : s.inside = .sweeping now i) (hold : Old now (s.fds i)) :
    s.main ≠ .accepted i ∧ ∃ t, s.descriptor i = .connection t ∧ t ≤ s.fds i := by
  refine (h.entries i).entry hold.1 ?_
  rintro ⟨now', hnow'⟩
  rw [hinside] at hnow'
  cases hnow'

theorem Inv.close (h : Inv own s) {now : ℤ} {i : ℕ} (hinside : s.inside = .sweeping now i)
    (hi : i ≤ maxFd) (hold : Old now (s.fds i)) :
    Inv own { s with
      descriptor := update s.descriptor i .closed
      inside := .clearing now i } := by
  have hself : update s.descriptor i .closed i = .closed := Function.update_self _ _ _
  obtain ⟨hmain, x, hx, -⟩ := h.connection_of_old hinside hold
  have hsweeping := h.inside
  rw [hinside] at hsweeping
  refine ⟨h.now, fun j => ?_, h.waiting, ⟨hsweeping.1, hi, hsweeping.2⟩, fun fd hfd => ?_,
    fun fd hfd => ?_, fun j => ?_⟩
  · dsimp only
    by_cases hj : j = i
    · rw [hj, hself, ← h.own, hx]
      exact iff_of_false nofun nofun
    · rw [Function.update_of_ne hj]
      exact h.own j
  · have hne : fd ≠ i := by
      rintro rfl
      exact hmain hfd
    dsimp only
    rw [Function.update_of_ne hne]
    exact h.accepted fd hfd
  · have hne : fd ≠ i := by
      rintro rfl
      exact Nat.not_le_of_lt (h.refusing fd hfd).1 hi
    dsimp only
    rw [Function.update_of_ne hne]
    exact h.refusing fd hfd
  · by_cases hj : j = i
    · subst hj
      refine ⟨(h.entries j).range, (h.entries j).past, fun _ hclear => ?_, fun y hy => ?_⟩
      · exact absurd ⟨now, rfl⟩ hclear
      · dsimp only at hy
        rw [hself] at hy
        cases hy
    · refine (h.entries j).frame le_rfl rfl (Function.update_of_ne hj _ _) Iff.rfl Iff.rfl ?_
      refine iff_of_false ?_ ?_
      · rintro ⟨now', hnow'⟩
        exact hj (Inside.clearing.inj hnow').2.symm
      · rintro ⟨now', hnow'⟩
        rw [hinside] at hnow'
        cases hnow'

theorem Inv.clear (h : Inv own s) {now : ℤ} {i : ℕ} (hinside : s.inside = .clearing now i) :
    Inv own { s with
      fds := update s.fds i 0
      inside := .sweeping now (i + 1) } := by
  have hself : update s.fds i 0 i = 0 := Function.update_self _ _ _
  have hclearing := h.inside
  rw [hinside] at hclearing
  refine ⟨h.now, h.own, h.waiting, ⟨hclearing.1, fun j hj hold => ?_⟩, h.accepted, h.refusing,
    fun j => ?_⟩
  · dsimp only at hold
    by_cases hji : j = i
    · rw [hji, hself] at hold
      exact lt_irrefl _ hold.1
    · rw [Function.update_of_ne hji] at hold
      exact hclearing.2.2 j (by omega) hold
  · by_cases hj : j = i
    · subst hj
      refine ⟨fun hpos => ?_, ?_, fun hpos => ?_, fun x hx => ?_⟩
      · exact absurd hpos (by simp)
      · exact hself.le.trans h.now.le
      · exact absurd hpos (by simp)
      · obtain ⟨hle, hor⟩ := (h.entries j).connection x hx
        refine ⟨hle, hor.imp_right fun hor => hor.imp_right fun hboth => ?_⟩
        exact absurd ⟨now, hinside⟩ hboth.2
    · refine (h.entries j).frame le_rfl (Function.update_of_ne hj _ _) rfl Iff.rfl Iff.rfl ?_
      refine iff_of_false nofun ?_
      rintro ⟨now', hnow'⟩
      rw [hinside] at hnow'
      exact hj (Inside.clearing.inj hnow').2.symm

theorem Inv.step (h : Inv own s) (hstep : Step s a t) : Inv own t := by
  cases hstep with
  | clock hle => exact h.clock hle
  | accept hmain hfd => exact h.accept hmain hfd
  | refuse hmain => exact h.refuse hmain
  | lock hmain hfree => exact h.goInside h.waiting ⟨_, hmain⟩ (by simp [hfree])
  | store hmain hinside => exact h.store hmain hinside
  | tick =>
      exact h.goInside (List.forall_mem_cons.2 ⟨le_rfl, h.waiting⟩) h.inside fun _ _ => Iff.rfl
  | @handlerLock now hwaiting hfree =>
      refine h.goInside (fun x hx => h.waiting x (List.mem_of_mem_erase hx)) ?_ (by simp [hfree])
      exact ⟨h.waiting now hwaiting, fun j hj => absurd hj (Nat.not_lt_zero j)⟩
  | @skip now i hinside hi hold =>
      have hsweeping := h.inside
      rw [hinside] at hsweeping
      refine h.goInside h.waiting ⟨hsweeping.1, fun j hj => ?_⟩ (by simp [hinside])
      rcases Nat.lt_succ_iff_lt_or_eq.1 hj with hlt | rfl
      · exact hsweeping.2 j hlt
      · exact hold
  | close hinside hi hold hopen => exact h.close hinside hi hold
  | closeFails hinside hi hold hclosed =>
      obtain ⟨-, x, hx, -⟩ := h.connection_of_old hinside hold
      rw [hclosed] at hx
      cases hx
  | clear hinside => exact h.clear hinside
  | handlerUnlock hinside hi => exact h.goInside h.waiting trivial (by simp [hinside])

/-! ### Runs -/

variable {now : ℤ} {xs : List (Server × Action)}

/-- In every run, whatever the order of the steps, the handlers close nothing but connections that
were accepted more than `FD_AGE` seconds ago and entered into `fds`: no descriptor of the program
itself, and no new connection that has the number of an old one. No call of `close` fails. -/
theorem run_close (hnow : 0 < now) (hrun : Trace Step (start own now) xs t) :
    ∀ x ∈ xs, x.2 ≠ .closeFails ∧ (x.2 = .close → ∃ called i accepted,
      x.1.inside = .sweeping called i ∧ x.1.descriptor i = .connection accepted ∧ i ∉ own ∧
      x.1.main ≠ .accepted i ∧ accepted + fdAge < called ∧ called ≤ x.1.now) := by
  intro x hx
  obtain ⟨h, v, hstep⟩ := hrun.forall_step (inv_start hnow) (fun _ _ _ h => h.step) x hx
  obtain ⟨s, a⟩ := x
  constructor
  · rintro rfl
    cases hstep with
    | closeFails hinside hi hold hclosed =>
        obtain ⟨-, y, hy, -⟩ := h.connection_of_old hinside hold
        rw [hclosed] at hy
        cases hy
  · rintro rfl
    cases hstep with
    | @close called i hinside hi hold hopen =>
        obtain ⟨hmain, accepted, hconnection, hle⟩ := h.connection_of_old hinside hold
        have hsweeping := h.inside
        rw [hinside] at hsweeping
        refine ⟨called, i, accepted, hinside, hconnection, fun hown => ?_, hmain,
          (Int.add_le_add_right hle _).trans_lt hold.2, hsweeping.1⟩
        rw [← h.own, hconnection] at hown
        cases hown

/-- A server that has accepted one connection, and has entered it at once. -/
def oneConnection : Server :=
  { start [0, 1, 2, 3] 100 with
    fds := update (fun _ => 0) 4 100
    descriptor := update (start [0, 1, 2, 3] 100).descriptor 4 (.connection 100) }

theorem exists_trace_oneConnection : ∃ xs, Trace Step (start [0, 1, 2, 3] 100) xs oneConnection :=
  ⟨_, ((Trace.nil.snoc (@Step.accept _ 4 rfl (by decide))).snoc
    (@Step.lock _ 4 rfl rfl)).snoc (@Step.store _ 4 rfl rfl)⟩

/-- A connection that is 30 seconds old is closed. -/
theorem run_close_old :
    ∃ xs t, Trace Step (start [0, 1, 2, 3] 100) xs t ∧ (∃ x ∈ xs, x.2 = .close) ∧
      ∀ x ∈ xs, x.2 ≠ .closeFails ∧ (x.2 = .close → ∃ called i accepted,
        x.1.inside = .sweeping called i ∧ x.1.descriptor i = .connection accepted ∧
        i ∉ [0, 1, 2, 3] ∧ x.1.main ≠ .accepted i ∧ accepted + fdAge < called ∧
        called ≤ x.1.now) := by
  obtain ⟨xs, hstore⟩ := exists_trace_oneConnection
  have hlock := ((hstore.snoc (@Step.clock _ 130 (by decide))).snoc Step.tick).snoc
    (@Step.handlerLock _ 130 List.mem_cons_self rfl)
  have hskip := (((hlock.snoc (@Step.skip _ 130 0 rfl (by decide) (by decide))).snoc
    (@Step.skip _ 130 1 rfl (by decide) (by decide))).snoc
    (@Step.skip _ 130 2 rfl (by decide) (by decide))).snoc
    (@Step.skip _ 130 3 rfl (by decide) (by decide))
  have hrun := hskip.snoc (@Step.close _ 130 4 rfl (by decide) (by decide) (by decide))
  exact ⟨_, _, hrun, ⟨_, List.mem_append_right _ List.mem_cons_self, rfl⟩,
    run_close (by decide) hrun⟩

/-- In every run no connection is forgotten: each is in `fds` with a time at which it had been
accepted, or `main` has just accepted it, and is about to enter or to refuse it. -/
theorem run_recorded (hnow : 0 < now) (hrun : Trace Step (start own now) xs t) :
    (∀ i, t.descriptor i = .own ↔ i ∈ own) ∧
      ∀ i accepted, t.descriptor i = .connection accepted →
        t.main = .accepted i ∨ t.main = .refusing i ∨
          i ≤ maxFd ∧ accepted ≤ t.fds i ∧ t.fds i ≤ t.now := by
  have h := hrun.invariant (inv_start hnow) fun _ _ _ h => h.step
  refine ⟨h.own, fun i accepted hconnection => ?_⟩
  refine ((h.entries i).connection accepted hconnection).2.imp_right fun hor =>
    hor.imp_right fun ⟨hpos, hclearing⟩ => ⟨(h.entries i).range hpos, ?_, (h.entries i).past⟩
  obtain ⟨-, x, hx, hle⟩ := (h.entries i).entry hpos hclearing
  rw [hconnection] at hx
  cases hx
  exact hle

theorem run_recorded_oneConnection :
    (∀ i, oneConnection.descriptor i = .own ↔ i ∈ [0, 1, 2, 3]) ∧
      ∀ i accepted, oneConnection.descriptor i = .connection accepted →
        oneConnection.main = .accepted i ∨ oneConnection.main = .refusing i ∨
          i ≤ maxFd ∧ accepted ≤ oneConnection.fds i ∧ oneConnection.fds i ≤ oneConnection.now := by
  obtain ⟨xs, hrun⟩ := exists_trace_oneConnection
  exact run_recorded (by decide) hrun

/-- A handler that unlocks `mtx` leaves no connection behind that was old when it was called, but
for one that `main` is about to enter or to refuse. -/
theorem run_swept (hnow : 0 < now) (hrun : Trace Step (start own now) xs t) :
    ∀ x ∈ xs, x.2 = .handlerUnlock → ∃ called i, x.1.inside = .sweeping called i ∧
      ∀ j accepted, x.1.descriptor j = .connection accepted →
        x.1.main = .accepted j ∨ x.1.main = .refusing j ∨ called ≤ x.1.fds j + fdAge := by
  intro x hx
  obtain ⟨h, v, hstep⟩ := hrun.forall_step (inv_start hnow) (fun _ _ _ h => h.step) x hx
  obtain ⟨s, a⟩ := x
  rintro rfl
  cases hstep with
  | @handlerUnlock called i hinside hi =>
      have hsweeping := h.inside
      rw [hinside] at hsweeping
      refine ⟨called, i, hinside, fun j accepted hconnection => ?_⟩
      refine ((h.entries j).connection accepted hconnection).2.imp_right fun hor =>
        hor.imp_right fun hboth => ?_
      have hpos := hboth.1
      have hj := (h.entries j).range hpos
      have hnot := hsweeping.2 j (hj.trans_lt hi)
      exact le_of_not_gt fun hlt => hnot ⟨hpos, hlt⟩

/-- The loop over entries none of which is old. -/
theorem exists_skips {called : ℤ} {k : ℕ} (hrun : Trace Step s xs t)
    (hinside : t.inside = .sweeping called 0) (hold : ∀ j, ¬ Old called (t.fds j))
    (hk : k ≤ maxFd + 1) :
    ∃ ys, Trace Step s ys { t with inside := .sweeping called k } := by
  induction k with
  | zero =>
      rw [← hinside]
      exact ⟨xs, hrun⟩
  | succ k ih =>
      obtain ⟨ys, hys⟩ := ih (Nat.le_of_succ_le hk)
      exact ⟨_, hys.snoc (Step.skip rfl (Nat.le_of_succ_le_succ hk) (hold k))⟩

/-- A handler that finds no old connection. -/
theorem run_swept_oneConnection :
    ∃ xs t, Trace Step (start [0, 1, 2, 3] 100) xs t ∧ (∃ x ∈ xs, x.2 = .handlerUnlock) ∧
      ∀ x ∈ xs, x.2 = .handlerUnlock → ∃ called i, x.1.inside = .sweeping called i ∧
        ∀ j accepted, x.1.descriptor j = .connection accepted →
          x.1.main = .accepted j ∨ x.1.main = .refusing j ∨ called ≤ x.1.fds j + fdAge := by
  obtain ⟨xs, hstore⟩ := exists_trace_oneConnection
  have hlock := (hstore.snoc Step.tick).snoc (@Step.handlerLock _ 100 List.mem_cons_self rfl)
  have hold : ∀ j, ¬ Old 100 (oneConnection.fds j) := by
    intro j
    by_cases hj : j = 4
    · subst hj
      decide
    · have hzero : oneConnection.fds j = 0 := by simp [oneConnection, hj]
      rw [hzero]
      decide
  obtain ⟨ys, hys⟩ := exists_skips hlock rfl hold le_rfl
  have hrun := hys.snoc (Step.handlerUnlock rfl (Nat.lt_succ_self _))
  exact ⟨_, _, hrun, ⟨_, List.mem_append_right _ List.mem_cons_self, rfl⟩,
    run_swept (by decide) hrun⟩

end Server

end InetServer

end Miscellany
