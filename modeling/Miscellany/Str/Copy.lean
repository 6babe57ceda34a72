import Miscellany.Str.Refinement

/-!
# Copying into a string

When `wba_strncpy` returns the string after it has written to it, its contents are the source,
whatever the string was before (`copied_of_wbaStrncpy`). For an empty source it returns at once,
as `wba_strncat` does, and the string keeps its old contents. So a copy replaces the contents
exactly when the source is not empty or the string is empty already.
-/

namespace Miscellany

namespace Block

variable {α : Type*} {b b' : Block α} {src : List α} {i : ℕ}

/-- The cells up to the last one that is written. -/
theorem take_of_write (h : b.write i src = some b') :
    b'.take (i + src.length) = b.take i ++ src := by
  unfold write at h
  split_ifs at h with hfit
  have hlen : (b.take i ++ src).length = i + src.length := by
    rw [List.length_append, List.length_take]
    omega
  rw [← Option.some.inj h, ← hlen]
  exact List.take_left

end Block

namespace WbaStr

variable {ws ws' : WbaStr} {mem src : List Byte} {a : Alloc Byte} {n : ℕ}

/-- The contents of the string are the given bytes, with a terminator. -/
def Copied (ws : WbaStr) (bytes : List Byte) : Prop :=
  ws.len = bytes.length ∧
    ∃ b, ws.buf = some b ∧ b.take bytes.length = bytes ∧ b[bytes.length]? = some 0

/-- The string has no bytes before its terminator. -/
def Empty (ws : WbaStr) : Prop := ws.len = 0 ∧ ∃ b, ws.buf = some b ∧ b[0]? = some 0

/-- Whenever the call returns the string, its contents are the given bytes. -/
def Copies (call : Alloc Byte → Option (Bool × WbaStr)) (bytes : List Byte) : Prop :=
  ∀ a ws', call a = some (true, ws') → ws'.Copied bytes

theorem empty_iff_copied_nil (ws : WbaStr) : ws.Empty ↔ ws.Copied [] := by
  simp [Empty, Copied]

/-- Writing the bytes and the terminator behind them, in any string. -/
theorem copied_of_store {ws₁ ws₂ : WbaStr} (hfirst : ws.store 0 src = some ws₁)
    (hsecond : { ws₁ with len := src.length }.store src.length [0] = some ws₂) :
    ws₂.Copied src := by
  obtain ⟨b, b₁, -, hwrite, rfl⟩ := exists_of_store hfirst
  obtain ⟨b₁', b₂, hb, hwrite', rfl⟩ := exists_of_store hsecond
  obtain rfl := Option.some.inj hb
  have htake := Block.take_of_write hwrite
  have htake' := Block.take_of_write hwrite'
  rw [Nat.zero_add, List.take_zero, List.nil_append] at htake
  rw [htake] at htake'
  refine ⟨rfl, b₂, rfl, ?_, ?_⟩
  · have hprefix := congrArg (List.take src.length) htake'
    rw [List.take_take, List.take_left, Nat.min_eq_left (Nat.le_add_right _ _)] at hprefix
    exact hprefix
  · have hget := congrArg (fun l => l[src.length]?) htake'
    rw [List.getElem?_take_of_lt (Nat.lt_add_of_pos_right (by decide))] at hget
    rw [hget]
    simp

theorem copied_of_wbaStrncpy (hn : n ≤ mem.length) (hpos : 0 < n)
    (h : wbaStrncpy a ws (some mem) n = some (true, ws')) : ws'.Copied (mem.take n) := by
  have hlen : (mem.take n).length = n := by
    rw [List.length_take]
    exact Nat.min_eq_left hn
  simp only [wbaStrncpy, if_neg (Nat.ne_of_gt hpos)] at h
  obtain ⟨r, hreserve, h⟩ := Option.bind_eq_some_iff.1 h
  cases hr : r.1 with
  | false =>
      rw [hr] at h
      cases h
  | true =>
      rw [hr] at h
      obtain ⟨ws₁, hfirst, h⟩ := Option.bind_eq_some_iff.1 h
      obtain ⟨ws₂, hsecond, h⟩ := Option.bind_eq_some_iff.1 h
      cases h
      rw [← hlen] at hsecond
      exact copied_of_store hfirst hsecond

/-- An empty source is not copied. -/
theorem wbaStrncpy_zero (a : Alloc Byte) (ws : WbaStr) (mem : List Byte) :
    wbaStrncpy a ws (some mem) 0 = some (true, ws) := rfl

theorem wbaStrncpy_copies_iff (ws : WbaStr) (hn : n ≤ mem.length) :
    Copies (fun a => wbaStrncpy a ws (some mem) n) (mem.take n) ↔ 0 < n ∨ ws.Empty := by
  rcases Nat.eq_zero_or_pos n with rfl | hpos
  · rw [List.take_zero, empty_iff_copied_nil, or_iff_right (Nat.lt_irrefl 0)]
    constructor
    · intro hcopies
      exact hcopies none ws (wbaStrncpy_zero none ws mem)
    · intro hempty a ws' hcall
      have hsame : some (true, ws) = some (true, ws') := hcall
      cases hsame
      exact hempty
  · refine iff_of_true ?_ (Or.inl hpos)
    intro a ws' hcall
    exact copied_of_wbaStrncpy hn hpos hcall

/-- A copy that returns the string has replaced its contents, in whatever state the string was,
exactly when the source is not empty or the string is empty already. -/
theorem copies_iff (ws : WbaStr) (mem : List Byte) :
    (∀ n ≤ mem.length,
      (Copies (fun a => wbaStrncpy a ws (some mem) n) (mem.take n) ↔ 0 < n ∨ ws.Empty)) ∧
    (Copies (fun a => wbaStrcpy a ws (some mem)) (mem.takeWhile (· != 0)) ↔
      0 < strlen mem ∨ ws.Empty) := by
  refine ⟨fun n hn => wbaStrncpy_copies_iff ws hn, ?_⟩
  rw [← take_strlen]
  exact wbaStrncpy_copies_iff ws (strlen_le mem)

/-- The string `"a"`, as `wba_strnew2` makes it. -/
def oneByte : WbaStr := { len := 1, cap := 1, buf := some [97, 0] }

theorem copies_oneByte :
    ∃ ws', wbaStrncpy (some fun _ => 7) oneByte (some [98, 99, 0]) 2 = some (true, ws') ∧
      ws'.Copied [98, 99] := by
  have hcopies := ((copies_iff oneByte [98, 99, 0]).1 2 (by decide)).2 (Or.inl (by decide))
  exact ⟨_, rfl, hcopies (some fun _ => 7) _ rfl⟩

/-- Copying `""` into `"a"` returns the string with its old contents. -/
theorem not_copies_empty_source :
    wbaStrnew2 true (some fun _ => 7) (some [97, 0]) = some (some oneByte) ∧
      wbaStrcpy none oneByte (some [0]) = some (true, oneByte) ∧
      ¬ Copies (fun a => wbaStrcpy a oneByte (some [0])) [] := by
  refine ⟨by decide, by decide, ?_⟩
  intro hcopies
  have hlen : oneByte.len = 0 := (hcopies none oneByte rfl).1
  exact absurd hlen (by decide)

end WbaStr

end Miscellany
