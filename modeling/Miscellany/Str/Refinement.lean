import Miscellany.Str.Basic

/-!
# A string is a sequence of bytes

A string holds the bytes `bytes` if its block is `bytes`, the terminator and any further
cells, and `len` and `cap` are the numbers that belong to it (`Holds`). Every call keeps
this, whatever the allocator does, as long as the sizes stay within `PTRDIFF_MAX`: it
either returns the string, which then holds what the call makes of the bytes, or null,
and then nothing has changed. It returns null only if the allocator refuses what it asks
for, or if there is no text to append.

The bytes of a source are an argument of the call: they do not lie in the block of the
string, as `memcpy` and `realloc` require.

So a string behaves as a sequence of bytes with a capacity (`ByteSeq`), on which each call
has an effect that depends on nothing but the answer of the allocator (`Call.effect`).
-/

namespace Miscellany

namespace WbaStr

variable {ws : WbaStr} {bytes src : List Byte} {a : Alloc Byte}

/-- The string holds the given bytes. -/
structure Holds (ws : WbaStr) (bytes : List Byte) : Prop where
  len : ws.len = bytes.length
  block : ∃ rest, ws.buf = some (bytes ++ 0 :: rest) ∧ ws.cap = bytes.length + rest.length

/-- The call returns the string or null, as `ok` says. A string that is returned holds the given
bytes and has the given capacity, and otherwise nothing has changed. -/
def Results (r : Option (Bool × WbaStr)) (ws : WbaStr) (ok : Bool) (bytes : List Byte)
    (cap : ℕ) : Prop :=
  ∃ ws', r = some (ok, ws') ∧ (ok = true → Holds ws' bytes ∧ ws'.cap = cap) ∧
    (ok = false → ws' = ws)

theorem results_of_holds {r : Option (Bool × WbaStr)} {ws' : WbaStr} {cap : ℕ}
    (hr : r = some (true, ws')) (h : Holds ws' bytes) (hcap : ws'.cap = cap) :
    Results r ws true bytes cap :=
  ⟨ws', hr, fun _ => ⟨h, hcap⟩, fun hno => absurd hno (by simp)⟩

theorem results_of_null {r : Option (Bool × WbaStr)} {cap : ℕ} (hr : r = some (false, ws)) :
    Results r ws false bytes cap :=
  ⟨ws, hr, fun hno => absurd hno (by simp), fun _ => rfl⟩

/-! ### The block -/

theorem store_eq_some (ws : WbaStr) {b b' : Block Byte} {i : ℕ} (hbuf : ws.buf = some b)
    (hwrite : b.write i src = some b') : ws.store i src = some { ws with buf := some b' } := by
  simp only [store, hbuf, Option.bind_eq_bind, Option.bind_some, hwrite]
  rfl

theorem exists_of_store {ws' : WbaStr} {i : ℕ} (h : ws.store i src = some ws') :
    ∃ b b', ws.buf = some b ∧ Block.write b i src = some b' ∧
      ws' = { ws with buf := some b' } := by
  unfold store at h
  obtain ⟨b, hb, h⟩ := Option.bind_eq_some_iff.1 h
  obtain ⟨b', hb', h⟩ := Option.bind_eq_some_iff.1 h
  exact ⟨b, b', hb, hb', (Option.some.inj h).symm⟩

theorem cap_of_store {ws' : WbaStr} {i : ℕ} (h : ws.store i src = some ws') : ws'.cap = ws.cap := by
  obtain ⟨b, b', -, -, rfl⟩ := exists_of_store h
  rfl

theorem cap_of_stores {ws₁ ws₂ : WbaStr} {i j len : ℕ} {src' : List Byte}
    (hfirst : ws.store i src = some ws₁)
    (hsecond : { ws₁ with len := len }.store j src' = some ws₂) : ws₂.cap = ws.cap := by
  have hcap := cap_of_store hfirst
  rw [cap_of_store hsecond]
  exact hcap

/-- Writing bytes and a terminator behind the first `us` of the bytes. -/
theorem store_terminated (ws : WbaStr) (us vs src : List Byte) (hbuf : ws.buf = some (us ++ vs))
    (hroom : src.length < vs.length) (hcap : ws.cap + 1 = (us ++ vs).length) :
    ∃ ws₁ ws₂, ws.store us.length src = some ws₁ ∧ ws₁.len = ws.len ∧
      { ws₁ with len := (us ++ src).length }.store (us ++ src).length [0] = some ws₂ ∧
      Holds ws₂ (us ++ src) := by
  have hfirst : Block.write (us ++ vs) us.length src =
      some (us ++ src ++ vs.drop src.length) := Block.write_of_le (Nat.le_of_lt hroom)
  have hleft : 1 ≤ (vs.drop src.length).length := by
    rw [List.length_drop]
    omega
  have hsecond : Block.write (us ++ src ++ vs.drop src.length) (us ++ src).length [0] =
      some (us ++ src ++ [0] ++ (vs.drop src.length).drop 1) := Block.write_of_le hleft
  refine ⟨_, _, store_eq_some ws hbuf hfirst, rfl, store_eq_some _ rfl hsecond, rfl,
    (vs.drop src.length).drop 1, by simp, ?_⟩
  simp only [List.length_append, List.length_drop] at hcap hleft ⊢
  omega

theorem Holds.wbaStrclr (h : Holds ws bytes) : ∃ ws', wbaStrclr ws = some ws' ∧ Holds ws' [] := by
  obtain ⟨rest, hbuf, hcap⟩ := h.block
  have hwrite : Block.write ([] ++ (bytes ++ 0 :: rest)) ([] : List Byte).length [0] =
      some ([] ++ [0] ++ (bytes ++ 0 :: rest).drop 1) := by
    apply Block.write_of_le
    simp only [List.length_append, List.length_cons, List.length_nil]
    omega
  have hstore : WbaStr.wbaStrclr ws =
      some { ws with len := 0, buf := some ([] ++ [0] ++ (bytes ++ 0 :: rest).drop 1) } :=
    store_eq_some { ws with len := 0 } hbuf hwrite
  refine ⟨_, hstore, rfl, (bytes ++ 0 :: rest).drop 1, rfl, ?_⟩
  simp only [List.length_drop, List.length_append, List.length_cons, List.length_nil]
  omega

/-! ### Growing -/

/-- The capacity that `wba_str_reserve` asks for when there is no room for `cap` bytes. -/
def reserved (cap : ℕ) : ℕ :=
  if cap < wbaStrMaxReserveSize then cap * 2 else cap + wbaStrMaxReserveSize

theorem le_reserved (cap : ℕ) : cap ≤ reserved cap := by
  unfold reserved
  split_ifs <;> omega

/-- The capacity `old` is enough for `cap` bytes, or the allocator grants the capacity `request`. -/
def granted (a : Alloc Byte) (old cap request : ℕ) : Bool :=
  decide (cap ≤ old) || Block.grants a (request + 1)

/-- The capacity when that is so. -/
def capAfter (old cap request : ℕ) : ℕ := if cap ≤ old then old else request

@[simp] theorem granted_of_cap_le {old cap : ℕ} (h : cap ≤ old) (a : Alloc Byte) (request : ℕ) :
    granted a old cap request = true := by
  simp [granted, h]

theorem granted_of_cap_lt {old cap : ℕ} (h : old < cap) (a : Alloc Byte) (request : ℕ) :
    granted a old cap request = Block.grants a (request + 1) := by
  simp [granted, Nat.not_le.2 h]

@[simp] theorem capAfter_of_le {old cap : ℕ} (h : cap ≤ old) (request : ℕ) :
    capAfter old cap request = old := if_pos h

theorem capAfter_of_lt {old cap : ℕ} (h : old < cap) (request : ℕ) :
    capAfter old cap request = request := if_neg (Nat.not_le.2 h)

theorem le_capAfter {cap request : ℕ} (h : cap ≤ request) (old : ℕ) :
    cap ≤ capAfter old cap request := by
  unfold capAfter
  split_ifs with hle
  · exact hle
  · exact h

/-- Growing does not change the bytes. -/
theorem Holds.wbaStrgrow (h : Holds ws bytes) (a : Alloc Byte) (cap : ℕ)
    (hcap : cap + 1 < sizeMod) :
    Results (WbaStr.wbaStrgrow a ws cap) ws (granted a ws.cap cap cap) bytes
      (capAfter ws.cap cap cap) := by
  unfold WbaStr.wbaStrgrow
  split_ifs with hle
  · rw [granted_of_cap_le hle, capAfter_of_le hle]
    exact results_of_holds rfl h rfl
  · rw [granted_of_cap_lt (Nat.not_le.1 hle), capAfter_of_lt (Nat.not_le.1 hle)]
    obtain ⟨rest, hbuf, hold⟩ := h.block
    have hmod : (cap + 1) % sizeMod = cap + 1 := Nat.mod_eq_of_lt hcap
    have hlonger : (bytes ++ 0 :: rest).length ≤ cap + 1 := by
      simp only [List.length_append, List.length_cons]
      omega
    cases hgrants : Block.grants a (cap + 1) with
    | false =>
        have heq := Block.realloc_of_refused (b := bytes ++ 0 :: rest) (Nat.succ_pos cap) hgrants
        apply results_of_null
        simp only [hbuf, hmod, heq, Option.bind_eq_bind, Option.bind_some]
        rw [← hbuf]
        rfl
    | true =>
        obtain ⟨more, hlen, heq⟩ := Block.realloc_of_grants hlonger (Nat.succ_pos cap) hgrants
        have hholds : Holds { ws with buf := some (bytes ++ 0 :: rest ++ more), cap := cap }
            bytes := by
          refine ⟨h.len, rest ++ more, by simp, ?_⟩
          simp only [List.length_append, List.length_cons] at hlen ⊢
          omega
        refine results_of_holds ?_ hholds rfl
        simp only [hbuf, hmod, heq, Option.bind_eq_bind, Option.bind_some]
        rfl

theorem Holds.wbaStrReserve (h : Holds ws bytes) (a : Alloc Byte) {cap : ℕ}
    (hcap : cap ≤ ptrdiffMax) :
    Results (WbaStr.wbaStrReserve a ws cap) ws (granted a ws.cap cap (reserved cap)) bytes
      (capAfter ws.cap cap (reserved cap)) := by
  have hmax : wbaStrMaxReserveSize = 1048576 := by decide
  have hptr := ptrdiffMax_eq
  have hsize := sizeMod_eq
  by_cases hle : cap ≤ ws.cap
  · rw [granted_of_cap_le hle, capAfter_of_le hle]
    exact results_of_holds (if_pos hle) h rfl
  · have hlt := Nat.not_le.1 hle
    have hless : ws.cap < reserved cap := Nat.lt_of_lt_of_le hlt (le_reserved cap)
    have hsmall : reserved cap + 1 < sizeMod := by
      unfold reserved
      split_ifs <;> omega
    have hgrow : WbaStr.wbaStrReserve a ws cap = WbaStr.wbaStrgrow a ws (reserved cap) := by
      rw [WbaStr.wbaStrReserve, if_neg hle, reserved]
      split_ifs
      · rw [Nat.mod_eq_of_lt (by omega)]
      · rw [Nat.mod_eq_of_lt (by omega)]
    have hresults := h.wbaStrgrow a (reserved cap) hsmall
    rw [granted_of_cap_lt hless, capAfter_of_lt hless] at hresults
    rwa [hgrow, granted_of_cap_lt hlt, capAfter_of_lt hlt]

/-! ### Copying and appending -/

theorem Holds.length_le_cap (h : Holds ws bytes) : bytes.length ≤ ws.cap := by
  obtain ⟨rest, -, hcap⟩ := h.block
  rw [hcap]
  exact Nat.le_add_right _ _

/-- Replacing the bytes by others for which there is room. -/
theorem Holds.replace (h : Holds ws bytes) {src : List Byte} (hroom : src.length ≤ ws.cap) :
    ∃ ws₁ ws₂, ws.store 0 src = some ws₁ ∧
      { ws₁ with len := src.length }.store src.length [0] = some ws₂ ∧ Holds ws₂ src := by
  obtain ⟨rest, hbuf, hcap⟩ := h.block
  have hlen : ws.cap + 1 = ([] ++ (bytes ++ 0 :: rest)).length := by
    simp only [List.nil_append, List.length_append, List.length_cons]
    omega
  obtain ⟨ws₁, ws₂, hfirst, -, hsecond, hholds⟩ := store_terminated ws [] (bytes ++ 0 :: rest) src
    hbuf (by simp only [List.nil_append] at hlen; omega) hlen
  exact ⟨ws₁, ws₂, hfirst, hsecond, hholds⟩

/-- Appending bytes for which there is room. -/
theorem Holds.append (h : Holds ws bytes) (hroom : bytes.length + src.length ≤ ws.cap) :
    ∃ ws₁ ws₂, ws.store bytes.length src = some ws₁ ∧ ws₁.len = bytes.length ∧
      { ws₁ with len := bytes.length + src.length }.store (bytes.length + src.length) [0] =
        some ws₂ ∧ Holds ws₂ (bytes ++ src) := by
  obtain ⟨rest, hbuf, hcap⟩ := h.block
  have hlen : ws.cap + 1 = (bytes ++ 0 :: rest).length := by
    simp only [List.length_append, List.length_cons]
    omega
  obtain ⟨ws₁, ws₂, hfirst, hkeep, hsecond, hholds⟩ := store_terminated ws bytes (0 :: rest) src
    hbuf (by simp only [List.length_cons]; omega) hlen
  rw [List.length_append] at hsecond
  exact ⟨ws₁, ws₂, hfirst, hkeep.trans h.len, hsecond, hholds⟩

theorem Holds.wbaStrncpy (h : Holds ws bytes) (hsrc : src ≠ []) {len : ℕ}
    (hlen : len = src.length) {mem : List Byte} (hmem : mem.take len = src)
    (hsize : len ≤ ptrdiffMax) :
    Results (WbaStr.wbaStrncpy a ws (some mem) len) ws (granted a ws.cap len (reserved len)) src
      (capAfter ws.cap len (reserved len)) := by
  have hpos : len ≠ 0 := by
    rw [hlen]
    exact fun hzero => hsrc (List.length_eq_zero_iff.1 hzero)
  obtain ⟨ws', hreserve, hok, hfail⟩ := h.wbaStrReserve a hsize
  simp only [WbaStr.wbaStrncpy, if_neg hpos, hreserve, Option.bind_eq_bind, Option.bind_some, hmem]
  cases hgranted : granted a ws.cap len (reserved len) with
  | false =>
      apply results_of_null
      rw [hfail hgranted]
      rfl
  | true =>
      obtain ⟨hholds, hcap⟩ := hok hgranted
      have hroom : src.length ≤ ws'.cap := by
        rw [hcap, ← hlen]
        exact le_capAfter (le_reserved len) _
      obtain ⟨ws₁, ws₂, hfirst, hsecond, hres⟩ := hholds.replace hroom
      have hkept := (cap_of_stores hfirst hsecond).trans hcap
      rw [← hlen] at hsecond
      refine results_of_holds ?_ hres hkept
      simp only [hfirst, Option.bind_some, hsecond]
      rfl

theorem Holds.wbaStrncat (h : Holds ws bytes) {len : ℕ} (hlen : len = src.length)
    {mem : List Byte} (hmem : mem.take len = src) (hsize : bytes.length + len ≤ ptrdiffMax) :
    Results (WbaStr.wbaStrncat a ws (some mem) len) ws
      (granted a ws.cap (bytes.length + len) (reserved (bytes.length + len))) (bytes ++ src)
      (capAfter ws.cap (bytes.length + len) (reserved (bytes.length + len))) := by
  have hlt : bytes.length + len < sizeMod := by
    have hptr : ptrdiffMax < sizeMod := by decide
    omega
  unfold WbaStr.wbaStrncat
  by_cases hpos : len = 0
  · have hnil : src = [] := List.length_eq_zero_iff.1 (hlen.symm.trans hpos)
    have hroom : bytes.length + len ≤ ws.cap := by
      rw [hpos]
      exact h.length_le_cap
    rw [hnil, List.append_nil, granted_of_cap_le hroom, capAfter_of_le hroom]
    exact results_of_holds (by simp [hpos]) h rfl
  · obtain ⟨ws', hreserve, hok, hfail⟩ := h.wbaStrReserve a hsize
    simp only [if_neg hpos, h.len, Nat.mod_eq_of_lt hlt, hreserve, Option.bind_eq_bind,
      Option.bind_some, hmem]
    cases hgranted : granted a ws.cap (bytes.length + len) (reserved (bytes.length + len)) with
    | false =>
        apply results_of_null
        rw [hfail hgranted]
        rfl
    | true =>
        obtain ⟨hholds, hcap⟩ := hok hgranted
        have hroom : bytes.length + src.length ≤ ws'.cap := by
          rw [hcap, ← hlen]
          exact le_capAfter (le_reserved _) _
        obtain ⟨ws₁, ws₂, hfirst, hkeep, hsecond, hres⟩ := hholds.append hroom
        have hkept := (cap_of_stores hfirst hsecond).trans hcap
        rw [← hlen] at hsecond
        refine results_of_holds ?_ hres hkept
        simp only [hholds.len, hfirst, Option.bind_some, hkeep, Nat.mod_eq_of_lt hlt, hsecond]
        rfl

/-- The second pass of `vsnprintf` has room for the whole text. For a text of `INT_MAX` bytes the
sum `len + 1` overflows to a negative number, which as a `size_t` is large as well. -/
theorem vsnprintfBytes_eq {text : List Byte} (h : text.length ≤ intMax) :
    vsnprintfBytes text (sizeOfInt (addInt text.length 1)) = text ++ [0] := by
  have hroom : text.length < sizeOfInt (addInt text.length 1) := by
    have hmax : intMax = 2147483647 := by decide
    rw [sizeOfInt, addInt, sizeMod_eq, Int.bmod]
    split_ifs <;> omega
  rw [vsnprintfBytes, if_neg (by omega), List.take_of_length_le (by omega)]

theorem Holds.wbaStrcatVprintf (h : Holds ws bytes) {text : List Byte}
    (htext : text.length ≤ intMax) (hsize : bytes.length + text.length ≤ ptrdiffMax) :
    Results (WbaStr.wbaStrcatVprintf a ws (some text)) ws
      (granted a ws.cap (bytes.length + text.length) (reserved (bytes.length + text.length)))
      (bytes ++ text)
      (capAfter ws.cap (bytes.length + text.length) (reserved (bytes.length + text.length))) := by
  have hlt : bytes.length + text.length < sizeMod := by
    have hptr : ptrdiffMax < sizeMod := by decide
    omega
  have hlen : vsnprintfLen (some text) = text.length := if_pos htext
  have hcast : sizeOfInt (text.length : ℤ) = text.length := by
    rw [sizeOfInt, ← Int.natCast_emod, Nat.mod_eq_of_lt (by omega), Int.toNat_natCast]
  obtain ⟨ws', hreserve, hok, hfail⟩ := h.wbaStrReserve a hsize
  have hnonneg : ¬ (text.length : ℤ) < 0 := by omega
  simp only [WbaStr.wbaStrcatVprintf, hlen, if_neg hnonneg, hcast, h.len, Nat.mod_eq_of_lt hlt,
    hreserve, Option.bind_eq_bind, Option.bind_some, Option.getD_some, vsnprintfBytes_eq htext]
  cases hgranted : granted a ws.cap (bytes.length + text.length)
      (reserved (bytes.length + text.length)) with
  | false =>
      apply results_of_null
      rw [hfail hgranted]
      rfl
  | true =>
      obtain ⟨hholds, hset⟩ := hok hgranted
      have hroom : bytes.length + text.length ≤ ws'.cap := by
        rw [hset]
        exact le_capAfter (le_reserved _) _
      obtain ⟨rest, hbuf, hcap⟩ := hholds.block
      have hwrite : Block.write (bytes ++ 0 :: rest) bytes.length (text ++ [0]) =
          some (bytes ++ (text ++ [0]) ++ (0 :: rest).drop (text ++ [0]).length) := by
        apply Block.write_of_le
        simp only [List.length_append, List.length_cons, List.length_nil]
        omega
      have hstore := store_eq_some ws' hbuf hwrite
      have hres : Holds { ws' with
          len := bytes.length + text.length
          buf := some (bytes ++ (text ++ [0]) ++ (0 :: rest).drop (text ++ [0]).length) }
          (bytes ++ text) := by
        refine ⟨by simp, (0 :: rest).drop (text ++ [0]).length, by simp, ?_⟩
        simp only [List.length_append, List.length_drop, List.length_cons, List.length_nil]
        omega
      refine results_of_holds ?_ hres hset
      simp only [hholds.len, hstore, Option.bind_some, Nat.mod_eq_of_lt hlt]
      rfl

/-! ### Runs -/

/-- How a string is created. -/
inductive Init where
  | newlen (init : Option (List Byte)) (initlen : ℕ)
  | new (cap : ℕ)
  | new2 (str : Option (List Byte))
deriving DecidableEq

namespace Init

def create (malloc : Bool) (a : Alloc Byte) : Init → Option (Option WbaStr)
  | .newlen init initlen => wbaStrnewlen malloc a init initlen
  | .new cap => wbaStrnew malloc a cap
  | .new2 str => wbaStrnew2 malloc a str

/-- The bytes of the new string. -/
def contents : Init → List Byte
  | .newlen none initlen => List.replicate initlen 0
  | .newlen (some init) initlen => init.take initlen
  | .new _ => []
  | .new2 none => []
  | .new2 (some str) => str.takeWhile (· != 0)

/-- The number of bytes that are asked for. -/
def size : Init → ℕ
  | .newlen _ initlen => initlen
  | .new cap => cap
  | .new2 none => 0
  | .new2 (some str) => strlen str

/-- The source has as many bytes as are asked for. -/
def Valid : Init → Prop
  | .newlen (some init) initlen => initlen ≤ init.length
  | _ => True

end Init

/-- A call on a string. -/
inductive Call where
  | clr
  | grow (cap : ℕ)
  | ncpy (str : Option (List Byte)) (len : ℕ)
  | cpy (str : Option (List Byte))
  | ncat (str : Option (List Byte)) (len : ℕ)
  | cat (str : Option (List Byte))
  | vprintf (text : Option (List Byte))
deriving DecidableEq

namespace Call

/-- Running the call, with the answer of the allocator to the request it may make. -/
def run (a : Alloc Byte) (ws : WbaStr) : Call → Option (Bool × WbaStr)
  | .clr => (wbaStrclr ws).map fun ws => (true, ws)
  | .grow cap => wbaStrgrow a ws cap
  | .ncpy str len => wbaStrncpy a ws str len
  | .cpy str => wbaStrcpy a ws str
  | .ncat str len => wbaStrncat a ws str len
  | .cat str => wbaStrcat a ws str
  | .vprintf text => wbaStrcatVprintf a ws text

/-- What the call does to a sequence of bytes. -/
def apply (bytes : List Byte) : Call → List Byte
  | .clr => []
  | .grow _ => bytes
  | .ncpy str len => (str.map (List.take len)).getD bytes
  | .cpy str => (str.map (List.takeWhile (· != 0))).getD bytes
  | .ncat str len => bytes ++ (str.map (List.take len)).getD []
  | .cat str => bytes ++ (str.map (List.takeWhile (· != 0))).getD []
  | .vprintf text => bytes ++ text.getD []

/-- The number of bytes the call asks for. -/
def size : Call → ℕ
  | .clr => 0
  | .grow cap => cap
  | .ncpy _ len => len
  | .cpy str => (str.map strlen).getD 0
  | .ncat _ len => len
  | .cat str => (str.map strlen).getD 0
  | .vprintf text => (text.map List.length).getD 0

/-- There is a text to append. -/
def renders : Call → Bool
  | .vprintf none => false
  | .vprintf (some text) => decide (text.length ≤ intMax)
  | _ => true

/-- The capacity that the call needs in a string with `len` bytes. -/
def needs (len : ℕ) : Call → ℕ
  | .clr => 0
  | .grow cap => cap
  | .ncpy str n => (str.map fun _ => n).getD 0
  | .cpy str => (str.map strlen).getD 0
  | .ncat str n => (str.map fun _ => len + n).getD 0
  | .cat str => (str.map fun mem => len + strlen mem).getD 0
  | .vprintf text => (text.map fun text => len + text.length).getD 0

/-- The capacity that it asks for when it needs more than there is. -/
def requests (len : ℕ) : Call → ℕ
  | .grow cap => cap
  | c => reserved (c.needs len)

/-- The call returns the string: there is a text to append, and there is room or more room is
granted. -/
def succeeds (a : Alloc Byte) (len cap : ℕ) (c : Call) : Bool :=
  c.renders && granted a cap (c.needs len) (c.requests len)

/-- The source has as many bytes as are asked for, and a source that is to be copied is not
empty. -/
def Valid : Call → Prop
  | .ncpy (some str) len => 0 < len ∧ len ≤ str.length
  | .cpy (some str) => 0 < strlen str
  | .ncat (some str) len => len ≤ str.length
  | _ => True

end Call

theorem take_strlen (mem : List Byte) : mem.take (strlen mem) = mem.takeWhile (· != 0) := by
  rw [strlen]
  exact List.prefix_iff_eq_take.1 (List.takeWhile_prefix _) |>.symm

theorem strlen_le (mem : List Byte) : strlen mem ≤ mem.length :=
  (List.takeWhile_prefix _).length_le

/-- A call that needs no room. -/
theorem Call.succeeds_of_needs {c : Call} {len cap : ℕ} (hrenders : c.renders = true)
    (hneeds : c.needs len ≤ cap) (a : Alloc Byte) : c.succeeds a len cap = true := by
  rw [Call.succeeds, hrenders, granted_of_cap_le hneeds]
  rfl

/-- One call, in a string that holds some bytes. -/
theorem Holds.run (h : Holds ws bytes) (a : Alloc Byte) {c : Call} (hvalid : c.Valid)
    (hsize : bytes.length + c.size ≤ ptrdiffMax) :
    Results (c.run a ws) ws (c.succeeds a bytes.length ws.cap) (c.apply bytes)
      (capAfter ws.cap (c.needs bytes.length) (c.requests bytes.length)) := by
  have hptr : ptrdiffMax + 1 < sizeMod := by decide
  have hidle : ∀ {c : Call} {ws' : WbaStr}, c.renders = true → c.needs bytes.length = 0 →
      c.run a ws = some (true, ws') → Holds ws' (c.apply bytes) → ws'.cap = ws.cap →
      Results (c.run a ws) ws (c.succeeds a bytes.length ws.cap) (c.apply bytes)
        (capAfter ws.cap (c.needs bytes.length) (c.requests bytes.length)) := by
    intro c ws' hrenders hneeds hrun hholds hcap
    have hle : c.needs bytes.length ≤ ws.cap := hneeds ▸ Nat.zero_le _
    rw [Call.succeeds_of_needs hrenders hle, capAfter_of_le hle]
    exact results_of_holds hrun hholds hcap
  cases c with
  | clr =>
      obtain ⟨ws', hclr, hholds⟩ := h.wbaStrclr
      have hstore : { ws with len := 0 }.store 0 [0] = some ws' := hclr
      have hcap := cap_of_store hstore
      exact hidle rfl rfl (by simp [Call.run, hclr]) hholds hcap
  | grow cap =>
      have hcap : cap + 1 < sizeMod := by
        simp only [Call.size] at hsize
        omega
      exact h.wbaStrgrow a cap hcap
  | ncpy str len =>
      cases str with
      | none => exact hidle rfl rfl rfl h rfl
      | some mem =>
          have hlen : (mem.take len).length = len := by
            rw [List.length_take]
            exact Nat.min_eq_left hvalid.2
          refine h.wbaStrncpy (fun hnil => ?_) hlen.symm rfl ?_
          · rw [hnil] at hlen
            exact absurd hvalid.1 (by simp [← hlen])
          · simp only [Call.size] at hsize
            omega
  | cpy str =>
      cases str with
      | none => exact hidle rfl rfl rfl h rfl
      | some mem =>
          refine h.wbaStrncpy (fun hnil => ?_) rfl (take_strlen mem) ?_
          · have hpos : 0 < strlen mem := hvalid
            rw [strlen, hnil] at hpos
            exact absurd hpos (by simp)
          · change strlen mem ≤ ptrdiffMax
            simp only [Call.size, Option.map_some, Option.getD_some] at hsize
            omega
  | ncat str len =>
      cases str with
      | none =>
          have hnil : (Call.ncat none len).apply bytes = bytes := List.append_nil bytes
          exact hidle rfl rfl rfl (hnil.symm ▸ h) rfl
      | some mem =>
          have hlen : (mem.take len).length = len := by
            rw [List.length_take]
            exact Nat.min_eq_left hvalid
          exact h.wbaStrncat hlen.symm rfl hsize
  | cat str =>
      cases str with
      | none =>
          have hnil : (Call.cat none).apply bytes = bytes := List.append_nil bytes
          exact hidle rfl rfl rfl (hnil.symm ▸ h) rfl
      | some mem => exact h.wbaStrncat rfl (take_strlen mem) hsize
  | vprintf text =>
      cases text with
      | none => exact results_of_null rfl
      | some text =>
          by_cases htext : text.length ≤ intMax
          · have hrenders : (Call.vprintf (some text)).renders = true := decide_eq_true htext
            rw [Call.succeeds, hrenders, Bool.true_and]
            exact h.wbaStrcatVprintf htext hsize
          · have hrenders : (Call.vprintf (some text)).renders = false := decide_eq_false htext
            rw [Call.succeeds, hrenders, Bool.false_and]
            apply results_of_null
            have hlen : vsnprintfLen (some text) = -1 := if_neg htext
            simp [Call.run, WbaStr.wbaStrcatVprintf, hlen]

/-- The number of bytes does not exceed what has been asked for. -/
theorem Call.length_apply_le (bytes : List Byte) (c : Call) :
    (c.apply bytes).length ≤ bytes.length + c.size := by
  have hstr : ∀ mem : List Byte, (mem.takeWhile (· != 0)).length = strlen mem := fun _ => rfl
  cases c with
  | clr => simp [Call.apply]
  | grow cap => simp [Call.apply]
  | ncpy str len =>
      cases str with
      | none => exact Nat.le_add_right _ _
      | some str => exact Nat.le_trans (List.length_take_le len str) (Nat.le_add_left _ _)
  | cpy str => cases str <;> simp [Call.apply, Call.size, hstr]
  | ncat str len =>
      simp only [Call.apply, Call.size, List.length_append]
      apply Nat.add_le_add_left
      cases str with
      | none => exact Nat.zero_le len
      | some str => exact List.length_take_le len str
  | cat str => cases str <;> simp [Call.apply, Call.size, hstr]
  | vprintf text => cases text <;> simp [Call.apply, Call.size]

/-- Running calls one after the other: what they return, and the string in the end. -/
def runAll : List (Alloc Byte × Call) → WbaStr → Option (List Bool × WbaStr)
  | [], ws => some ([], ws)
  | (a, c) :: calls, ws => do
      let r ← c.run a ws
      let rs ← runAll calls r.2
      pure (r.1 :: rs.1, rs.2)

/-- What calls with the given return values do to a sequence of bytes. -/
def applyAll : List (Call × Bool) → List Byte → List Byte
  | [], bytes => bytes
  | (c, ok) :: calls, bytes => applyAll calls (if ok then c.apply bytes else bytes)

/-- The number of bytes that calls ask for. -/
def totalSize (calls : List (Alloc Byte × Call)) : ℕ := (calls.map fun c => c.2.size).sum

/-- What a string is for its caller: a sequence of bytes, and how many there is room for. -/
structure ByteSeq where
  bytes : List Byte
  cap : ℕ
deriving DecidableEq

/-- The effect of a call: what it returns, and the sequence afterwards. -/
def Call.effect (a : Alloc Byte) (v : ByteSeq) (c : Call) : Bool × ByteSeq :=
  if c.succeeds a v.bytes.length v.cap then
    (true, ⟨c.apply v.bytes, capAfter v.cap (c.needs v.bytes.length) (c.requests v.bytes.length)⟩)
  else (false, v)

theorem Call.effect_fst (a : Alloc Byte) (v : ByteSeq) (c : Call) :
    (c.effect a v).1 = c.succeeds a v.bytes.length v.cap := by
  unfold Call.effect
  cases c.succeeds a v.bytes.length v.cap with
  | true => rfl
  | false => rfl

theorem Call.bytes_effect (a : Alloc Byte) (v : ByteSeq) (c : Call) :
    (c.effect a v).2.bytes = if (c.effect a v).1 then c.apply v.bytes else v.bytes := by
  unfold Call.effect
  cases c.succeeds a v.bytes.length v.cap with
  | true => rfl
  | false => rfl

/-- The effect of calls one after the other. -/
def effects : List (Alloc Byte × Call) → ByteSeq → List Bool × ByteSeq
  | [], v => ([], v)
  | (a, c) :: calls, v =>
      let r := c.effect a v
      let rs := effects calls r.2
      (r.1 :: rs.1, rs.2)

theorem length_effects (calls : List (Alloc Byte × Call)) (v : ByteSeq) :
    (effects calls v).1.length = calls.length := by
  induction calls generalizing v with
  | nil => rfl
  | cons head calls ih => rw [effects, List.length_cons, List.length_cons, ih]

/-- The bytes in the end are what the calls that return the string make of the first ones. -/
theorem bytes_effects (calls : List (Alloc Byte × Call)) (v : ByteSeq) :
    (effects calls v).2.bytes =
      applyAll ((calls.map Prod.snd).zip (effects calls v).1) v.bytes := by
  induction calls generalizing v with
  | nil => rfl
  | cons head calls ih =>
      obtain ⟨a, c⟩ := head
      simp only [effects, List.map_cons, List.zip_cons_cons, applyAll]
      rw [ih, c.bytes_effect]

/-- The string is the sequence. -/
structure Refines (ws : WbaStr) (v : ByteSeq) : Prop where
  holds : Holds ws v.bytes
  cap : ws.cap = v.cap

theorem Refines.run {v : ByteSeq} (h : Refines ws v) (a : Alloc Byte) {c : Call}
    (hvalid : c.Valid) (hsize : v.bytes.length + c.size ≤ ptrdiffMax) :
    ∃ ws', c.run a ws = some ((c.effect a v).1, ws') ∧ Refines ws' (c.effect a v).2 ∧
      ((c.effect a v).1 = false → ws' = ws) := by
  obtain ⟨ws', hrun, hok, hfail⟩ := h.holds.run a hvalid hsize
  rw [h.cap] at hrun hok hfail
  refine ⟨ws', ?_⟩
  unfold Call.effect
  split_ifs with hsucceeds
  · obtain ⟨hholds, hcap⟩ := hok hsucceeds
    rw [hsucceeds] at hrun
    exact ⟨hrun, ⟨hholds, hcap⟩, fun hno => absurd hno (by simp)⟩
  · rw [Bool.not_eq_true] at hsucceeds
    obtain rfl := hfail hsucceeds
    rw [hsucceeds] at hrun
    exact ⟨hrun, h, fun _ => rfl⟩

theorem Call.length_effect_le (a : Alloc Byte) (v : ByteSeq) (c : Call) :
    (c.effect a v).2.bytes.length ≤ v.bytes.length + c.size := by
  unfold Call.effect
  split_ifs
  · exact c.length_apply_le v.bytes
  · exact Nat.le_add_right _ _

theorem Refines.runAll {v : ByteSeq} (h : Refines ws v) {calls : List (Alloc Byte × Call)}
    (hvalid : ∀ c ∈ calls, c.2.Valid) (hsize : v.bytes.length + totalSize calls ≤ ptrdiffMax) :
    ∃ ws', WbaStr.runAll calls ws = some ((effects calls v).1, ws') ∧
      Refines ws' (effects calls v).2 ∧
      (effects calls v).2.bytes.length ≤ v.bytes.length + totalSize calls := by
  induction calls generalizing ws v with
  | nil => exact ⟨ws, rfl, h, Nat.le_refl _⟩
  | cons head calls ih =>
      obtain ⟨a, c⟩ := head
      rw [List.forall_mem_cons] at hvalid
      have htotal : totalSize ((a, c) :: calls) = c.size + totalSize calls := by
        simp [totalSize]
      rw [htotal] at hsize ⊢
      have hlen := c.length_effect_le a v
      have hc : c.Valid := hvalid.1
      obtain ⟨ws₁, hrun, hrefines, -⟩ := h.run a hc (by omega)
      obtain ⟨ws', hrest, hend, hbound⟩ := ih hrefines hvalid.2 (by omega)
      refine ⟨ws', ?_, hend, ?_⟩
      · simp only [WbaStr.runAll, hrun, hrest, Option.bind_eq_bind, Option.bind_some]
        rfl
      · simp only [effects]
        omega

/-! ### Creation -/

theorem holds_wbaStrnewlen (malloc : Bool) (a : Alloc Byte) {init : Option (List Byte)}
    {initlen : ℕ} (hvalid : (Init.newlen init initlen).Valid) (hsize : initlen + 1 < sizeMod) :
    ∃ r, wbaStrnewlen malloc a init initlen = some r ∧
      r.isSome = (malloc && Block.grants a (initlen + 1)) ∧
      ∀ ws, r = some ws → Holds ws (Init.newlen init initlen).contents ∧ ws.cap = initlen := by
  have hmod : (initlen + 1) % sizeMod = initlen + 1 := Nat.mod_eq_of_lt hsize
  unfold wbaStrnewlen
  cases malloc with
  | false => exact ⟨none, rfl, rfl, by simp⟩
  | true =>
      simp only [Bool.not_true, Bool.false_eq_true, if_false, hmod, Bool.true_and,
        ← Block.isSome_malloc]
      cases hb : Block.malloc a (initlen + 1) with
      | none => exact ⟨none, rfl, rfl, by simp⟩
      | some b =>
          have hlen : b.length = initlen + 1 := Block.length_of_malloc hb
          have hsrc : (Init.newlen init initlen).contents.length = initlen := by
            cases init with
            | none => exact List.length_replicate
            | some init =>
                rw [Init.contents, List.length_take]
                exact Nat.min_eq_left hvalid
          obtain ⟨ws₁, ws₂, hfirst, hkeep, hsecond, hholds⟩ :=
            store_terminated { len := initlen, cap := initlen, buf := some b } [] b
              (Init.newlen init initlen).contents rfl (by omega) hlen.symm
          have hcap : ws₂.cap = initlen := cap_of_stores hfirst hsecond
          have hws : { ws₁ with len := initlen } = ws₁ := by
            cases ws₁
            cases hkeep
            rfl
          rw [List.nil_append, hsrc, hws] at hsecond
          refine ⟨some ws₂, ?_, rfl, fun ws hws => Option.some.inj hws ▸ ⟨hholds, hcap⟩⟩
          cases init with
          | none =>
              have hfirst' : store _ 0 (List.replicate initlen 0) = some ws₁ := hfirst
              simp only [hfirst', Option.bind_eq_bind, Option.bind_some, hsecond]
              rfl
          | some init =>
              have hfirst' : store _ 0 (init.take initlen) = some ws₁ := hfirst
              simp only [hfirst', Option.bind_eq_bind, Option.bind_some, hsecond]
              rfl

theorem holds_wbaStrnew (malloc : Bool) (a : Alloc Byte) {cap : ℕ} (hsize : cap + 1 < sizeMod) :
    ∃ r, wbaStrnew malloc a cap = some r ∧
      r.isSome = (malloc && Block.grants a (cap + 1)) ∧
      ∀ ws, r = some ws → Holds ws [] ∧ ws.cap = cap := by
  have hmod : (cap + 1) % sizeMod = cap + 1 := Nat.mod_eq_of_lt hsize
  unfold wbaStrnew
  cases malloc with
  | false => exact ⟨none, rfl, rfl, by simp⟩
  | true =>
      simp only [Bool.not_true, Bool.false_eq_true, if_false, hmod, Bool.true_and,
        ← Block.isSome_malloc]
      cases hb : Block.malloc a (cap + 1) with
      | none => exact ⟨none, rfl, rfl, by simp⟩
      | some b =>
          have hlen : b.length = (List.replicate (cap + 1) (0 : Byte)).length := by
            rw [Block.length_of_malloc hb, List.length_replicate]
          have hwrite : Block.write ([] ++ b ++ []) ([] : List Byte).length _ = _ :=
            Block.write_append hlen
          rw [List.nil_append, List.append_nil, List.nil_append, List.append_nil] at hwrite
          have hstore : store { len := 0, cap := cap, buf := some b } 0
              (List.replicate (cap + 1) 0) = _ := store_eq_some _ rfl hwrite
          have hholds :
              Holds { len := 0, cap := cap, buf := some (List.replicate (cap + 1) 0) } [] :=
            ⟨rfl, List.replicate cap 0, rfl, by simp⟩
          refine ⟨some _, ?_, rfl, fun ws hws => Option.some.inj hws ▸ ⟨hholds, rfl⟩⟩
          simp only [hstore, Option.bind_eq_bind, Option.bind_some]
          rfl

theorem Init.length_contents_le (i : Init) : i.contents.length ≤ i.size := by
  cases i with
  | newlen init initlen =>
      cases init with
      | none => exact Nat.le_of_eq List.length_replicate
      | some init =>
          rw [Init.contents, List.length_take]
          exact Nat.min_le_left _ _
  | new cap => exact Nat.zero_le cap
  | new2 str =>
      cases str with
      | none => exact Nat.le_refl 0
      | some str => exact Nat.le_refl _

/-- A new string holds its initial bytes. -/
theorem Init.holds_create (i : Init) (malloc : Bool) (a : Alloc Byte) (hvalid : i.Valid)
    (hsize : i.size + 1 < sizeMod) :
    ∃ r, i.create malloc a = some r ∧ r.isSome = (malloc && Block.grants a (i.size + 1)) ∧
      ∀ ws, r = some ws → Holds ws i.contents ∧ ws.cap = i.size := by
  cases i with
  | newlen init initlen => exact holds_wbaStrnewlen malloc a hvalid hsize
  | new cap => exact holds_wbaStrnew malloc a hsize
  | new2 str =>
      cases str with
      | none =>
          have hnone : (Init.newlen none 0).Valid := trivial
          exact holds_wbaStrnewlen malloc a hnone hsize
      | some str =>
          have hle : (Init.newlen (some str) (strlen str)).Valid :=
            (List.takeWhile_prefix _).length_le
          have hnew := holds_wbaStrnewlen malloc a hle hsize
          rw [Init.contents, take_strlen] at hnew
          exact hnew

/-! ### The refinement -/

/-- The block has one byte more than the capacity, the length is within the capacity and the string
is terminated. -/
def Sound (ws : WbaStr) : Prop :=
  ∃ b, ws.buf = some b ∧ b.length = ws.cap + 1 ∧ ws.len ≤ ws.cap ∧ b[ws.len]? = some 0

/-- The bytes before the terminator. -/
def contents (ws : WbaStr) : List Byte := (ws.buf.getD []).take ws.len

theorem Holds.sound (h : Holds ws bytes) : Sound ws := by
  obtain ⟨rest, hbuf, hcap⟩ := h.block
  refine ⟨_, hbuf, ?_, ?_, ?_⟩
  · simp only [List.length_append, List.length_cons]
    omega
  · rw [h.len, hcap]
    exact Nat.le_add_right _ _
  · rw [h.len]
    simp

theorem Holds.contents_eq (h : Holds ws bytes) : ws.contents = bytes := by
  obtain ⟨rest, hbuf, -⟩ := h.block
  rw [contents, hbuf, h.len]
  exact List.take_left

/-- A string refines the sequence of its bytes: whatever the allocator does, creating it and all
calls stay within its block, it stays sound, and its contents are what the calls that returned the
string make of the initial bytes. A new string is returned when its memory is granted. What each
call returns, and the capacity, is the effect on a sequence, so a call returns null only if there is
no text to append or if it needs more room and the allocator refuses it. A call that returns null
leaves the string as it was. -/
theorem runAll_refines (i : Init) (hinit : i.Valid) (malloc : Bool) (a : Alloc Byte)
    {calls : List (Alloc Byte × Call)} (hvalid : ∀ c ∈ calls, c.2.Valid)
    (hsize : i.size + totalSize calls ≤ ptrdiffMax) :
    ∃ r, i.create malloc a = some r ∧ r.isSome = (malloc && Block.grants a (i.size + 1)) ∧
      ∀ ws, r = some ws → Sound ws ∧ ws.contents = i.contents ∧
        ∃ oks ws', runAll calls ws = some (oks, ws') ∧ oks.length = calls.length ∧ Sound ws' ∧
          ws'.contents = applyAll ((calls.map Prod.snd).zip oks) i.contents ∧
          (oks, ⟨ws'.contents, ws'.cap⟩) = effects calls ⟨i.contents, i.size⟩ ∧
          ∀ (a' : Alloc Byte) (c : Call), c.Valid →
            i.size + totalSize calls + c.size ≤ ptrdiffMax →
            ∃ ok ws'', c.run a' ws' = some (ok, ws'') ∧ Sound ws'' ∧
              (ok = true ↔ c.renders = true ∧ (c.needs ws'.len ≤ ws'.cap ∨
                Block.grants a' (c.requests ws'.len + 1) = true)) ∧
              (ok = true → ws''.contents = c.apply ws'.contents) ∧ (ok = false →
                ws''.contents = ws'.contents ∧ ws''.len = ws'.len ∧ ws''.cap = ws'.cap) := by
  have hptr : ptrdiffMax + 1 < sizeMod := by decide
  obtain ⟨r, hcreate, hsome, hnew⟩ := i.holds_create malloc a hinit (by omega)
  refine ⟨r, hcreate, hsome, fun ws hws => ?_⟩
  obtain ⟨hholds, hcap⟩ := hnew ws hws
  have hrefines : Refines ws ⟨i.contents, i.size⟩ := ⟨hholds, hcap⟩
  have hlen := i.length_contents_le
  have hfits : i.contents.length + totalSize calls ≤ ptrdiffMax := by omega
  obtain ⟨ws', hrun, hend, hbound⟩ := hrefines.runAll hvalid hfits
  have hbytes := bytes_effects calls ⟨i.contents, i.size⟩
  refine ⟨hholds.sound, hholds.contents_eq, _, ws', hrun, length_effects _ _, hend.holds.sound,
    hend.holds.contents_eq.trans hbytes, ?_, fun a' c hc hmore => ?_⟩
  · rw [hend.holds.contents_eq, hend.cap]
  · have hroom : (effects calls ⟨i.contents, i.size⟩).2.bytes.length + c.size ≤ ptrdiffMax := by
      change _ ≤ i.contents.length + totalSize calls at hbound
      omega
    obtain ⟨ws'', hcall, hnext, hfail⟩ := hend.run a' hc hroom
    refine ⟨_, ws'', hcall, hnext.holds.sound, ?_, fun hyes => ?_, fun hno => ?_⟩
    · rw [c.effect_fst, hend.holds.len, hend.cap, Call.succeeds, granted, Bool.and_eq_true,
        Bool.or_eq_true, decide_eq_true_iff]
    · rw [hnext.holds.contents_eq, c.bytes_effect, if_pos hyes, hend.holds.contents_eq]
    · rw [hfail hno]
      exact ⟨rfl, rfl, rfl⟩

/-- Three bytes with a null byte among them are appended, then there is no more memory. -/
def appendCalls : List (Alloc Byte × Call) :=
  [(some fun _ => 9, .ncat (some [65, 0, 66]) 3), (none, .grow 100), (none, .vprintf (some [67]))]

theorem runAll_refines_appendCalls :
    ∃ ws, (Init.new 1).create true (some fun _ => 7) = some (some ws) ∧
      ∃ oks ws', runAll appendCalls ws = some (oks, ws') ∧ Sound ws' ∧
        ws'.contents = applyAll ((appendCalls.map Prod.snd).zip oks) [] ∧
        oks = [true, false, true] := by
  have hvalid : ∀ c ∈ appendCalls, c.2.Valid := by
    simp [appendCalls, Call.Valid]
  have hsize : (Init.new 1).size + totalSize appendCalls ≤ ptrdiffMax := by decide
  obtain ⟨r, hcreate, -, hall⟩ :=
    runAll_refines (Init.new 1) trivial true (some fun _ => 7) hvalid hsize
  obtain ⟨ws, hws⟩ : ∃ ws, (Init.new 1).create true (some fun _ => 7) = some (some ws) :=
    ⟨_, rfl⟩
  obtain ⟨-, -, oks, ws', hrun, -, hsound, hcontents, heffects, -⟩ :=
    hall ws (Option.some.inj (hcreate.symm.trans hws))
  have hoks : oks = (effects appendCalls ⟨[], 1⟩).1 := congrArg Prod.fst heffects
  exact ⟨ws, hws, oks, ws', hrun, hsound, hcontents, hoks.trans (by decide)⟩

example : (((Init.new 1).create true (some fun _ => 7)).join.bind (runAll appendCalls)).map
    (fun r => (r.1, r.2.contents)) = some ([true, false, true], [65, 0, 66, 67]) := by
  decide

end WbaStr

end Miscellany
