import Miscellany.Str.Refinement

/-!
# Requested capacities

A capacity is a `size_t`, and `cap + 1` bytes are requested from the allocator. For `SIZE_MAX` the
sum is `0`. Then `malloc` gives a block without bytes, which `wba_strnew` returns and outside of
which `wba_strnewlen` writes, and `realloc` in `wba_strgrow` frees the block of the string. All
other capacities are honoured or refused, in every state that is reached without such a request
(`Reached`).
-/

namespace Miscellany

namespace WbaStr

variable {ws ws' : WbaStr} {bytes src : List Byte} {a : Alloc Byte} {cap : ℕ} {ok : Bool}

/-- The largest value of the type `size_t`. -/
def sizeMax : ℕ := sizeMod - 1

/-- The block of the string has the bytes of the capacity and one more. -/
def HasRoom (ws : WbaStr) (cap : ℕ) : Prop := ∃ b, ws.buf = some b ∧ cap + 1 ≤ b.length

def NewHonoured (cap : ℕ) : Prop :=
  ∀ malloc a, ∃ r, wbaStrnew malloc a cap = some r ∧ ∀ ws, r = some ws → ws.HasRoom cap

def NewlenHonoured (cap : ℕ) : Prop :=
  ∀ malloc a, ∃ r, wbaStrnewlen malloc a none cap = some r ∧ ∀ ws, r = some ws → ws.HasRoom cap

/-- If the call returns null, nothing has changed. -/
def GrowHonoured (ws : WbaStr) (cap : ℕ) : Prop :=
  ∀ a, ∃ ok ws', wbaStrgrow a ws cap = some (ok, ws') ∧ (ok = true → ws'.HasRoom cap) ∧
    (ok = false → ws' = ws)

/-- A call that does not request `SIZE_MAX`. A source has as many bytes as are asked for, and is in
the same memory as the string. -/
def Call.Admissible (ws : WbaStr) : Call → Prop
  | .grow cap => cap + 1 < sizeMod
  | .ncpy (some str) len => len ≤ str.length ∧ ws.len + len ≤ ptrdiffMax
  | .cpy (some str) => ws.len + strlen str ≤ ptrdiffMax
  | .ncat (some str) len => len ≤ str.length ∧ ws.len + len ≤ ptrdiffMax
  | .cat (some str) => ws.len + strlen str ≤ ptrdiffMax
  | .vprintf (some text) => text.length ≤ intMax → ws.len + text.length ≤ ptrdiffMax
  | _ => True

/-- The strings that are created and changed without a request for `SIZE_MAX`. -/
inductive Reached : WbaStr → Prop where
  | create {ws : WbaStr} {i : Init} {malloc : Bool} {a : Alloc Byte} (hvalid : i.Valid)
      (hsize : i.size + 1 < sizeMod) (hcreate : i.create malloc a = some (some ws)) : Reached ws
  | call {ws ws' : WbaStr} {c : Call} {a : Alloc Byte} {ok : Bool} (hws : Reached ws)
      (hc : c.Admissible ws) (hrun : c.run a ws = some (ok, ws')) : Reached ws'

/-! ### Capacities that are set -/

/-- The capacity is kept, or it is that of a block that the allocator gave. -/
def CapKept (ws ws' : WbaStr) : Prop := ws'.cap = ws.cap ∨ ws'.cap + 1 < sizeMod

/-- A request for `SIZE_MAX` sets no capacity, because `realloc` returns null. -/
theorem capKept_of_wbaStrgrow (hcap : cap < sizeMod) (h : wbaStrgrow a ws cap = some (ok, ws')) :
    CapKept ws ws' := by
  unfold wbaStrgrow at h
  split_ifs at h with hle
  · cases h
    exact Or.inl rfl
  · obtain ⟨b, -, h⟩ := Option.bind_eq_some_iff.1 h
    cases hrealloc : Block.realloc a b ((cap + 1) % sizeMod) with
    | mk new old =>
        rw [hrealloc] at h
        cases new with
        | none =>
            cases h
            exact Or.inl rfl
        | some new =>
            cases h
            rcases Nat.lt_or_eq_of_le (Nat.succ_le_of_lt hcap) with hlt | hmax
            · exact Or.inr hlt
            · rw [Nat.succ_eq_add_one] at hmax
              rw [hmax, Nat.mod_self] at hrealloc
              cases hrealloc

theorem capKept_of_wbaStrReserve (h : wbaStrReserve a ws cap = some (ok, ws')) :
    CapKept ws ws' := by
  have hpos : 0 < sizeMod := by decide
  unfold wbaStrReserve at h
  split_ifs at h
  · cases h
    exact Or.inl rfl
  · exact capKept_of_wbaStrgrow (Nat.mod_lt _ hpos) h
  · exact capKept_of_wbaStrgrow (Nat.mod_lt _ hpos) h

/-- What is done after the reservation only writes to the block. -/
theorem capKept_of_bind {k : Bool × WbaStr → Option (Bool × WbaStr)}
    (hk : ∀ r, k r = some (ok, ws') → ws'.cap = r.2.cap)
    (h : (wbaStrReserve a ws cap).bind k = some (ok, ws')) : CapKept ws ws' := by
  obtain ⟨⟨ok₁, ws₁⟩, hreserve, hr⟩ := Option.bind_eq_some_iff.1 h
  rw [CapKept, hk _ hr]
  exact capKept_of_wbaStrReserve hreserve

/-- Writing a source and the terminator behind it. -/
theorem capKept_of_writes (pos newLen : WbaStr → ℕ)
    (h : (wbaStrReserve a ws cap).bind (fun r =>
        if !r.1 then some (false, r.2)
        else (r.2.store (pos r.2) src).bind fun ws =>
          ({ ws with len := newLen ws }.store (newLen ws) [0]).bind fun ws => some (true, ws)) =
      some (ok, ws')) : CapKept ws ws' := by
  refine capKept_of_bind (fun r hr => ?_) h
  split_ifs at hr
  · cases hr
    rfl
  · obtain ⟨ws₁, hfirst, hr⟩ := Option.bind_eq_some_iff.1 hr
    obtain ⟨ws₂, hsecond, hr⟩ := Option.bind_eq_some_iff.1 hr
    cases hr
    exact cap_of_stores hfirst hsecond

theorem capKept_of_wbaStrncpy {str : Option (List Byte)} {len : ℕ}
    (h : wbaStrncpy a ws str len = some (ok, ws')) : CapKept ws ws' := by
  cases str with
  | none =>
      cases h
      exact Or.inl rfl
  | some str =>
      simp only [wbaStrncpy] at h
      split_ifs at h with hlen
      · cases h
        exact Or.inl rfl
      · exact capKept_of_writes (fun _ => 0) (fun _ => len) h

theorem capKept_of_wbaStrncat {str : Option (List Byte)} {len : ℕ}
    (h : wbaStrncat a ws str len = some (ok, ws')) : CapKept ws ws' := by
  cases str with
  | none =>
      cases h
      exact Or.inl rfl
  | some str =>
      simp only [wbaStrncat] at h
      split_ifs at h with hlen
      · cases h
        exact Or.inl rfl
      · exact capKept_of_writes WbaStr.len (fun ws => (ws.len + len) % sizeMod) h

theorem capKept_of_wbaStrcatVprintf {text : Option (List Byte)}
    (h : wbaStrcatVprintf a ws text = some (ok, ws')) : CapKept ws ws' := by
  simp only [wbaStrcatVprintf] at h
  split_ifs at h with hlen
  · cases h
    exact Or.inl rfl
  · refine capKept_of_bind (fun r hr => ?_) h
    split_ifs at hr
    · cases hr
      rfl
    · obtain ⟨ws₁, hfirst, hr⟩ := Option.bind_eq_some_iff.1 hr
      cases hr
      have hcap := cap_of_store hfirst
      exact hcap

theorem Call.capKept {c : Call} (hc : c.Admissible ws) (h : c.run a ws = some (ok, ws')) :
    CapKept ws ws' := by
  cases c with
  | clr =>
      obtain ⟨ws₁, hclr, heq⟩ := Option.map_eq_some_iff.1 h
      cases heq
      have hstore : { ws with len := 0 }.store 0 [0] = some ws' := hclr
      have hcap := cap_of_store hstore
      exact Or.inl hcap
  | grow cap =>
      have hcap : cap + 1 < sizeMod := hc
      exact capKept_of_wbaStrgrow (by omega) h
  | ncpy str len => exact capKept_of_wbaStrncpy h
  | cpy str =>
      cases str with
      | none =>
          cases h
          exact Or.inl rfl
      | some mem =>
          have hcpy : wbaStrncpy a ws (some mem) (strlen mem) = some (ok, ws') := h
          exact capKept_of_wbaStrncpy hcpy
  | ncat str len => exact capKept_of_wbaStrncat h
  | cat str =>
      cases str with
      | none =>
          cases h
          exact Or.inl rfl
      | some mem =>
          have hcat : wbaStrncat a ws (some mem) (strlen mem) = some (ok, ws') := h
          exact capKept_of_wbaStrncat hcat
  | vprintf text => exact capKept_of_wbaStrcatVprintf h

/-! ### States that are reached -/

theorem Results.exists_holds {r : Option (Bool × WbaStr)} {granted : Bool} {bytes' : List Byte}
    {cap : ℕ} (h : Results r ws granted bytes' cap) (hws : Holds ws bytes)
    (hr : r = some (ok, ws')) : ∃ bytes, Holds ws' bytes := by
  obtain ⟨ws₁, heq, hok, hfail⟩ := h
  rw [hr] at heq
  cases heq
  cases ok with
  | true => exact ⟨bytes', (hok rfl).1⟩
  | false =>
      rw [hfail rfl]
      exact ⟨bytes, hws⟩

theorem Holds.exists_wbaStrncpy {mem : List Byte} {len : ℕ} (h : Holds ws bytes)
    (hlen : len ≤ mem.length) (hsize : ws.len + len ≤ ptrdiffMax)
    (hrun : WbaStr.wbaStrncpy a ws (some mem) len = some (ok, ws')) :
    ∃ bytes, Holds ws' bytes := by
  rcases Nat.eq_zero_or_pos len with rfl | hpos
  · cases hrun
    exact ⟨bytes, h⟩
  · have hvalid : (Call.ncpy (some mem) len).Valid := ⟨hpos, hlen⟩
    rw [h.len] at hsize
    exact (h.run a hvalid hsize).exists_holds h hrun

theorem Holds.exists_wbaStrncat {mem : List Byte} {len : ℕ} (h : Holds ws bytes)
    (hlen : len ≤ mem.length) (hsize : ws.len + len ≤ ptrdiffMax)
    (hrun : WbaStr.wbaStrncat a ws (some mem) len = some (ok, ws')) :
    ∃ bytes, Holds ws' bytes := by
  have hvalid : (Call.ncat (some mem) len).Valid := hlen
  rw [h.len] at hsize
  exact (h.run a hvalid hsize).exists_holds h hrun

theorem Call.exists_holds {c : Call} (hc : c.Admissible ws) (h : Holds ws bytes)
    (hrun : c.run a ws = some (ok, ws')) : ∃ bytes, Holds ws' bytes := by
  cases c with
  | clr =>
      obtain ⟨ws₁, hclr, heq⟩ := Option.map_eq_some_iff.1 hrun
      obtain ⟨ws₂, hclr', hholds⟩ := h.wbaStrclr
      rw [hclr] at hclr'
      cases hclr'
      cases heq
      exact ⟨[], hholds⟩
  | grow cap => exact (h.wbaStrgrow a cap hc).exists_holds h hrun
  | ncpy str len =>
      cases str with
      | none =>
          cases hrun
          exact ⟨bytes, h⟩
      | some mem => exact h.exists_wbaStrncpy hc.1 hc.2 hrun
  | cpy str =>
      cases str with
      | none =>
          cases hrun
          exact ⟨bytes, h⟩
      | some mem => exact h.exists_wbaStrncpy (strlen_le mem) hc hrun
  | ncat str len =>
      cases str with
      | none =>
          cases hrun
          exact ⟨bytes, h⟩
      | some mem => exact h.exists_wbaStrncat hc.1 hc.2 hrun
  | cat str =>
      cases str with
      | none =>
          cases hrun
          exact ⟨bytes, h⟩
      | some mem => exact h.exists_wbaStrncat (strlen_le mem) hc hrun
  | vprintf text =>
      cases text with
      | none =>
          cases hrun
          exact ⟨bytes, h⟩
      | some text =>
          by_cases htext : text.length ≤ intMax
          · have hsize : ws.len + text.length ≤ ptrdiffMax := hc htext
            rw [h.len] at hsize
            exact (h.wbaStrcatVprintf htext hsize).exists_holds h hrun
          · have hlen : vsnprintfLen (some text) = -1 := if_neg htext
            have hnull : Call.run a ws (.vprintf (some text)) = some (false, ws) := by
              simp [Call.run, WbaStr.wbaStrcatVprintf, hlen]
            rw [hnull] at hrun
            cases hrun
            exact ⟨bytes, h⟩

/-- A string that is reached holds some bytes, and its capacity is not `SIZE_MAX`. -/
theorem Reached.holds (h : Reached ws) : (∃ bytes, Holds ws bytes) ∧ ws.cap + 1 < sizeMod := by
  induction h with
  | @create ws i malloc a hvalid hsize hcreate =>
      obtain ⟨r, hr, -, hnew⟩ := i.holds_create malloc a hvalid hsize
      rw [hcreate] at hr
      cases hr
      obtain ⟨hholds, hcap⟩ := hnew ws rfl
      rw [hcap]
      exact ⟨⟨_, hholds⟩, hsize⟩
  | @call ws ws' c a ok hws hc hrun ih =>
      obtain ⟨⟨bytes, hholds⟩, hcap⟩ := ih
      refine ⟨Call.exists_holds hc hholds hrun, ?_⟩
      rcases Call.capKept hc hrun with hkept | hset
      · rw [hkept]
        exact hcap
      · exact hset

/-! ### Requests -/

theorem Holds.hasRoom (h : Holds ws bytes) (hcap : cap ≤ ws.cap) : ws.HasRoom cap := by
  obtain ⟨rest, hbuf, hlen⟩ := h.block
  refine ⟨_, hbuf, ?_⟩
  simp only [List.length_append, List.length_cons]
  omega

theorem succ_sizeMax_mod : (sizeMax + 1) % sizeMod = 0 := by decide

theorem succ_lt_sizeMod_iff (hcap : cap < sizeMod) : cap + 1 < sizeMod ↔ cap ≠ sizeMax := by
  unfold sizeMax
  omega

/-- `malloc` gives a block without bytes. -/
theorem wbaStrnew_sizeMax :
    wbaStrnew true (some fun _ => 0) sizeMax =
      some (some { len := 0, cap := sizeMax, buf := some [] }) := by
  unfold wbaStrnew
  rw [succ_sizeMax_mod]
  rfl

/-- The bytes are set in a block that has none. -/
theorem wbaStrnewlen_eq_none {n : ℕ} (hmod : (n + 1) % sizeMod = 0) (hpos : 0 < n) :
    wbaStrnewlen true (some fun _ => 0) none n = none := by
  have hmalloc : Block.malloc (some fun _ => (0 : Byte)) 0 = some [] := rfl
  have hfit : ¬ 0 + (List.replicate n (0 : Byte)).length ≤ ([] : List Byte).length := by
    simp only [List.length_replicate, List.length_nil]
    omega
  have hwrite : Block.write [] 0 (List.replicate n (0 : Byte)) = none := by
    rw [Block.write, if_neg hfit]
  simp only [wbaStrnewlen, hmod, hmalloc, store, hwrite, Bool.not_true, Bool.false_eq_true,
    if_false, Option.bind_eq_bind, Option.bind_some, Option.bind_none]

/-- `realloc` frees the block. -/
theorem Holds.wbaStrgrow_sizeMax (h : Holds ws bytes) (hcap : ws.cap + 1 < sizeMod) :
    WbaStr.wbaStrgrow a ws sizeMax = some (false, { ws with buf := none }) := by
  obtain ⟨rest, hbuf, -⟩ := h.block
  have hgrow : ¬ sizeMax ≤ ws.cap := by
    unfold sizeMax
    omega
  simp only [WbaStr.wbaStrgrow, if_neg hgrow, hbuf, succ_sizeMax_mod, Option.bind_eq_bind,
    Option.bind_some]
  rfl

theorem newHonoured_iff (hcap : cap < sizeMod) : NewHonoured cap ↔ cap ≠ sizeMax := by
  constructor
  · rintro h rfl
    obtain ⟨r, hr, hroom⟩ := h true (some fun _ => 0)
    rw [wbaStrnew_sizeMax] at hr
    cases hr
    obtain ⟨b, hb, hlen⟩ := hroom _ rfl
    cases hb
    exact absurd hlen (Nat.not_succ_le_zero _)
  · intro hmax malloc a
    obtain ⟨r, hr, -, hnew⟩ := holds_wbaStrnew malloc a ((succ_lt_sizeMod_iff hcap).2 hmax)
    exact ⟨r, hr, fun ws hws => (hnew ws hws).1.hasRoom (Nat.le_of_eq (hnew ws hws).2.symm)⟩

theorem newlenHonoured_iff (hcap : cap < sizeMod) : NewlenHonoured cap ↔ cap ≠ sizeMax := by
  constructor
  · rintro h rfl
    obtain ⟨r, hr, -⟩ := h true (some fun _ => 0)
    rw [wbaStrnewlen_eq_none succ_sizeMax_mod (by decide)] at hr
    cases hr
  · intro hmax malloc a
    have hvalid : (Init.newlen none cap).Valid := trivial
    obtain ⟨r, hr, -, hnew⟩ :=
      holds_wbaStrnewlen malloc a hvalid ((succ_lt_sizeMod_iff hcap).2 hmax)
    exact ⟨r, hr, fun ws hws => (hnew ws hws).1.hasRoom (Nat.le_of_eq (hnew ws hws).2.symm)⟩

theorem Reached.growHonoured_iff (h : Reached ws) (hcap : cap < sizeMod) :
    GrowHonoured ws cap ↔ cap ≠ sizeMax := by
  obtain ⟨⟨bytes, hholds⟩, hold⟩ := h.holds
  constructor
  · rintro hgrow rfl
    obtain ⟨ok, ws', hws', -, hfail⟩ := hgrow none
    rw [hholds.wbaStrgrow_sizeMax hold] at hws'
    cases hws'
    have hbuf := congrArg WbaStr.buf (hfail rfl)
    obtain ⟨rest, hsome, -⟩ := hholds.block
    rw [hsome] at hbuf
    cases hbuf
  · intro hmax a
    obtain ⟨ws', hgrow, hok, hfail⟩ :=
      hholds.wbaStrgrow a cap ((succ_lt_sizeMod_iff hcap).2 hmax)
    refine ⟨_, ws', hgrow, fun hyes => ?_, hfail⟩
    obtain ⟨hheld, hset⟩ := hok hyes
    exact hheld.hasRoom (hset ▸ le_capAfter (Nat.le_refl cap) ws.cap)

/-- A capacity is honoured or refused, by the functions that create a string and for every string
that is reached without a request for `SIZE_MAX`, exactly when it is not `SIZE_MAX`. -/
theorem capacity_honoured_iff (hcap : cap < sizeMod) :
    (NewHonoured cap ↔ cap ≠ sizeMax) ∧ (NewlenHonoured cap ↔ cap ≠ sizeMax) ∧
      ∀ ws, Reached ws → (GrowHonoured ws cap ↔ cap ≠ sizeMax) :=
  ⟨newHonoured_iff hcap, newlenHonoured_iff hcap, fun _ hws => hws.growHonoured_iff hcap⟩

/-- What `wba_strnew(0)` returns. -/
def emptyStr : WbaStr := { len := 0, cap := 0, buf := some [0] }

theorem reached_emptyStr : Reached emptyStr := by
  have hvalid : (Init.new 0).Valid := trivial
  have hcreate : (Init.new 0).create true (some fun _ => 7) = some (some emptyStr) := by decide
  exact .create hvalid (by decide) hcreate

theorem capacity_honoured_emptyStr :
    NewHonoured 1024 ∧ NewlenHonoured 1024 ∧ GrowHonoured emptyStr 1024 := by
  have hcap : 1024 < sizeMod := by decide
  have hmax : 1024 ≠ sizeMax := by decide
  obtain ⟨hnew, hnewlen, hgrow⟩ := capacity_honoured_iff hcap
  exact ⟨hnew.2 hmax, hnewlen.2 hmax, (hgrow emptyStr reached_emptyStr).2 hmax⟩

/-- As in `grow_test01`: the call returns null, and the string has lost its block. -/
theorem not_growHonoured_sizeMax :
    Reached emptyStr ∧
      wbaStrgrow none emptyStr sizeMax = some (false, { emptyStr with buf := none }) ∧
      ¬ GrowHonoured emptyStr sizeMax := by
  refine ⟨reached_emptyStr, by decide, ?_⟩
  intro hgrow
  obtain ⟨ok, ws', hws', -, hfail⟩ := hgrow none
  have hlost : wbaStrgrow none emptyStr sizeMax = some (false, { emptyStr with buf := none }) := by
    decide
  rw [hlost] at hws'
  cases hws'
  exact absurd (hfail rfl) (by decide)

end WbaStr

end Miscellany
