import Mathlib.Algebra.Ring.Int.Defs
import Miscellany.Sstring.Split
import Miscellany.Str.Refinement
import Miscellany.Str.Tokens

/-!
# What a tokeniser returns

While tokens are stored, the slots in front hold the tokens so far, there is a free slot behind
them, and the memory that the call owns is the array and the tokens (`Storing`). Storing a token
makes two requests to the allocator, or three if the array has to grow. If all are granted, there
is one token more; otherwise everything is freed and null is returned, with `*cnt` still the
number of tokens stored so far (`Storing.storeToken_cases`).

So the result is the full list when all requests are granted, and a failure leaves `*cnt` at zero
only if it happens before the first token is stored.
-/

namespace Miscellany

namespace WbaStr

open Ledger

/-! ### Requests -/

/-- The requests, from the number `n` on, for blocks of the given sizes are granted. -/
def Granted (answers : ℕ → Alloc Byte) : ℕ → List ℕ → Prop
  | _, [] => True
  | n, size :: sizes =>
      (size ≤ ptrdiffMax ∧ (answers n).isSome = true) ∧ Granted answers (n + 1) sizes

/-- The request for a larger array, when there is no free slot but the last. -/
def growRequests (slots cnt : ℤ) : List ℕ :=
  if addInt slots (-1) ≤ cnt then [slotBytes (mulInt slots 2)] else []

/-- The value of `slots` after that. -/
def slotsAfter (slots cnt : ℤ) : ℤ :=
  if addInt slots (-1) ≤ cnt then mulInt slots 2 else slots

/-- The requests for a token of `n` bytes: its structure and its block. -/
def pushRequests (n : ℕ) : List ℕ := [24, n + 1]

def spanRequests : ℤ → ℤ → List (ℕ × ℕ) → List ℕ
  | _, _, [] => []
  | slots, cnt, x :: xs =>
      growRequests slots cnt ++ pushRequests (x.2 - x.1) ++
        spanRequests (slotsAfter slots cnt) (cnt + 1) xs

/-- The requests of a call that are made if none of them fails. -/
def requests (str sep : List Byte) : List ℕ :=
  slotBytes 5 :: spanRequests 5 0 (spans (inToken sep) str)

theorem granted_append {answers : ℕ → Alloc Byte} {n : ℕ} {xs ys : List ℕ} :
    Granted answers n (xs ++ ys) ↔
      Granted answers n xs ∧ Granted answers (n + xs.length) ys := by
  induction xs generalizing n with
  | nil => simp [Granted]
  | cons x xs ih =>
      rw [List.cons_append, Granted, Granted, ih, List.length_cons, ← Nat.add_assoc,
        Nat.add_right_comm]
      exact and_assoc.symm

theorem not_granted_of_none {answers : ℕ → Alloc Byte} {n size : ℕ} {sizes : List ℕ}
    (h : answers n = none) : ¬ Granted answers n (size :: sizes) := by
  intro hgranted
  have hsome := hgranted.1.2
  rw [h] at hsome
  cases hsome

/-! ### The tokens stored -/

variable {answers : ℕ → Alloc Byte} {h₀ : Ledger} {toks : List Token} {texts : List (List Byte)}
variable {st : TokenStore} {str sep : List Byte}

/-- The blocks of a token. -/
def Token.blocks (t : Token) : List ℕ := [t.bufAddr, t.addr]

/-- The tokens are stored, and they and the array are all that the call owns. -/
structure Storing (h₀ : Ledger) (toks : List Token) (texts : List (List Byte)) (st : TokenStore) :
    Prop where
  cnt : st.cnt = toks.length
  slots : st.slots = st.wss.cells.length
  range : st.slots < 2 ^ 31
  room : toks.length < st.wss.cells.length
  cells : ∃ rest, st.wss.cells = toks.map some ++ rest
  holds : List.Forall₂ (fun t text => Holds t.ws text) toks texts
  owns : Owns h₀ st.heap (st.wss.addr :: toks.flatMap Token.blocks)

/-! ### Giving up -/

theorem owns_foldl_wbaStrfree {heap : Ledger} {live : List ℕ}
    (hown : Owns h₀ heap (toks.flatMap Token.blocks ++ live)) :
    Owns h₀ (toks.foldl (fun h t => wbaStrfree t h) heap) live := by
  induction toks generalizing heap with
  | nil => exact hown
  | cons t toks ih =>
      rw [List.flatMap_cons, List.append_assoc] at hown
      exact ih (hown.free.free)

/-- The loop of `wba_strfree_tokens` frees the tokens in the slots. -/
theorem foldlM_freeSlot {wss : Slots} {rest : List (Option Token)}
    (hcells : wss.cells = toks.map some ++ rest) (heap : Ledger) {n : ℕ} (hn : n ≤ toks.length) :
    (List.range n).foldlM (freeSlot wss) heap =
      some ((toks.take n).foldl (fun h t => wbaStrfree t h) heap) := by
  induction n with
  | zero => rfl
  | succ n ih =>
      have hlt : n < toks.length := hn
      have hcell : wss.cells[n]? = some (some toks[n]) := by
        rw [hcells, List.getElem?_append_left (by simpa using hlt), List.getElem?_map,
          List.getElem?_eq_getElem hlt, Option.map_some]
      rw [List.range_succ, List.foldlM_append, ih (Nat.le_of_succ_le hn), List.take_add_one,
        List.getElem?_eq_getElem hlt, List.foldl_append]
      simp [freeSlot, hcell]

/-- Everything is freed, and `*cnt` is left as it is. -/
theorem Storing.giveUp (h : Storing h₀ toks texts st) {heap : Ledger}
    (hown : Owns h₀ heap (st.wss.addr :: toks.flatMap Token.blocks)) (slots : ℤ) :
    ∃ heap', WbaStr.giveUp { st with slots } heap = some (.error ⟨toks.length, heap'⟩) ∧
      Owns h₀ heap' [] := by
  obtain ⟨rest, hcells⟩ := h.cells
  have hloop := foldlM_freeSlot hcells heap (Nat.le_refl toks.length)
  rw [List.take_length] at hloop
  have hlast : Owns h₀ (toks.foldl (fun h t => wbaStrfree t h) heap) [st.wss.addr] :=
    owns_foldl_wbaStrfree (hown.perm (List.perm_append_singleton _ _).symm)
  refine ⟨_, ?_, hlast.free⟩
  simp only [WbaStr.giveUp, wbaStrfreeTokens, h.cnt, Int.toNat_natCast, hloop,
    Option.bind_eq_bind, Option.bind_some]
  rfl

/-! ### Making room -/

theorem addInt_neg_one {slots : ℤ} (hpos : 0 < slots) (hlt : slots < 2 ^ 31) :
    addInt slots (-1) = slots - 1 := by
  rw [addInt, Int.bmod]
  split_ifs <;> omega

theorem slotBytes_natCast {n : ℕ} (hn : n < 2 ^ 31) : slotBytes n = 8 * n := by
  rw [slotBytes, sizeOfInt, sizeMod_eq]
  omega

theorem mulInt_two {slots : ℤ} (hpos : 0 < slots) (hlt : 2 * slots < 2 ^ 31) :
    mulInt slots 2 = 2 * slots := by
  rw [mulInt, Int.bmod]
  split_ifs <;> omega

/-- The double of `slots` is no `int`, and the negative number that it becomes is a size that no
block has. -/
theorem ptrdiffMax_lt_slotBytes {slots : ℤ} (hlt : slots < 2 ^ 31) (hge : 2 ^ 31 ≤ 2 * slots) :
    ptrdiffMax < slotBytes (mulInt slots 2) := by
  have hmul : mulInt slots 2 = 2 * slots - 2 ^ 32 := by
    rw [mulInt, Int.bmod]
    split_ifs <;> omega
  rw [hmul, slotBytes, sizeOfInt, sizeMod_eq, ptrdiffMax_eq]
  omega

/-- The size of the array with the double number of slots. -/
theorem slotBytes_double {n : ℕ} (hpos : 0 < n) (hn : 2 * n < 2 ^ 31) :
    mulInt n 2 = ((2 * n : ℕ) : ℤ) ∧ slotBytes (mulInt n 2) = 16 * n := by
  have hmul : mulInt n 2 = ((2 * n : ℕ) : ℤ) := by
    rw [mulInt_two (Int.natCast_pos.2 hpos) (by omega), Int.natCast_mul]
    rfl
  refine ⟨hmul, ?_⟩
  rw [hmul, slotBytes_natCast hn]
  omega

theorem reallocSlots_double {wss : Slots} (hpos : 0 < wss.cells.length)
    (hn : 2 * wss.cells.length < 2 ^ 31) (answers : ℕ → Alloc Byte) (heap : Ledger) :
    reallocSlots answers wss (mulInt wss.cells.length 2) heap =
      if (answers heap.requests).isSome then
        (some ⟨heap.requests, wss.cells ++ List.replicate wss.cells.length none⟩,
          heap.grant.free wss.addr)
      else (none, heap.refuse) := by
  have hbytes := (slotBytes_double hpos hn).2
  have hzero : slotBytes (mulInt wss.cells.length 2) ≠ 0 := by omega
  have hfits : ¬ ptrdiffMax < slotBytes (mulInt wss.cells.length 2) := by
    rw [hbytes, ptrdiffMax_eq]
    omega
  have hslots : slotBytes (mulInt wss.cells.length 2) / 8 = 2 * wss.cells.length := by omega
  have hnew : 2 * wss.cells.length - wss.cells.length = wss.cells.length := by omega
  rw [reallocSlots, if_neg hzero, if_neg hfits]
  simp only [hslots, hnew]
  rw [List.take_of_length_le (Nat.le_mul_of_pos_left _ (by decide))]
  cases answers heap.requests with
  | none => rfl
  | some junk => rfl

/-- The tokens are stored in the array with the double number of slots. -/
theorem Storing.double (h : Storing h₀ toks texts st) (hn : 2 * st.wss.cells.length < 2 ^ 31) :
    Storing h₀ toks texts
      { st with
        slots := mulInt st.slots 2
        wss := ⟨st.heap.requests, st.wss.cells ++ List.replicate st.wss.cells.length none⟩
        heap := st.heap.grant.free st.wss.addr } := by
  obtain ⟨rest, hcells⟩ := h.cells
  have hmul := (slotBytes_double (Nat.zero_lt_of_lt h.room) hn).1
  rw [← h.slots] at hmul
  constructor
  · exact h.cnt
  · rw [hmul, List.length_append, List.length_replicate, Nat.two_mul]
  · have hlt : ((2 * st.wss.cells.length : ℕ) : ℤ) < 2 ^ 31 := by omega
    rw [← hmul] at hlt
    exact hlt
  · rw [List.length_append]
    exact Nat.lt_add_right _ h.room
  · refine ⟨rest ++ List.replicate st.wss.cells.length none, ?_⟩
    rw [← List.append_assoc, ← hcells]
  · exact h.holds
  · exact (h.owns.grant.perm (List.Perm.swap _ _ _)).free

/-- Making room for one more token succeeds, or everything is freed. -/
theorem Storing.growSlots_cases (h : Storing h₀ toks texts st) (answers : ℕ → Alloc Byte) :
    (Granted answers st.heap.requests (growRequests st.slots st.cnt) ∧
      ∃ st', growSlots answers st = some (.ok st') ∧ Storing h₀ toks texts st' ∧
        toks.length + 1 < st'.wss.cells.length ∧ st'.slots = slotsAfter st.slots st.cnt ∧
        st'.heap.requests =
          st.heap.requests + (growRequests st.slots st.cnt).length) ∨
    (¬ Granted answers st.heap.requests (growRequests st.slots st.cnt) ∧
      ∃ heap, growSlots answers st = some (.error ⟨toks.length, heap⟩) ∧ Owns h₀ heap []) := by
  have hroom := h.room
  have hpos : 0 < st.wss.cells.length := Nat.zero_lt_of_lt hroom
  have hslots : 0 < st.slots := by
    rw [h.slots]
    exact Int.natCast_pos.2 hpos
  unfold growSlots growRequests slotsAfter
  rw [addInt_neg_one hslots h.range]
  by_cases hgrow : st.slots - 1 ≤ st.cnt
  · simp only [if_pos hgrow]
    by_cases hn : 2 * st.wss.cells.length < 2 ^ 31
    · have hrealloc := reallocSlots_double hpos hn answers st.heap
      have hfits : slotBytes (mulInt st.slots 2) ≤ ptrdiffMax := by
        rw [h.slots, (slotBytes_double hpos hn).2, ptrdiffMax_eq]
        omega
      rw [← h.slots] at hrealloc
      cases hanswer : answers st.heap.requests with
      | none =>
          simp only [hrealloc, hanswer, Option.isSome_none, Bool.false_eq_true, if_false]
          exact Or.inr ⟨not_granted_of_none hanswer, h.giveUp h.owns.refuse _⟩
      | some junk =>
          simp only [hrealloc, hanswer, Option.isSome_some, if_true]
          have hgranted : (answers st.heap.requests).isSome = true := by
            rw [hanswer]
            rfl
          refine Or.inl ⟨⟨⟨hfits, hgranted⟩, trivial⟩, _, rfl, h.double hn, ?_, rfl, rfl⟩
          rw [List.length_append, List.length_replicate]
          omega
    · -- The double number of slots is no `int`.
      have hrange := h.range
      have hbig : ptrdiffMax < slotBytes (mulInt st.slots 2) :=
        ptrdiffMax_lt_slotBytes hrange (by rw [h.slots]; omega)
      have hzero : slotBytes (mulInt st.slots 2) ≠ 0 := by omega
      right
      refine ⟨fun hgranted => absurd hgranted.1.1 (Nat.not_le.2 hbig), ?_⟩
      simp only [reallocSlots, if_neg hzero, if_pos hbig]
      exact h.giveUp h.owns.refuse _
  · simp only [if_neg hgrow]
    rw [h.slots, h.cnt] at hgrow
    exact Or.inl ⟨trivial, st, rfl, h, by omega, rfl, rfl⟩

/-! ### Storing a token -/

theorem wbaStrnew_cases (a : Alloc Byte) {n : ℕ} (hn : n + 1 < sizeMod) :
    ((n + 1 ≤ ptrdiffMax ∧ a.isSome = true) ∧
      ∃ ws, wbaStrnew true a n = some (some ws) ∧ Holds ws [] ∧ ws.cap = n) ∨
    (¬ (n + 1 ≤ ptrdiffMax ∧ a.isSome = true) ∧ wbaStrnew true a n = some none) := by
  obtain ⟨r, hr, hsome, hnew⟩ := holds_wbaStrnew true a hn
  have hgrants : r.isSome = true ↔ n + 1 ≤ ptrdiffMax ∧ a.isSome = true := by
    rw [hsome, Bool.true_and, Block.grants, Bool.and_eq_true, decide_eq_true_iff]
  cases r with
  | some ws => exact Or.inl ⟨hgrants.1 rfl, ws, hr, hnew ws rfl⟩
  | none => exact Or.inr ⟨fun hgranted => absurd (hgrants.2 hgranted) (by simp), hr⟩

/-- A new string with its two blocks, or none and the memory as it was. -/
theorem strnew_cases (answers : ℕ → Alloc Byte) {n : ℕ} (hn : n + 1 < sizeMod) {heap : Ledger}
    {live : List ℕ} (hown : Owns h₀ heap live) :
    (Granted answers heap.requests (pushRequests n) ∧
      ∃ t heap', strnew answers n heap = some (some t, heap') ∧ Holds t.ws [] ∧ t.ws.cap = n ∧
        heap'.requests = heap.requests + 2 ∧ Owns h₀ heap' (t.blocks ++ live)) ∨
    (¬ Granted answers heap.requests (pushRequests n) ∧
      ∃ heap', strnew answers n heap = some (none, heap') ∧ Owns h₀ heap' live) := by
  have hptr : 24 ≤ ptrdiffMax := by decide
  unfold strnew
  cases hanswer : answers heap.requests with
  | none =>
      exact Or.inr ⟨not_granted_of_none hanswer, _, rfl, hown.refuse⟩
  | some junk =>
      have hfirst : (answers heap.requests).isSome = true := by
        rw [hanswer]
        rfl
      rcases wbaStrnew_cases (answers heap.grant.requests) hn with
        ⟨hgranted, ws, hws, hholds, hcap⟩ | ⟨hrefused, hws⟩
      · left
        refine ⟨⟨⟨hptr, hfirst⟩, hgranted, trivial⟩, ⟨heap.requests, heap.grant.requests, ws⟩,
          heap.grant.grant, ?_, hholds, hcap, rfl, hown.grant.grant⟩
        simp only [hws, Option.bind_eq_bind, Option.bind_some]
        rfl
      · right
        refine ⟨fun hgranted => hrefused hgranted.2.1, _, ?_, hown.grant.refuse.free⟩
        simp only [hws, Option.bind_eq_bind, Option.bind_some]
        rfl

/-- Copying into a string that has the capacity for the source. -/
theorem Holds.wbaStrncpy_of_cap {ws : WbaStr} {bytes mem : List Byte} {n : ℕ} (h : Holds ws bytes)
    (hpos : 0 < n) (hn : n ≤ mem.length) (hcap : n ≤ ws.cap) (a : Alloc Byte) :
    ∃ ws', WbaStr.wbaStrncpy a ws (some mem) n = some (true, ws') ∧ Holds ws' (mem.take n) := by
  have hlen : (mem.take n).length = n := by
    rw [List.length_take]
    exact Nat.min_eq_left hn
  have hreserve : WbaStr.wbaStrReserve a ws n = some (true, ws) := if_pos hcap
  obtain ⟨ws₁, ws₂, hfirst, hsecond, hres⟩ := h.replace (hlen.symm ▸ hcap)
  rw [hlen] at hsecond
  refine ⟨ws₂, ?_, hres⟩
  simp only [WbaStr.wbaStrncpy, if_neg (Nat.ne_of_gt hpos), hreserve, Option.bind_eq_bind,
    Option.bind_some, hfirst, hsecond]
  rfl

theorem addInt_one {n : ℕ} (hn : n + 1 < 2 ^ 31) : addInt n 1 = ((n + 1 : ℕ) : ℤ) := by
  rw [addInt, Int.bmod]
  split_ifs <;> omega

/-- A string is written to the first free slot. -/
theorem Storing.push (h : Storing h₀ toks texts st) {t : Token} {text : List Byte} {heap : Ledger}
    (hroom : toks.length + 1 < st.wss.cells.length) (htext : Holds t.ws text)
    (hown : Owns h₀ heap (t.blocks ++ st.wss.addr :: toks.flatMap Token.blocks)) :
    ∃ cells, st.wss.cells.write toks.length [some t] = some cells ∧
      Storing h₀ (toks ++ [t]) (texts ++ [text])
        { st with wss := { st.wss with cells }, cnt := addInt st.cnt 1, heap } := by
  obtain ⟨rest, hcells⟩ := h.cells
  have hrest : 2 ≤ rest.length := by
    rw [hcells, List.length_append, List.length_map] at hroom
    omega
  have hwrite : Block.write (toks.map some ++ rest) (toks.map some).length [some t] =
      some (toks.map some ++ [some t] ++ rest.drop 1) :=
    Block.write_of_le (Nat.le_of_succ_le hrest)
  rw [List.length_map, ← hcells] at hwrite
  have hsize : (toks.map some ++ [some t] ++ rest.drop 1).length = st.wss.cells.length := by
    rw [hcells]
    simp only [List.length_append, List.length_map, List.length_drop, List.length_singleton]
    omega
  refine ⟨toks.map some ++ [some t] ++ rest.drop 1, hwrite, ?_⟩
  constructor
  · have hrange := h.range
    rw [h.slots] at hrange
    have hnext : addInt st.cnt 1 = ((toks.length + 1 : ℕ) : ℤ) := by
      rw [h.cnt]
      exact addInt_one (by omega)
    rw [List.length_append, List.length_singleton, ← hnext]
  · exact h.slots.trans (congrArg _ hsize.symm)
  · exact h.range
  · rw [hsize, List.length_append]
    exact hroom
  · exact ⟨rest.drop 1, by rw [List.map_append, List.map_singleton]⟩
  · exact List.rel_append h.holds (.cons htext .nil)
  · refine hown.perm ?_
    rw [List.flatMap_append, List.flatMap_singleton]
    exact List.perm_middle.trans (List.perm_append_comm.cons _)

/-- With a free slot in front of the last one, the token is stored or everything is freed. -/
theorem Storing.pushToken_cases (h : Storing h₀ toks texts st) {x : ℕ × ℕ} (hx : x.1 < x.2)
    (hle : x.2 ≤ str.length) (hn : x.2 - x.1 + 1 < sizeMod)
    (hroom : toks.length + 1 < st.wss.cells.length) (answers : ℕ → Alloc Byte) :
    (Granted answers st.heap.requests (pushRequests (x.2 - x.1)) ∧
      ∃ t st', pushToken answers str x.1 x.2 st = some (.ok st') ∧
        Storing h₀ (toks ++ [t]) (texts ++ [slice str x]) st' ∧ st'.slots = st.slots ∧
        st'.heap.requests = st.heap.requests + 2) ∨
    (¬ Granted answers st.heap.requests (pushRequests (x.2 - x.1)) ∧
      ∃ heap, pushToken answers str x.1 x.2 st = some (.error ⟨toks.length, heap⟩) ∧
        Owns h₀ heap []) := by
  unfold pushToken
  rcases strnew_cases answers hn h.owns with
    ⟨hgranted, t, heap, hnew, hholds, hcap, hreq, hown⟩ | ⟨hrefused, heap, hnew, hown⟩
  · left
    have hlen : x.2 - x.1 ≤ (str.drop x.1).length := by
      rw [List.length_drop]
      omega
    obtain ⟨ws, hcopy, htext⟩ := hholds.wbaStrncpy_of_cap (Nat.sub_pos_of_lt hx) hlen
      (Nat.le_of_eq hcap.symm) (answers heap.requests)
    obtain ⟨cells, hwrite, hstored⟩ := h.push (t := { t with ws }) hroom htext hown
    refine ⟨hgranted, { t with ws }, _, ?_, hstored, rfl, hreq⟩
    simp only [hnew, hcopy, h.cnt, Int.toNat_natCast, hwrite, Option.bind_eq_bind,
      Option.bind_some]
    rfl
  · right
    obtain ⟨heap', hup, hfreed⟩ := h.giveUp hown st.slots
    refine ⟨hrefused, heap', ?_, hfreed⟩
    simp only [hnew, Option.bind_eq_bind, Option.bind_some]
    exact hup

/-- A token is stored if all requests made for it are granted, otherwise everything is freed. -/
theorem Storing.storeToken_cases (h : Storing h₀ toks texts st) {x : ℕ × ℕ} (hx : x.1 < x.2)
    (hle : x.2 ≤ str.length) (hn : x.2 - x.1 + 1 < sizeMod) (answers : ℕ → Alloc Byte) :
    (Granted answers st.heap.requests
        (growRequests st.slots st.cnt ++ pushRequests (x.2 - x.1)) ∧
      ∃ t st', storeToken answers str x.1 x.2 st = some (.ok st') ∧
        Storing h₀ (toks ++ [t]) (texts ++ [slice str x]) st' ∧
        st'.slots = slotsAfter st.slots st.cnt ∧
        st'.heap.requests = st.heap.requests +
          (growRequests st.slots st.cnt ++ pushRequests (x.2 - x.1)).length) ∨
    (¬ Granted answers st.heap.requests
        (growRequests st.slots st.cnt ++ pushRequests (x.2 - x.1)) ∧
      ∃ heap, storeToken answers str x.1 x.2 st = some (.error ⟨toks.length, heap⟩) ∧
        Owns h₀ heap []) := by
  unfold storeToken
  rw [granted_append]
  rcases h.growSlots_cases answers with
    ⟨hgrown, st₁, hgrow, h₁, hroom, hslots, hreq⟩ | ⟨hrefused, heap, hgrow, hfreed⟩
  · simp only [hgrow, Option.bind_eq_bind, Option.bind_some]
    rw [← hreq]
    rcases h₁.pushToken_cases hx hle hn hroom answers with
      ⟨hpushed, t, st₂, hpush, h₂, hslots', hreq'⟩ | ⟨hrefused, heap, hpush, hfreed⟩
    · refine Or.inl ⟨⟨hgrown, hpushed⟩, t, st₂, hpush, h₂, hslots'.trans hslots, ?_⟩
      rw [hreq', hreq, List.length_append, ← Nat.add_assoc]
      rfl
    · exact Or.inr ⟨fun hgranted => hrefused hgranted.2, heap, hpush, hfreed⟩
  · refine Or.inr ⟨fun hgranted => hrefused hgranted.1, heap, ?_, hfreed⟩
    simp only [hgrow, Option.bind_eq_bind, Option.bind_some]
    rfl

/-- All tokens are stored if all requests are granted. Otherwise everything is freed, and `*cnt` is
as before only if the first of the tokens fails. -/
theorem Storing.storeSpans_cases {xs : List (ℕ × ℕ)} (h : Storing h₀ toks texts st)
    (hxs : ∀ x ∈ xs, x.1 < x.2 ∧ x.2 ≤ str.length ∧ x.2 - x.1 + 1 < sizeMod)
    (answers : ℕ → Alloc Byte) :
    (Granted answers st.heap.requests (spanRequests st.slots st.cnt xs) ∧
      ∃ toks' st', storeSpans answers str xs st = some (.ok st') ∧
        Storing h₀ toks' (texts ++ xs.map (slice str)) st') ∨
    (¬ Granted answers st.heap.requests (spanRequests st.slots st.cnt xs) ∧
      ∃ r, storeSpans answers str xs st = some (.error r) ∧ Owns h₀ r.heap [] ∧
        (toks.length : ℤ) ≤ r.cnt ∧
        (r.cnt = toks.length ↔
          ¬ Granted answers st.heap.requests (spanRequests st.slots st.cnt (xs.take 1)))) := by
  induction xs generalizing toks texts st with
  | nil =>
      refine Or.inl ⟨trivial, toks, st, rfl, ?_⟩
      rw [List.map_nil, List.append_nil]
      exact h
  | cons x xs ih =>
      obtain ⟨hx, hle, hn⟩ := hxs x List.mem_cons_self
      simp only [storeSpans, spanRequests, List.take_succ_cons, List.take_zero, List.append_nil]
      rw [granted_append]
      rcases h.storeToken_cases hx hle hn answers with
        ⟨hgranted, t, st₁, hstore, h₁, hslots, hreq⟩ | ⟨hrefused, heap, hstore, hfreed⟩
      · have hcnt : st₁.cnt = st.cnt + 1 := by
          rw [h₁.cnt, h.cnt, List.length_append, List.length_singleton, Int.natCast_add]
          rfl
        have hnext := ih h₁ fun y hy => hxs y (List.mem_cons_of_mem x hy)
        rw [hslots, hcnt, hreq] at hnext
        simp only [hstore, Option.bind_eq_bind, Option.bind_some]
        rcases hnext with ⟨hrest, toks', st', hrun, h'⟩ | ⟨hrefused, r, hrun, hfreed, hmore, -⟩
        · refine Or.inl ⟨⟨hgranted, hrest⟩, toks', st', hrun, ?_⟩
          rw [List.map_cons, ← List.singleton_append, ← List.append_assoc]
          exact h'
        · rw [List.length_append, List.length_singleton] at hmore
          refine Or.inr ⟨fun hall => hrefused hall.2, r, hrun, hfreed, by omega, ?_⟩
          exact iff_of_false (by omega) (not_not_intro hgranted)
      · refine Or.inr ⟨fun hall => hrefused hall.1, ⟨toks.length, heap⟩, ?_, hfreed, Int.le_refl _,
          iff_of_true rfl hrefused⟩
        simp only [hstore, Option.bind_eq_bind, Option.bind_some]
        rfl

/-! ### The whole call -/

/-- The texts of the tokens of a string. -/
def tokens (str sep : List Byte) : List (List Byte) :=
  (spans (inToken sep) str).map (slice str)

/-- The array holds the given texts, `*cnt` is their number, and the array and the tokens are what
the call has allocated and not freed. -/
def FullList (h : Ledger) (texts : List (List Byte)) (r : TokenResult) (wss : Slots) : Prop :=
  r.cnt = some (texts.length : ℤ) ∧
    ∃ toks rest, wss.cells = toks.map some ++ rest ∧
      List.Forall₂ (fun t text => Holds t.ws text) toks texts ∧
      Owns h r.heap (wss.addr :: toks.flatMap Token.blocks)

theorem slotBytes_five : slotBytes 5 = 40 := by decide

theorem storing_start (h : Ledger) :
    Storing h [] [] ⟨5, ⟨h.requests, List.replicate (slotBytes 5 / 8) none⟩, 0, h.grant⟩ := by
  rw [slotBytes_five]
  have hrange : (5 : ℤ) < 2 ^ 31 := by decide
  have hroom : 0 < (List.replicate 5 (none : Option Token)).length := by decide
  exact ⟨rfl, rfl, hrange, hroom, ⟨List.replicate 5 none, rfl⟩, .nil, (Owns.refl h).grant⟩

/-- The requests for the array and the first token. -/
theorem take_requests (str sep : List Byte) :
    (requests str sep).take 3 =
      slotBytes 5 :: spanRequests 5 0 ((spans (inToken sep) str).take 1) := by
  rw [requests]
  cases spans (inToken sep) str with
  | nil => rfl
  | cons x xs => rfl

theorem spans_bounds {x : ℕ × ℕ} (hx : x ∈ spans (inToken sep) str) :
    x.1 < x.2 ∧ x.2 ≤ str.length := by
  have hrun := (mem_spans_iff (inToken sep) str x.1 x.2).1 hx
  exact ⟨hrun.lt, hrun.le⟩

/-- The full list is returned if all requests are granted. Otherwise everything is freed, and
`*cnt` is zero only if the array or the first token fails. -/
theorem wbaStrntok_cases (answers : ℕ → Alloc Byte) (hsep : sep ≠ [])
    (hfit : ∀ x ∈ spans (inToken sep) str, x.2 - x.1 + 1 < sizeMod) (c : ℤ) (h : Ledger) :
    (Granted answers h.requests (requests str sep) ∧
      ∃ r wss, wbaStrntok answers (some str) (some sep) (some c) h = some r ∧
        r.wss = some wss ∧ FullList h (tokens str sep) r wss) ∨
    (¬ Granted answers h.requests (requests str sep) ∧
      ∃ r n, wbaStrntok answers (some str) (some sep) (some c) h = some r ∧ r.wss = none ∧
        r.cnt = some n ∧ Owns h r.heap [] ∧
        (n = 0 ↔ ¬ Granted answers h.requests ((requests str sep).take 3))) := by
  have hptr : slotBytes 5 ≤ ptrdiffMax := by decide
  have hne : sep.isEmpty = false := List.isEmpty_eq_false_iff.2 hsep
  rw [take_requests]
  simp only [wbaStrntok, hne, Bool.false_eq_true, if_false, mallocSlots,
    if_neg (Nat.not_lt.2 hptr), requests, Granted]
  cases hanswer : answers h.requests with
  | none =>
      have hrefused : ¬ (none : Alloc Byte).isSome = true := Bool.false_ne_true
      refine Or.inr ⟨fun hall => hrefused hall.1.2, _, 0, rfl, rfl, rfl, (Owns.refl h).refuse, ?_⟩
      exact iff_of_true rfl fun hall => hrefused hall.1.2
  | some junk =>
      have hfirst : slotBytes 5 ≤ ptrdiffMax ∧ (some junk : Alloc Byte).isSome = true :=
        ⟨hptr, rfl⟩
      have hscan : ∀ st, tokLoop answers str sep str 0 none none st =
          storeSpans answers str (spans (inToken sep) str) st :=
        fun st => tokLoop_eq List.drop_zero (fun _ => rfl) st
      rcases (storing_start h).storeSpans_cases
          (fun x hx => ⟨(spans_bounds hx).1, (spans_bounds hx).2, hfit x hx⟩) answers with
        ⟨hgranted, toks, st, hrun, hst⟩ | ⟨hrefused, r, hrun, hfreed, -, hzero⟩
      · obtain ⟨rest, hcells⟩ := hst.cells
        have hcnt : st.cnt = ((tokens str sep).length : ℤ) := by
          rw [hst.cnt, hst.holds.length_eq]
          rfl
        refine Or.inl ⟨⟨hfirst, hgranted⟩, ⟨some st.wss, some st.cnt, st.heap⟩, st.wss, ?_, rfl,
          congrArg some hcnt, toks, rest, hcells, hst.holds, hst.owns⟩
        simp only [hscan, hrun, Option.bind_eq_bind, Option.bind_some]
        rfl
      · refine Or.inr ⟨fun hall => hrefused hall.2, ⟨none, some r.cnt, r.heap⟩, r.cnt, ?_, rfl, rfl,
          hfreed, ?_⟩
        · simp only [hscan, hrun, Option.bind_eq_bind, Option.bind_some]
          rfl
        · exact hzero.trans (not_congr (and_iff_right hfirst).symm)

/-! ### Enough memory -/

theorem granted_of_le (hanswers : ∀ i, (answers i).isSome = true) {sizes : List ℕ}
    (hsizes : ∀ size ∈ sizes, size ≤ ptrdiffMax) (n : ℕ) : Granted answers n sizes := by
  induction sizes generalizing n with
  | nil => trivial
  | cons size sizes ih =>
      obtain ⟨hsize, hrest⟩ := List.forall_mem_cons.1 hsizes
      exact ⟨⟨hsize, hanswers n⟩, ih hrest (n + 1)⟩

/-- As long as the array grows for fewer than `2 ^ 30` tokens, its size is no overflow. -/
theorem growRequests_le {slots cnt : ℤ} (hpos : 0 < slots) (hlt : slots < 2 ^ 31)
    (hcnt : cnt + 1 < 2 ^ 30) :
    (∀ size ∈ growRequests slots cnt, size ≤ ptrdiffMax) ∧ 0 < slotsAfter slots cnt ∧
      slotsAfter slots cnt < 2 ^ 31 := by
  rw [growRequests, slotsAfter, addInt_neg_one hpos hlt]
  split_ifs with hgrow
  · obtain ⟨n, rfl⟩ := Int.eq_ofNat_of_zero_le (Int.le_of_lt hpos)
    have hsmall : 2 * n < 2 ^ 31 := by omega
    obtain ⟨hmul, hbytes⟩ := slotBytes_double (Int.natCast_pos.1 hpos) hsmall
    rw [hbytes, hmul]
    refine ⟨fun size hsize => ?_, by omega, by omega⟩
    rw [List.mem_singleton.1 hsize, ptrdiffMax_eq]
    omega
  · exact ⟨fun size hsize => absurd hsize List.not_mem_nil, hpos, hlt⟩

theorem spanRequests_le {slots cnt : ℤ} {xs : List (ℕ × ℕ)} (hpos : 0 < slots)
    (hlt : slots < 2 ^ 31) (hcount : cnt + xs.length < 2 ^ 30)
    (hfit : ∀ x ∈ xs, x.2 - x.1 < ptrdiffMax) :
    ∀ size ∈ spanRequests slots cnt xs, size ≤ ptrdiffMax := by
  induction xs generalizing slots cnt with
  | nil => exact fun size hsize => absurd hsize List.not_mem_nil
  | cons x xs ih =>
      obtain ⟨hx, hrest⟩ := List.forall_mem_cons.1 hfit
      rw [List.length_cons] at hcount
      have hlast : cnt + 1 < 2 ^ 30 := by omega
      have hcount' : cnt + 1 + xs.length < 2 ^ 30 := by omega
      obtain ⟨hgrow, hpos', hlt'⟩ := growRequests_le hpos hlt hlast
      have htail := ih hpos' hlt' hcount' hrest
      have hptr : 24 ≤ ptrdiffMax := by decide
      intro size hsize
      rw [spanRequests, List.mem_append, List.mem_append] at hsize
      rcases hsize with (hsize | hsize) | hsize
      · exact hgrow size hsize
      · rw [pushRequests, List.mem_pair] at hsize
        omega
      · exact htail size hsize

/-- With memory for all of them and fewer than `2 ^ 30` of them, the tokens are the maximal runs of
bytes that are not in the separator, in order, as for `split`. -/
theorem wbaStrntok_exact (hanswers : ∀ i, (answers i).isSome = true) (hsep : sep ≠ [])
    (hcount : (spans (inToken sep) str).length < 2 ^ 30)
    (hfit : ∀ x ∈ spans (inToken sep) str, x.2 - x.1 < ptrdiffMax) (c : ℤ) (h : Ledger) :
    (∀ i j, (i, j) ∈ spans (inToken sep) str ↔ MaximalRun (inToken sep) str i j) ∧
      (spans (inToken sep) str).Pairwise (fun x y => x.2 < y.1) ∧
      (∃ r wss, wbaStrntok answers (some str) (some sep) (some c) h = some r ∧
        r.wss = some wss ∧ FullList h ((spans (inToken sep) str).map (slice str)) r wss) ∧
      (spans (inToken sep) str).map (slice str) = Pgr.split str sep true := by
  have hmod : ptrdiffMax < sizeMod := by decide
  have hgranted : Granted answers h.requests (requests str sep) := by
    refine granted_of_le hanswers (List.forall_mem_cons.2 ⟨by decide, ?_⟩) _
    exact spanRequests_le (by decide) (by decide) (by omega) hfit
  refine ⟨mem_spans_iff _ str, pairwise_spansFrom _ 0 none str, ?_, (Pgr.split_eq str sep).symm⟩
  rcases wbaStrntok_cases answers hsep (fun x hx => Nat.lt_of_le_of_lt (hfit x hx) hmod) c h with
    ⟨-, hres⟩ | ⟨hrefused, -⟩
  · exact hres
  · exact absurd hgranted hrefused

/-- The string `a,b` with the separator `,`. -/
theorem wbaStrntok_exact_pair :
    ∃ r wss, wbaStrntok (fun _ => some fun _ => 0) (some [97, 44, 98]) (some [44]) (some 7)
        ⟨0, [], []⟩ = some r ∧
      r.wss = some wss ∧ FullList ⟨0, [], []⟩ [[97], [98]] r wss :=
  (@wbaStrntok_exact (fun _ => some fun _ => 0) [97, 44, 98] [44] (fun _ => rfl) (by decide)
    (by decide) (by decide) 7 ⟨0, [], []⟩).2.2.1

/-! ### Failures -/

/-- If null is returned, `*cnt` is zero and everything that was allocated has been freed once;
otherwise the result is the full list. -/
def Tidy (h : Ledger) (texts : List (List Byte)) (call : Option TokenResult) : Prop :=
  ∃ r, call = some r ∧
    (r.wss = none → ∀ n, r.cnt = some n → n = 0 ∧ Owns h r.heap []) ∧
    (∀ wss, r.wss = some wss → FullList h texts r wss)

/-- With the memory for the array and the first token, there is memory for everything. -/
def Supplied (answers : ℕ → Alloc Byte) (h : Ledger) (str sep : Option (List Byte))
    (cnt : Option ℤ) : Prop :=
  ∀ s t, cnt.isSome = true → str = some s → sep = some t → t ≠ [] →
    Granted answers h.requests ((requests s t).take 3) →
      Granted answers h.requests (requests s t)

theorem tidy_of_null {h heap : Ledger} {cnt : Option ℤ} (hcnt : ∀ n, cnt = some n → n = 0)
    (hfreed : Owns h heap []) : Tidy h texts (some ⟨none, cnt, heap⟩) := by
  refine ⟨_, rfl, fun _ n hn => ⟨hcnt n hn, hfreed⟩, ?_⟩
  intro wss hwss
  cases hwss

/-- A call that is not refused at once. -/
theorem tidy_wbaStrntok_some (answers : ℕ → Alloc Byte) (hstr : str.length + 1 < sizeMod)
    (hsep : sep ≠ []) (c : ℤ) (h : Ledger) :
    Tidy h (tokens str sep) (wbaStrntok answers (some str) (some sep) (some c) h) ↔
      (Granted answers h.requests ((requests str sep).take 3) →
        Granted answers h.requests (requests str sep)) := by
  have hfit : ∀ x ∈ spans (inToken sep) str, x.2 - x.1 + 1 < sizeMod := by
    intro x hx
    have hle := (spans_bounds hx).2
    omega
  rcases wbaStrntok_cases answers hsep hfit c h with
    ⟨hgranted, r, wss, hcall, hwss, hfull⟩ | ⟨hrefused, r, n, hcall, hwss, hcnt, hfreed, hzero⟩
  · refine iff_of_true ⟨r, hcall, ?_, ?_⟩ fun _ => hgranted
    · intro hnull
      rw [hwss] at hnull
      cases hnull
    · intro wss' hwss'
      rw [hwss] at hwss'
      cases hwss'
      exact hfull
  · constructor
    · rintro ⟨r', hcall', hnull, -⟩ hfirst
      rw [hcall] at hcall'
      cases hcall'
      exact absurd hfirst (hzero.1 (hnull hwss n hcnt).1)
    · intro hsupplied
      refine ⟨r, hcall, ?_, ?_⟩
      · intro _ m hm
        rw [hcnt] at hm
        cases hm
        exact ⟨hzero.2 fun hfirst => hrefused (hsupplied hfirst), hfreed⟩
      · intro wss' hwss'
        rw [hwss] at hwss'
        cases hwss'

theorem tidy_wbaStrntok_iff (answers : ℕ → Alloc Byte) {str sep : Option (List Byte)}
    (hstr : ∀ s, str = some s → s.length + 1 < sizeMod) (cnt : Option ℤ) (h : Ledger) :
    Tidy h (tokens (str.getD []) (sep.getD [])) (wbaStrntok answers str sep cnt h) ↔
      Supplied answers h str sep cnt := by
  cases cnt with
  | none =>
      refine iff_of_true (tidy_of_null (by simp) (Owns.refl h)) ?_
      intro s t hcnt
      cases hcnt
  | some c =>
      cases str with
      | none =>
          refine iff_of_true (tidy_of_null (by simp) (Owns.refl h)) ?_
          intro s t _ hs
          cases hs
      | some s =>
          cases sep with
          | none =>
              refine iff_of_true (tidy_of_null (by simp) (Owns.refl h)) ?_
              intro s t _ _ ht
              cases ht
          | some t =>
              by_cases hsep : t = []
              · subst hsep
                refine iff_of_true (tidy_of_null (by simp) (Owns.refl h)) ?_
                intro s t _ _ ht hne
                cases ht
                exact absurd rfl hne
              · rw [Option.getD_some, Option.getD_some,
                  tidy_wbaStrntok_some answers (hstr s rfl) hsep]
                constructor
                · intro hsupplied s' t' _ hs ht _
                  cases hs
                  cases ht
                  exact hsupplied
                · intro hsupplied
                  exact hsupplied s t rfl rfl rfl hsep

/-- The bytes in front of the first null byte. -/
def cString (mem : List Byte) : List Byte := mem.takeWhile (· != 0)

theorem wbaStrtok_eq (answers : ℕ → Alloc Byte) (str sep : Option (List Byte)) (cnt : Option ℤ)
    (h : Ledger) :
    wbaStrtok answers str sep cnt h =
      wbaStrntok answers (str.map cString) (sep.map cString) cnt h := by
  cases cnt with
  | none => rfl
  | some c =>
      cases str with
      | none => rfl
      | some s =>
          cases sep with
          | none => rfl
          | some t => rfl

/-- A failure of either tokeniser is tidy exactly if it happens at the array or at the first
token. -/
theorem tidy_iff_supplied (answers : ℕ → Alloc Byte) (str sep : Option (List Byte))
    (hstr : ∀ s, str = some s → s.length + 1 < sizeMod) (cnt : Option ℤ) (h : Ledger) :
    (Tidy h (tokens (str.getD []) (sep.getD [])) (wbaStrntok answers str sep cnt h) ↔
      Supplied answers h str sep cnt) ∧
    (Tidy h (tokens ((str.map cString).getD []) ((sep.map cString).getD []))
        (wbaStrtok answers str sep cnt h) ↔
      Supplied answers h (str.map cString) (sep.map cString) cnt) := by
  refine ⟨tidy_wbaStrntok_iff answers hstr cnt h, ?_⟩
  rw [wbaStrtok_eq]
  refine tidy_wbaStrntok_iff answers ?_ cnt h
  intro s hs
  obtain ⟨mem, hmem, rfl⟩ := Option.map_eq_some_iff.1 hs
  have hle : (cString mem).length ≤ mem.length := strlen_le mem
  have hlt := hstr mem hmem
  omega

/-- The string `a,b` with the separator `,`, with memory for everything and with none at all. -/
theorem tidy_pair :
    Tidy ⟨0, [], []⟩ [[97], [98]]
        (wbaStrntok (fun _ => some fun _ => 0) (some [97, 44, 98]) (some [44]) (some 7)
          ⟨0, [], []⟩) ∧
      Tidy ⟨0, [], []⟩ [[97], [98]]
        (wbaStrtok (fun _ => none) (some [97, 44, 98, 0]) (some [44, 0]) (some 7)
          ⟨0, [], []⟩) := by
  constructor
  · refine (tidy_iff_supplied _ (some [97, 44, 98]) (some [44]) ?_ (some 7) ⟨0, [], []⟩).1.2 ?_
    · intro s hs
      cases hs
      decide
    · intro s t _ hs ht _ _
      cases hs
      cases ht
      exact granted_of_le (fun _ => rfl) (by decide) _
  · refine (tidy_iff_supplied _ (some [97, 44, 98, 0]) (some [44, 0]) ?_ (some 7)
      ⟨0, [], []⟩).2.2 ?_
    · intro s hs
      cases hs
      decide
    · intro s t _ hs ht _ hfirst
      cases hs
      cases ht
      exact absurd hfirst.1.2 (by decide)

/-- No memory for the second token: null is returned, and `*cnt` is one. -/
theorem not_tidy_second_token :
    ¬ Tidy ⟨0, [], []⟩ (tokens [97, 44, 98] [44])
      (wbaStrntok (fun i => if i < 3 then some fun _ => 0 else none) (some [97, 44, 98])
        (some [44]) (some 7) ⟨0, [], []⟩) := by
  have hcall : wbaStrntok (fun i => if i < 3 then some fun _ => 0 else none) (some [97, 44, 98])
      (some [44]) (some 7) ⟨0, [], []⟩ = some ⟨none, some 1, ⟨4, [0, 1, 2], [2, 1, 0]⟩⟩ := rfl
  rintro ⟨r, hr, hnull, -⟩
  rw [hcall] at hr
  cases hr
  exact absurd (hnull rfl 1 rfl).1 (by decide)

end WbaStr

end Miscellany
