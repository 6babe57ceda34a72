import Miscellany.Library.Ledger
import Miscellany.Library.Runs
import Miscellany.Str.Basic

/-!
# Tokens of a string

The functions `wba_strfree_tokens`, `wba_strntok` and `wba_strtok`. The requests to the allocator
are numbered, `answers` gives the answer to each of them, and a ledger keeps the blocks that are
allocated and freed. A slot that has not been written is `none`; reading it, or a slot outside the
array, is a fault, for which a function has the result `none`. A source is the list of its bytes,
and `none` is a null pointer.

A token is stored when the pass over the string finds its end (`tokLoop`). This is the pass that
finds the maximal runs (`tokLoop_eq`), so the string is tokenised by storing the spans of its runs
one after the other.
-/

namespace Miscellany

namespace WbaStr

/-- A string in memory, with the blocks of its structure and of its bytes. -/
structure Token where
  addr : ℕ
  bufAddr : ℕ
  ws : WbaStr

/-- An array of pointers to strings. -/
structure Slots where
  addr : ℕ
  cells : Block (Option Token)

/-- The product of two values of the type `int`. -/
def mulInt (i j : ℤ) : ℤ := Int.bmod (i * j) (2 ^ 32)

/-! ### Memory -/

/-- `wba_strnew`; the structure of 24 bytes is requested before the block. -/
def strnew (answers : ℕ → Alloc Byte) (cap : ℕ) (h : Ledger) : Option (Option Token × Ledger) :=
  match answers h.requests with
  | none => some (none, h.refuse)
  | some _ => do
      match ← wbaStrnew true (answers h.grant.requests) cap with
      | none => pure (none, h.grant.refuse.free h.requests)
      | some ws => pure (some ⟨h.requests, h.grant.requests, ws⟩, h.grant.grant)

def wbaStrfree (t : Token) (h : Ledger) : Ledger := (h.free t.bufAddr).free t.addr

/-- The number of bytes of an array of slots. -/
def slotBytes (slots : ℤ) : ℕ := 8 * sizeOfInt slots % sizeMod

/-- `malloc` of an array. -/
def mallocSlots (answers : ℕ → Alloc Byte) (slots : ℤ) (h : Ledger) : Option Slots × Ledger :=
  if ptrdiffMax < slotBytes slots then (none, h.refuse)
  else
    match answers h.requests with
    | none => (none, h.refuse)
    | some _ => (some ⟨h.requests, List.replicate (slotBytes slots / 8) none⟩, h.grant)

/-- `realloc` of an array, which frees the old one when it returns the new one or has no bytes. -/
def reallocSlots (answers : ℕ → Alloc Byte) (wss : Slots) (slots : ℤ) (h : Ledger) :
    Option Slots × Ledger :=
  if slotBytes slots = 0 then (none, h.refuse.free wss.addr)
  else if ptrdiffMax < slotBytes slots then (none, h.refuse)
  else
    match answers h.requests with
    | none => (none, h.refuse)
    | some _ =>
        let n := slotBytes slots / 8
        (some ⟨h.requests, wss.cells.take n ++ List.replicate (n - wss.cells.length) none⟩,
          h.grant.free wss.addr)

/-- Freeing the token in a slot. -/
def freeSlot (wss : Slots) (h : Ledger) (i : ℕ) : Option Ledger := do
  let cell ← wss.cells[i]?
  let t ← cell
  pure (wbaStrfree t h)

def wbaStrfreeTokens (wss : Option Slots) (cnt : ℤ) (h : Ledger) : Option Ledger :=
  match wss with
  | none => some h
  | some wss => do
      let h ← (List.range cnt.toNat).foldlM (freeSlot wss) h
      pure (h.free wss.addr)

/-! ### Storing a token -/

/-- The variables of `wba_strntok` that are about the tokens stored. -/
structure TokenStore where
  slots : ℤ
  wss : Slots
  cnt : ℤ
  heap : Ledger

/-- What is left when null is returned: the value of `*cnt` and the memory. -/
structure NullReturn where
  cnt : ℤ
  heap : Ledger

/-- Freeing the tokens and returning null. -/
def giveUp (st : TokenStore) (heap : Ledger) : Option (Except NullReturn TokenStore) := do
  let heap ← wbaStrfreeTokens (some st.wss) st.cnt heap
  pure (.error ⟨st.cnt, heap⟩)

/-- Making room for one more token. -/
def growSlots (answers : ℕ → Alloc Byte) (st : TokenStore) :
    Option (Except NullReturn TokenStore) :=
  if addInt st.slots (-1) ≤ st.cnt then
    let slots := mulInt st.slots 2
    match reallocSlots answers st.wss slots st.heap with
    | (none, heap) => giveUp { st with slots } heap
    | (some wss, heap) => some (.ok { st with slots, wss, heap })
  else some (.ok st)

/-- Storing a copy of the given bytes. The copy needs no memory, because the new string has the
capacity for it. -/
def pushToken (answers : ℕ → Alloc Byte) (str : List Byte) (start stop : ℕ) (st : TokenStore) :
    Option (Except NullReturn TokenStore) := do
  match ← strnew answers (stop - start) st.heap with
  | (none, heap) => giveUp st heap
  | (some t, heap) =>
      let r ← wbaStrncpy (answers heap.requests) t.ws (some (str.drop start)) (stop - start)
      let cells ← st.wss.cells.write st.cnt.toNat [some { t with ws := r.2 }]
      pure (.ok
        { st with wss := { st.wss with cells }, cnt := addInt st.cnt 1, heap := heap })

def storeToken (answers : ℕ → Alloc Byte) (str : List Byte) (start stop : ℕ) (st : TokenStore) :
    Option (Except NullReturn TokenStore) := do
  match ← growSlots answers st with
  | .error r => pure (.error r)
  | .ok st => pushToken answers str start stop st

/-! ### The pass over the string -/

/-- The loop of `wba_strntok`, from the position `m` on, with `start` and `end`. -/
def tokLoop (answers : ℕ → Alloc Byte) (str sep : List Byte) :
    List Byte → ℕ → Option ℕ → Option ℕ → TokenStore → Option (Except NullReturn TokenStore)
  | [], _, _, _, st => some (.ok st)
  | c :: rest, m, start, stop, st =>
      let hit := sep.contains c
      let start := if hit then start else some (start.getD m)
      let stop := if hit && start.isSome then some m else stop
      let stop := if start.isSome && stop.isNone && m == str.length - 1 then some (m + 1) else stop
      match start, stop with
      | some i, some j => do
          match ← storeToken answers str i j st with
          | .error r => pure (.error r)
          | .ok st => tokLoop answers str sep rest (m + 1) none none st
      | start, stop => tokLoop answers str sep rest (m + 1) start stop st

/-- What a tokeniser returns, with the value of `*cnt` unless `cnt` is null. -/
structure TokenResult where
  wss : Option Slots
  cnt : Option ℤ
  heap : Ledger

def wbaStrntok (answers : ℕ → Alloc Byte) (str sep : Option (List Byte)) (cnt : Option ℤ)
    (h : Ledger) : Option TokenResult :=
  match cnt, str, sep with
  | none, _, _ => some ⟨none, none, h⟩
  | some _, some str, some sep =>
      if sep.isEmpty then some ⟨none, some 0, h⟩
      else
        match mallocSlots answers 5 h with
        | (none, heap) => some ⟨none, some 0, heap⟩
        | (some wss, heap) => do
            match ← tokLoop answers str sep str 0 none none ⟨5, wss, 0, heap⟩ with
            | .error r => pure ⟨none, some r.cnt, r.heap⟩
            | .ok st => pure ⟨some st.wss, some st.cnt, st.heap⟩
  | some _, _, _ => some ⟨none, some 0, h⟩

/-- `wba_strtok`, of the strings that start the given memory. -/
def wbaStrtok (answers : ℕ → Alloc Byte) (str sep : Option (List Byte)) (cnt : Option ℤ)
    (h : Ledger) : Option TokenResult :=
  match cnt, str, sep with
  | none, _, _ => some ⟨none, none, h⟩
  | some _, some str, some sep =>
      wbaStrntok answers (some (str.takeWhile (· != 0))) (some (sep.takeWhile (· != 0)))
        (some 0) h
  | some _, _, _ => some ⟨none, some 0, h⟩

/-! ### The runs that are stored -/

/-- The bytes that belong to tokens. -/
def inToken (sep : List Byte) (c : Byte) : Bool := !sep.contains c

/-- Storing the bytes of the given ranges. -/
def storeSpans (answers : ℕ → Alloc Byte) (str : List Byte) :
    List (ℕ × ℕ) → TokenStore → Option (Except NullReturn TokenStore)
  | [], st => some (.ok st)
  | x :: xs, st => do
      match ← storeToken answers str x.1 x.2 st with
      | .error r => pure (.error r)
      | .ok st => storeSpans answers str xs st

/-- The loop stores the maximal runs. A run that reaches the end of the string is stored with its
last byte, so that none is open behind it. -/
theorem tokLoop_eq {answers : ℕ → Alloc Byte} {str sep l : List Byte} {m : ℕ} {start : Option ℕ}
    (hl : str.drop m = l) (hend : l = [] → start = none) (st : TokenStore) :
    tokLoop answers str sep l m start none st =
      storeSpans answers str (spansFrom (inToken sep) m start l) st := by
  induction l generalizing m start st with
  | nil =>
      rw [hend rfl]
      rfl
  | cons c l ih =>
      obtain ⟨-, hrest, hsize⟩ := of_drop_eq_cons hl
      have hnext : ∀ st, tokLoop answers str sep l (m + 1) none none st =
          storeSpans answers str (spansFrom (inToken sep) (m + 1) none l) st := fun st =>
        ih hrest (fun _ => rfl) st
      have hlen : l.length = str.length - (m + 1) := by rw [← hrest, List.length_drop]
      rw [tokLoop, spansFrom, inToken]
      cases hsep : sep.contains c with
      | true =>
          cases start with
          | none => exact hnext st
          | some i =>
              simp only [Bool.not_true, Bool.false_eq_true, if_false, if_true, Bool.and_self,
                Option.isSome_some, Option.isNone_some, Bool.and_false, Bool.false_and,
                Option.map_some, Option.toList_some, List.singleton_append, storeSpans, hnext]
      | false =>
          simp only [Bool.not_false, Bool.false_eq_true, if_false, if_true, Bool.false_and,
            Option.isSome_some, Option.isNone_none, Bool.and_self, Bool.true_and]
          by_cases hlast : m = str.length - 1
          · -- The last byte of the string ends the run.
            have hnil : l = [] := by
              rw [← List.length_eq_zero_iff]
              omega
            subst hnil
            rw [beq_iff_eq.2 hlast]
            simp only [if_true, spansFrom, storeSpans, tokLoop]
          · have hne : l ≠ [] := by
              intro hnil
              rw [hnil, List.length_nil] at hlen
              omega
            rw [beq_eq_false_iff_ne.2 hlast]
            exact ih hrest (fun hnil => absurd hnil hne) st

end WbaStr

end Miscellany
