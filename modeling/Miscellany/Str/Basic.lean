import Mathlib.Data.Int.Notation
import Miscellany.Library.Block

/-!
# Strings with a capacity

The functions of `wba_str.c` on one string, in the order of the source. A size is a
`size_t`, so sums and products are taken modulo `2 ^ 64`. A function that writes outside
the block of the string, or uses a block that has been freed, has no value (`none`);
otherwise it returns whether the C function returns the string or null, and the string.
Each call takes the answer of the allocator to the request that it may make. The pointer
`ws` is not null, and the sources are memory of the caller.
-/

namespace Miscellany

/-- A byte, of the type `s8`. -/
abbrev Byte := UInt8

/-- The structure `wba_str_t`; `buf` is the block that the pointer refers to, `none` when it has
been freed. -/
structure WbaStr where
  len : ℕ
  cap : ℕ
  buf : Option (Block Byte)
deriving DecidableEq

namespace WbaStr

def wbaStrMaxReserveSize : ℕ := 1024 * 1024

/-- The largest value of the type `s32`. -/
def intMax : ℕ := 2 ^ 31 - 1

/-- `strlen`, of the string that starts the given memory. -/
def strlen (mem : List Byte) : ℕ := (mem.takeWhile (· != 0)).length

/-- Writing to the block of the string. -/
def store (ws : WbaStr) (i : ℕ) (src : List Byte) : Option WbaStr := do
  let b ← ws.buf
  let b ← b.write i src
  pure { ws with buf := some b }

/-! ### Creating -/

/-- `wba_strnewlen`, given whether the `malloc` of the structure succeeds; `none` inside is null. -/
def wbaStrnewlen (malloc : Bool) (a : Alloc Byte) (init : Option (List Byte)) (initlen : ℕ) :
    Option (Option WbaStr) :=
  if !malloc then some none
  else
    match Block.malloc a ((initlen + 1) % sizeMod) with
    | none => some none
    | some b => do
        let ws : WbaStr := { len := initlen, cap := initlen, buf := some b }
        let ws ← match init with
          | none => ws.store 0 (List.replicate initlen 0)
          | some init => ws.store 0 (init.take initlen)
        let ws ← ws.store initlen [0]
        pure (some ws)

def wbaStrnew (malloc : Bool) (a : Alloc Byte) (cap : ℕ) : Option (Option WbaStr) :=
  if !malloc then some none
  else
    match Block.malloc a ((cap + 1) % sizeMod) with
    | none => some none
    | some b => do
        let ws : WbaStr := { len := 0, cap := cap, buf := some b }
        let ws ← ws.store 0 (List.replicate ((cap + 1) % sizeMod) 0)
        pure (some ws)

def wbaStrnew2 (malloc : Bool) (a : Alloc Byte) (str : Option (List Byte)) :
    Option (Option WbaStr) :=
  let len := match str with
    | none => 0
    | some str => strlen str
  wbaStrnewlen malloc a str len

/-! ### Changing -/

def wbaStrclr (ws : WbaStr) : Option WbaStr := { ws with len := 0 }.store 0 [0]

def wbaStrgrow (a : Alloc Byte) (ws : WbaStr) (cap : ℕ) : Option (Bool × WbaStr) :=
  if cap ≤ ws.cap then some (true, ws)
  else do
    let b ← ws.buf
    match Block.realloc a b ((cap + 1) % sizeMod) with
    | (none, old) => pure (false, { ws with buf := old })
    | (some b, _) => pure (true, { ws with buf := some b, cap := cap })

def wbaStrReserve (a : Alloc Byte) (ws : WbaStr) (cap : ℕ) : Option (Bool × WbaStr) :=
  if cap ≤ ws.cap then some (true, ws)
  else if cap < wbaStrMaxReserveSize then wbaStrgrow a ws (cap * 2 % sizeMod)
  else wbaStrgrow a ws ((cap + wbaStrMaxReserveSize) % sizeMod)

def wbaStrncpy (a : Alloc Byte) (ws : WbaStr) (str : Option (List Byte)) (len : ℕ) :
    Option (Bool × WbaStr) :=
  match str with
  | none => some (true, ws)
  | some str =>
      if len = 0 then some (true, ws)
      else do
        let r ← wbaStrReserve a ws len
        if !r.1 then pure (false, r.2)
        else
          let ws ← r.2.store 0 (str.take len)
          let ws := { ws with len := len }
          let ws ← ws.store ws.len [0]
          pure (true, ws)

def wbaStrcpy (a : Alloc Byte) (ws : WbaStr) (str : Option (List Byte)) : Option (Bool × WbaStr) :=
  match str with
  | none => some (true, ws)
  | some mem => wbaStrncpy a ws (some mem) (strlen mem)

def wbaStrncat (a : Alloc Byte) (ws : WbaStr) (str : Option (List Byte)) (len : ℕ) :
    Option (Bool × WbaStr) :=
  match str with
  | none => some (true, ws)
  | some str =>
      if len = 0 then some (true, ws)
      else do
        let r ← wbaStrReserve a ws ((ws.len + len) % sizeMod)
        if !r.1 then pure (false, r.2)
        else
          let ws ← r.2.store r.2.len (str.take len)
          let ws := { ws with len := (ws.len + len) % sizeMod }
          let ws ← ws.store ws.len [0]
          pure (true, ws)

def wbaStrcat (a : Alloc Byte) (ws : WbaStr) (str : Option (List Byte)) : Option (Bool × WbaStr) :=
  match str with
  | none => some (true, ws)
  | some mem => wbaStrncat a ws (some mem) (strlen mem)

/-- The result of `vsnprintf` for a format that renders as the given text: its length, or -1 when
there is an encoding error or the length is no `int`. -/
def vsnprintfLen (text : Option (List Byte)) : ℤ :=
  match text with
  | none => -1
  | some text => if text.length ≤ intMax then text.length else -1

/-- What `vsnprintf` writes when the buffer has `n` bytes. -/
def vsnprintfBytes (text : List Byte) (n : ℕ) : List Byte :=
  if n = 0 then [] else text.take (n - 1) ++ [0]

/-- An `int` as a `size_t`. -/
def sizeOfInt (i : ℤ) : ℕ := (i % sizeMod).toNat

/-- The sum of two values of the type `int`. -/
def addInt (i j : ℤ) : ℤ := Int.bmod (i + j) (2 ^ 32)

/-- `wba_strcat_vprintf`, for a format and arguments that render as the given text. -/
def wbaStrcatVprintf (a : Alloc Byte) (ws : WbaStr) (text : Option (List Byte)) :
    Option (Bool × WbaStr) :=
  let len := vsnprintfLen text
  if len < 0 then some (false, ws)
  else do
    let r ← wbaStrReserve a ws ((ws.len + sizeOfInt len) % sizeMod)
    if !r.1 then pure (false, r.2)
    else
      let ws ← r.2.store r.2.len (vsnprintfBytes (text.getD []) (sizeOfInt (addInt len 1)))
      pure (true, { ws with len := (ws.len + sizeOfInt len) % sizeMod })

end WbaStr

end Miscellany
