import Mathlib.Algebra.Ring.Int.Defs
import Mathlib.Algebra.Ring.Nat
import Mathlib.Data.List.Basic

/-!
# Conversion between encodings

The class `Encoding`, its two implementations over a converter of the library ICU, and
`Encoding::convert`. The converters are parameters. A conversion begins with a reset of the
converter, so that it depends on its arguments only, and `reset` has nothing to do. A size that is
an `int` is an integer, and an array that could not be allocated is one that `alloc` refuses.
-/

namespace Miscellany

namespace Icu

/-- The code unit of a text. -/
abbrev Wchar := UInt16

/-! ### The library -/

/-- What a conversion does: the length of the output, the elements that are stored in the array from
its beginning on, and the error code. -/
structure Conversion (α : Type) where
  length : ℤ
  stored : List α
  code : ℤ

/-- `UConverter`, with the functions `ucnv_getName`, `ucnv_getMinCharSize`, `ucnv_getMaxCharSize`,
`ucnv_toUChars` and `ucnv_fromUChars`. The last two have the size of the array, and the text with
its size. -/
structure UConverter where
  name : String
  minCharSize : ℤ
  maxCharSize : ℤ
  toUChars : ℤ → List UInt8 → ℤ → Conversion Wchar
  fromUChars : ℤ → List Wchar → ℤ → Conversion UInt8

def zeroError : ℤ := 0

def illegalArgumentError : ℤ := 1

def memoryAllocationError : ℤ := 7

def bufferOverflowError : ℤ := 15

def stringNotTerminatedWarning : ℤ := -124

/-- The value of an `int`. -/
def toInt (n : ℤ) : ℤ := Int.bmod n (2 ^ 32)

/-- The macro `UCNV_GET_MAX_BYTES_FOR_STRING` of the header `unicode/ucnv.h`, which is
`((int32_t)((length)+10)*(int32_t)(maxCharSize))`. -/
def maxBytesForString (length maxCharSize : ℤ) : ℤ := toInt ((length + 10) * maxCharSize)

end Icu

open Icu

structure EncodingError where
  errVal : ℤ
deriving DecidableEq

/-- `operator bool`. -/
def EncodingError.isError (err : EncodingError) : Bool := 0 < err.errVal

/-! ### Encodings -/

/-- The output of a virtual function that converts. -/
structure Converted (α : Type) where
  length : ℤ
  stored : List α
  err : EncodingError

/-- The error code is made an error. -/
def Converted.ofConversion {α : Type} (r : Conversion α) : Converted α :=
  ⟨r.length, r.stored, ⟨r.code⟩⟩

/-- The virtual functions of the class. -/
structure Encoding where
  getName : String
  getMaxCharSize : ℤ
  getMinCharSize : ℤ
  getMaxByteCount : ℤ → ℤ
  fromUnicode : List Wchar → ℤ → ℤ → Converted UInt8
  toUnicode : List UInt8 → ℤ → ℤ → Converted Wchar

namespace Encoding

/-- What the two implementations have in common. -/
def ofConverter (cnv : UConverter) : Encoding where
  getName := cnv.name
  getMaxCharSize := cnv.maxCharSize
  getMinCharSize := cnv.minCharSize
  getMaxByteCount wcharCount := maxBytesForString wcharCount cnv.maxCharSize
  fromUnicode src srcSize dstSize := .ofConversion (cnv.fromUChars dstSize src srcSize)
  toUnicode src srcSize dstSize := .ofConversion (cnv.toUChars dstSize src srcSize)

/-- The constructor of `GBKEncoding`, which fails if there is no converter. -/
def gbk (ucnvOpen : String → Option UConverter) : Option Encoding :=
  (ucnvOpen "gbk").map ofConverter

/-- The constructor of `UTF8Encoding`. -/
def utf8 (ucnvOpen : String → Option UConverter) : Option Encoding :=
  (ucnvOpen "utf-8").map ofConverter

/-- The string that is made of an array of characters. Reading beyond what is stored is a fault. -/
def ofArray (stored : List UInt8) : Option (List UInt8) :=
  if stored.contains 0 then some (stored.takeWhile (· != 0)) else none

/-- `convert`, with the string `dst` that is written to. -/
def convert (alloc : ℤ → Bool) (pSrc pDst : Option Encoding) (src dst : List UInt8) :
    Option (List UInt8 × EncodingError) :=
  match pSrc, pDst with
  | some pSrc, some pDst =>
      if src.isEmpty then some ([], ⟨zeroError⟩)
      else
        let maxSrcCharCount := toInt (src.length / pSrc.getMinCharSize)
        let wbufSize := toInt (maxSrcCharCount * 2)
        if !alloc (wbufSize * 2) then some (dst, ⟨memoryAllocationError⟩)
        else
          let r := pSrc.toUnicode src (toInt src.length) wbufSize
          if r.err.isError then some (dst, r.err)
          else
            let bufSize := pDst.getMaxByteCount r.length
            if !alloc bufSize then some (dst, ⟨memoryAllocationError⟩)
            else
              let r' := pDst.fromUnicode r.stored r.length bufSize
              if r'.err.isError then some (dst, r'.err)
              else (ofArray r'.stored).map fun str => (str, r'.err)
  | _, _ => some (dst, ⟨illegalArgumentError⟩)

end Encoding

/-! ### What is documented -/

namespace Icu

/-- The output in an array of the size `capacity`. A null character is stored behind it if there is
room. -/
def conversion {α : Type} (null : α) (capacity : ℤ) (out : List α) : Conversion α where
  length := out.length
  stored := (out ++ [null]).take capacity.toNat
  code :=
    if out.length < capacity then zeroError
    else if out.length = capacity then stringNotTerminatedWarning
    else bufferOverflowError

/-- An encoding: its valid texts, the texts whose characters exist in it, and what the one are in
the other. -/
structure Charset where
  Valid : List UInt8 → Prop
  Exists : List Wchar → Prop
  toUnicode : List UInt8 → List Wchar
  fromUnicode : List Wchar → List UInt8

/-- What is assumed of a converter. Both functions undo each other on valid texts, and give the
whole output if the array is large enough. A code unit takes at least `minCharSize` bytes and at
most `maxCharSize`, which is 2 or 3. The null character is the byte zero, and no other character
has this byte. -/
structure Documented (cnv : UConverter) (c : Charset) : Prop where
  exists_toUnicode : ∀ s, c.Valid s → c.Exists (c.toUnicode s)
  valid_fromUnicode : ∀ text, c.Exists text → c.Valid (c.fromUnicode text)
  fromUnicode_toUnicode : ∀ s, c.Valid s → c.fromUnicode (c.toUnicode s) = s
  toUnicode_fromUnicode : ∀ text, c.Exists text → c.toUnicode (c.fromUnicode text) = text
  toUChars : ∀ s capacity, c.Valid s → 0 ≤ capacity →
    cnv.toUChars capacity s s.length = conversion 0 capacity (c.toUnicode s)
  fromUChars : ∀ src text capacity, text <+: src → c.Exists text → 0 ≤ capacity →
    cnv.fromUChars capacity src text.length = conversion 0 capacity (c.fromUnicode text)
  minCharSize_pos : 0 < cnv.minCharSize
  maxCharSize_pos : 0 < cnv.maxCharSize
  maxCharSize_le : cnv.maxCharSize ≤ 3
  length_toUnicode : ∀ s, c.Valid s → (c.toUnicode s).length * cnv.minCharSize ≤ s.length
  length_fromUnicode : ∀ text, c.Exists text →
    (c.fromUnicode text).length ≤ text.length * cnv.maxCharSize
  zero_mem_toUnicode : ∀ s, c.Valid s → (0 ∈ c.toUnicode s ↔ 0 ∈ s)

end Icu

end Miscellany
