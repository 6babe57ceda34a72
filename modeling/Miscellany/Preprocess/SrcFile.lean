import Miscellany.Library.InputStream
import Miscellany.Sstring.Split

/-!
# Source files in memory

The classes `SrcLine` and `SrcFile` of the preprocessor, and the iterators `SrcIter` and `SrcCIter`.
The lists that the classes keep are lists, and an iterator into one of them is the part of the list
from its position on. Going or reading beyond the end of a list is a fault, for which a function has
the result `none`. A pointer to a `SrcFile` is its address.
-/

namespace Miscellany

open InputStream WbaStr

structure SrcLine where
  line : ℤ
  file : String
  data : List (List Byte)
deriving DecidableEq

namespace SrcLine

/-- The constructor, which splits the text at spaces. -/
def new (str : List Byte) (file : String) (line : ℤ) : SrcLine where
  line := line
  file := file
  data := Pgr.split str [32] true

def size (l : SrcLine) : ℕ := l.data.length

end SrcLine

structure SrcFile where
  size : ℕ
  data : List SrcLine
deriving DecidableEq

namespace SrcFile

/-- The constructor. -/
def new : SrcFile where
  size := 0
  data := []

def pushLine (f : SrcFile) (line : SrcLine) : SrcFile where
  size := f.size + line.size
  data := f.data ++ [line]

/-- The loop of `read`. The text that is made of the array `buf` ends at the first null
character. -/
def readLoop (filename : String) : ℕ → InputStream → ℤ → SrcFile → Option SrcFile
  | 0, _, _, _ => none
  | fuel + 1, fs, count, f =>
      let r := fs.getlineBuf 256
      if r.2.fail then some f
      else
        let count := addInt count 1
        let line := SrcLine.new (r.1.takeWhile (· != 0)) filename count
        readLoop filename fuel r.2 count (f.pushLine line)

/-- `read`, of a file with the given text. Each line that is read takes at least one character. -/
def read (f : SrcFile) (filename : String) (text : List Byte) : Option SrcFile :=
  readLoop filename (text.length + 1) (ofBytes text) 0 f

/-! ### Subscripts -/

/-- The loop over the lines: the line, and the index in it. -/
def findLine : List SrcLine → ℕ → Option (SrcLine × ℕ)
  | [], _ => none
  | line :: lines, index =>
      if index < line.size then some (line, index) else findLine lines (index - line.size)

/-- The loop over the words of a line, from the iterator `it` on. -/
def advance : ℕ → List (List Byte) → Option (List Byte)
  | 0, it => it.head?
  | _ + 1, [] => none
  | index + 1, _ :: it => advance index it

/-- What both functions `operator[]` do. -/
def wordAt (data : List SrcLine) (index : ℕ) : Option (List Byte) := do
  let r ← findLine data index
  advance r.2 r.1.data

/-- `operator[]` of a file that is not `const`. -/
def subscript (f : SrcFile) (index : ℕ) : Option (List Byte) := wordAt f.data index

/-- `operator[]` of a `const` file. -/
def subscriptConst (f : SrcFile) (index : ℕ) : Option (List Byte) := wordAt f.data index

end SrcFile

/-! ### Iterators -/

/-- An iterator, with the address of its file. -/
structure SrcIter where
  data : Option ℕ
  index : ℕ
deriving DecidableEq

/-- The iterator of a `const` file. -/
abbrev SrcCIter := SrcIter

namespace SrcIter

/-- `operator*`, where `files` are the files in memory. -/
def deref (files : ℕ → SrcFile) (it : SrcIter) : Option (List Byte) := do
  let this ← it.data
  (files this).subscript it.index

/-- `operator*` of `SrcCIter`. -/
def derefConst (files : ℕ → SrcFile) (it : SrcCIter) : Option (List Byte) := do
  let this ← it.data
  (files this).subscriptConst it.index

/-- `operator!=`. -/
def ne (it last : SrcIter) : Bool := !(it.data == last.data && it.index == last.index)

/-- `operator++`. -/
def next (it : SrcIter) : SrcIter := { it with index := it.index + 1 }

/-- The loop that steps from `it` to `last`: what `operator*` gives at each position. -/
def visit (deref : SrcIter → Option (List Byte)) : ℕ → SrcIter → SrcIter → Option (List (List Byte))
  | 0, _, _ => none
  | fuel + 1, it, last =>
      if it.ne last then do
        let word ← deref it
        let words ← visit deref fuel it.next last
        pure (word :: words)
      else some []

end SrcIter

namespace SrcFile

/-- `begin`, where `this` is the address of the file. -/
def first (this : ℕ) : SrcIter := ⟨some this, 0⟩

/-- `end`. -/
def last (this : ℕ) (f : SrcFile) : SrcIter := ⟨some this, f.size⟩

end SrcFile

end Miscellany
