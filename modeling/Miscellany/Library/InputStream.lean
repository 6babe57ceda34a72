import Mathlib.Data.List.TakeDrop
import Miscellany.Library.Parts

/-!
# Input streams over a buffer

The extractions of a `std::istream` over a buffer that holds a finite number of bytes, in
the classic locale: the unread bytes and the flags `eofbit` and `failbit`. A value that an
extraction would store is passed in, and comes back unchanged when the sentry fails.
-/

namespace Miscellany

/-- The unread bytes of a stream and its flags. -/
structure InputStream where
  rest : List UInt8
  eof : Bool
  fail : Bool
deriving DecidableEq

namespace InputStream

/-- A stream just constructed over the bytes of a buffer. -/
def ofBytes (bytes : List UInt8) : InputStream := ⟨bytes, false, false⟩

/-- `isspace`. -/
def isSpace (c : UInt8) : Bool := c == 32 || (9 ≤ c && c ≤ 13)

def lf : UInt8 := 10

/-- The sentry of an extraction: whether it succeeds, and the stream after it. -/
def sentry (skipws : Bool) (s : InputStream) : Bool × InputStream :=
  if s.eof || s.fail then (false, { s with fail := true })
  else if skipws then
    match s.rest.dropWhile isSpace with
    | [] => (false, ⟨[], true, true⟩)
    | c :: cs => (true, { s with rest := c :: cs })
  else (true, s)

/-- `getline`: the line without its end. -/
def getline (s : InputStream) (str : List UInt8) : List UInt8 × InputStream :=
  match s.sentry false with
  | (false, s) => (str, s)
  | (true, s) =>
      let line := s.rest.takeWhile (· != lf)
      match s.rest.dropWhile (· != lf) with
      | [] => (line, ⟨[], true, line.isEmpty⟩)
      | _ :: rest => (line, { s with rest := rest })

/-- `getline` into an array of `n` characters: the characters stored. The stream fails when the line
has more than `n - 1` of them. -/
def getlineBuf (s : InputStream) (n : ℕ) : List UInt8 × InputStream :=
  match s.sentry false with
  | (false, s) => ([], s)
  | (true, s) =>
      let line := s.rest.takeWhile (· != lf)
      if n - 1 < line.length then
        (line.take (n - 1), { s with rest := s.rest.drop (n - 1), fail := true })
      else
        match s.rest.dropWhile (· != lf) with
        | [] => (line, ⟨[], true, line.isEmpty⟩)
        | _ :: rest => (line, { s with rest := rest })

/-- `operator>>` for a string. -/
def extractWord (s : InputStream) (str : List UInt8) : List UInt8 × InputStream :=
  match s.sentry true with
  | (false, s) => (str, s)
  | (true, s) =>
      let rest := s.rest.dropWhile fun c => !isSpace c
      (s.rest.takeWhile fun c => !isSpace c, { s with rest := rest, eof := rest.isEmpty })

/-- The value of a digit, 16 for a character that is none in any base up to 16. -/
def digitVal (c : UInt8) : ℕ :=
  if 48 ≤ c.toNat ∧ c.toNat ≤ 57 then c.toNat - 48
  else if 97 ≤ c.toNat ∧ c.toNat ≤ 102 then c.toNat - 87
  else if 65 ≤ c.toNat ∧ c.toNat ≤ 70 then c.toNat - 55
  else 16

def isDigit (base : ℕ) (c : UInt8) : Bool := digitVal c < base

/-- The number that the digits write, the highest first. -/
def digitsVal (base : ℕ) (cs : List UInt8) : ℕ :=
  cs.foldl (fun v c => v * base + digitVal c) 0

/-- The sign in front of a number: whether it is a minus, and what follows. -/
def signOf : List UInt8 → Bool × List UInt8
  | 43 :: cs => (false, cs)
  | 45 :: cs => (true, cs)
  | cs => (false, cs)

/-- The mark `0x` in front of a number in base 16. -/
def dropMark (base : ℕ) (cs : List UInt8) : List UInt8 :=
  match cs with
  | 48 :: c :: cs' => if base = 16 ∧ (c = 120 ∨ c = 88) then cs' else cs
  | _ => cs

/-- `operator>>` for an unsigned type with the given number of values. As `strtoull` does, a number
with a minus is negated modulo that number; a number that is too large gives the largest value,
and no number gives zero, both with `failbit`. -/
def extractUnsigned (base card : ℕ) (s : InputStream) (val : ℕ) : ℕ × InputStream :=
  match s.sentry true with
  | (false, s) => (val, s)
  | (true, s) =>
      let sign := signOf s.rest
      let body := dropMark base sign.2
      let digits := body.takeWhile (isDigit base)
      let rest := body.dropWhile (isDigit base)
      let v := digitsVal base digits
      if digits.isEmpty then (0, ⟨rest, rest.isEmpty, true⟩)
      else if card ≤ v then (card - 1, ⟨rest, rest.isEmpty, true⟩)
      else (if sign.1 then (card - v) % card else v, ⟨rest, rest.isEmpty, false⟩)

/-- The number with a sign in front. -/
def signed (minus : Bool) (v : ℕ) : ℤ := if minus then -(v : ℤ) else v

/-- `operator>>` for a signed type with the values from `lo` to `hi`. A number that is out of range
gives the value nearest to it, and no number gives zero, both with `failbit`. -/
def extractSigned (base : ℕ) (lo hi : ℤ) (s : InputStream) (val : ℤ) : ℤ × InputStream :=
  match s.sentry true with
  | (false, s) => (val, s)
  | (true, s) =>
      let sign := signOf s.rest
      let body := dropMark base sign.2
      let digits := body.takeWhile (isDigit base)
      let rest := body.dropWhile (isDigit base)
      let v := signed sign.1 (digitsVal base digits)
      if digits.isEmpty then (0, ⟨rest, rest.isEmpty, true⟩)
      else if v < lo then (lo, ⟨rest, rest.isEmpty, true⟩)
      else if hi < v then (hi, ⟨rest, rest.isEmpty, true⟩)
      else (v, ⟨rest, rest.isEmpty, false⟩)

/-- `read`: the bytes stored, whose number is `gcount`. -/
def read (s : InputStream) (n : ℕ) : List UInt8 × InputStream :=
  match s.sentry false with
  | (false, s) => ([], s)
  | (true, s) =>
      if n ≤ s.rest.length then (s.rest.take n, { s with rest := s.rest.drop n })
      else (s.rest, ⟨[], true, true⟩)

/-! ### Lines and blocks -/

theorem takeWhile_ne_lf {line : List UInt8} (h : lf ∉ line) (rest : List UInt8) :
    (line ++ lf :: rest).takeWhile (· != lf) = line ∧
      (line ++ lf :: rest).dropWhile (· != lf) = lf :: rest := by
  have hall := bne_of_notMem h
  constructor
  · rw [List.takeWhile_append_of_pos hall]
    simp
  · rw [List.dropWhile_append_of_pos hall]
    simp

/-- A line is taken off with its end. -/
theorem getline_ofBytes_append {line : List UInt8} (h : lf ∉ line) (rest str : List UInt8) :
    (ofBytes (line ++ lf :: rest)).getline str = (line, ofBytes rest) := by
  obtain ⟨htake, hdrop⟩ := takeWhile_ne_lf h rest
  simp only [getline, sentry, ofBytes, htake, hdrop, Bool.or_self, Bool.false_eq_true, if_false]

theorem getlineBuf_ofBytes_append {line : List UInt8} {n : ℕ} (h : lf ∉ line)
    (hle : line.length ≤ n - 1) (rest : List UInt8) :
    (ofBytes (line ++ lf :: rest)).getlineBuf n = (line, ofBytes rest) := by
  obtain ⟨htake, hdrop⟩ := takeWhile_ne_lf h rest
  simp only [getlineBuf, sentry, ofBytes, htake, hdrop, Bool.or_self, Bool.false_eq_true, if_false,
    if_neg (Nat.not_lt.2 hle)]

/-- A last line without an end. -/
theorem getlineBuf_ofBytes {line : List UInt8} {n : ℕ} (h : lf ∉ line)
    (hle : line.length ≤ n - 1) :
    (ofBytes line).getlineBuf n = (line, ⟨[], true, line.isEmpty⟩) := by
  have htake : line.takeWhile (· != lf) = line := takeWhile_bne_eq_self_iff.2 h
  have hdrop : line.dropWhile (· != lf) = [] := List.dropWhile_eq_nil_iff.2 (bne_of_notMem h)
  simp only [getlineBuf, sentry, ofBytes, htake, hdrop, Bool.or_self, Bool.false_eq_true, if_false,
    if_neg (Nat.not_lt.2 hle)]

/-- The stream fails at a line that is too long. -/
theorem fail_getlineBuf {text : List UInt8} {n : ℕ}
    (h : n - 1 < (text.takeWhile (· != lf)).length) :
    ((ofBytes text).getlineBuf n).2.fail = true := by
  simp only [getlineBuf, sentry, ofBytes, Bool.or_self, Bool.false_eq_true, if_false, if_pos h]

theorem fail_getlineBuf_of_eof {s : InputStream} (h : s.eof = true) (n : ℕ) :
    (s.getlineBuf n).2.fail = true := by
  simp only [getlineBuf, sentry, h, Bool.true_or, if_true]

theorem read_ofBytes_append (data rest : List UInt8) :
    (ofBytes (data ++ rest)).read data.length = (data, ofBytes rest) := by
  have hle : data.length ≤ (data ++ rest).length := by simp
  simp only [read, sentry, ofBytes, Bool.or_self, Bool.false_eq_true, if_false, if_pos hle,
    List.take_left, List.drop_left]

theorem read_ofBytes_self (data : List UInt8) :
    (ofBytes data).read data.length = (data, ofBytes []) := by
  have h := read_ofBytes_append data []
  rwa [List.append_nil] at h

theorem read_ofBytes_of_lt {data : List UInt8} {n : ℕ} (h : data.length < n) :
    (ofBytes data).read n = (data, ⟨[], true, true⟩) := by
  have hle : ¬ n ≤ data.length := by omega
  simp only [read, sentry, ofBytes, Bool.or_self, Bool.false_eq_true, if_false, if_neg hle]

/-! ### Numbers -/

theorem isSpace_of_isDigit {c : UInt8} (h : isDigit 16 c = true) : isSpace c = false := by
  by_contra hspace
  rw [Bool.not_eq_false, isSpace, Bool.or_eq_true, Bool.and_eq_true, beq_iff_eq] at hspace
  have hnat : c.toNat = 32 ∨ 9 ≤ c.toNat ∧ c.toNat ≤ 13 := by
    apply hspace.imp
    · intro hc
      rw [hc]
      rfl
    · intro hc
      exact ⟨UInt8.le_iff_toNat_le.1 (of_decide_eq_true hc.1),
        UInt8.le_iff_toNat_le.1 (of_decide_eq_true hc.2)⟩
  have hval : digitVal c = 16 := by
    unfold digitVal
    rw [if_neg (by omega), if_neg (by omega), if_neg (by omega)]
  rw [isDigit, hval] at h
  exact absurd h (by decide)

theorem isDigit_sixteen {c : UInt8} (h : isDigit 10 c = true) : isDigit 16 c = true := by
  have hlt : digitVal c < 10 := of_decide_eq_true h
  exact decide_eq_true (by omega)

theorem signOf_of_isDigit {c : UInt8} (h : isDigit 16 c = true) (cs : List UInt8) :
    signOf (c :: cs) = (false, c :: cs) := by
  unfold signOf
  split
  · rename_i heq
    obtain ⟨rfl, -⟩ := List.cons.inj heq
    exact absurd h (by decide)
  · rename_i heq
    obtain ⟨rfl, -⟩ := List.cons.inj heq
    exact absurd h (by decide)
  · rfl

/-- The value extracted is one of the type. -/
theorem extractUnsigned_lt {base card val : ℕ} (s : InputStream) (h : val < card) :
    (s.extractUnsigned base card val).1 < card := by
  have hpos : 0 < card := Nat.zero_lt_of_lt h
  unfold extractUnsigned
  split
  · exact h
  dsimp only
  split_ifs with hdigits hcard hsign
  · exact hpos
  · exact Nat.sub_lt hpos Nat.one_pos
  · exact Nat.mod_lt _ hpos
  · exact Nat.lt_of_not_le hcard

/-- The mark belongs to base 16. -/
theorem dropMark_of_ne {base : ℕ} (h : base ≠ 16) (cs : List UInt8) : dropMark base cs = cs := by
  unfold dropMark
  split
  · exact if_neg (fun hmark => h hmark.1)
  · rfl

theorem dropMark_mark {x : UInt8} (h : x = 120 ∨ x = 88) (cs : List UInt8) :
    dropMark 16 (48 :: x :: cs) = cs := if_pos ⟨rfl, h⟩

theorem dropMark_cons {c : UInt8} {cs : List UInt8} (h : ∀ c' ∈ cs.head?, c' ≠ 120 ∧ c' ≠ 88) :
    dropMark 16 (c :: cs) = c :: cs := by
  unfold dropMark
  split
  · rename_i c' cs' heq
    obtain ⟨-, rfl⟩ := List.cons.inj heq
    have hc := h c' rfl
    rw [if_neg]
    rintro ⟨-, hx | hx⟩
    · exact hc.1 hx
    · exact hc.2 hx
  · rfl

/-- What can stand behind the digits of a number in base 16. -/
def EndsNumber (cs : List UInt8) : Prop :=
  ∀ c ∈ cs.head?, isDigit 16 c = false ∧ c ≠ 120 ∧ c ≠ 88

theorem not_mark_of_isDigit {c : UInt8} (h : isDigit 16 c = true) : c ≠ 120 ∧ c ≠ 88 := by
  constructor
  · rintro rfl
    exact absurd h (by decide)
  · rintro rfl
    exact absurd h (by decide)

theorem sentry_of_nil {bs : List UInt8} (h : bs.dropWhile isSpace = []) :
    (ofBytes bs).sentry true = (false, ⟨[], true, true⟩) := by
  simp only [sentry, ofBytes, h, Bool.or_self, Bool.false_eq_true, if_false, if_true]

theorem sentry_of_cons {bs cs : List UInt8} {c : UInt8} (h : bs.dropWhile isSpace = c :: cs) :
    (ofBytes bs).sentry true = (true, ofBytes (c :: cs)) := by
  simp only [sentry, ofBytes, h, Bool.or_self, Bool.false_eq_true, if_false, if_true]

/-- A number behind spaces is read up to the end of its digits. -/
theorem extractUnsigned_of_digits {base card : ℕ} {bs ds cs : List UInt8} {d : UInt8}
    (hskip : bs.dropWhile isSpace = d :: (ds ++ cs)) (hd : isDigit 16 d = true)
    (hmark : dropMark base (d :: (ds ++ cs)) = d :: ds ++ cs)
    (hds : ∀ c ∈ d :: ds, isDigit base c = true) (hcs : ∀ c ∈ cs.head?, isDigit base c = false)
    (hcard : digitsVal base (d :: ds) < card) (val : ℕ) :
    ((ofBytes bs).extractUnsigned base card val).1 = digitsVal base (d :: ds) := by
  have htake : (d :: ds ++ cs).takeWhile (isDigit base) = d :: ds := by
    rw [List.takeWhile_append_of_pos hds]
    cases cs with
    | nil => simp
    | cons c cs => simp [hcs c rfl]
  rw [extractUnsigned, sentry_of_cons hskip]
  simp only [ofBytes, signOf_of_isDigit hd, hmark, htake, List.isEmpty_cons, Bool.false_eq_true,
    if_false, if_neg (Nat.not_le.2 hcard)]

/-- A number in base 16. -/
theorem extractUnsigned_digits {card : ℕ} {ds cs : List UInt8} (hne : ds ≠ [])
    (hds : ∀ d ∈ ds, isDigit 16 d = true) (hcs : EndsNumber cs) (hcard : digitsVal 16 ds < card)
    (val : ℕ) : ((ofBytes (ds ++ cs)).extractUnsigned 16 card val).1 = digitsVal 16 ds := by
  obtain ⟨d, ds', rfl⟩ := List.exists_cons_of_ne_nil hne
  have hd : isDigit 16 d = true := hds d List.mem_cons_self
  have hskip : (d :: ds' ++ cs).dropWhile isSpace = d :: (ds' ++ cs) := by
    rw [List.cons_append, List.dropWhile_cons_of_neg]
    simp [isSpace_of_isDigit hd]
  have hmark : dropMark 16 (d :: (ds' ++ cs)) = d :: ds' ++ cs := by
    apply dropMark_cons
    intro c hc
    cases ds' with
    | nil => exact (hcs c hc).2
    | cons d' ds' =>
        have heq : d' = c := Option.some.inj hc
        exact heq ▸ not_mark_of_isDigit (hds d' (by simp))
  exact extractUnsigned_of_digits hskip hd hmark hds (fun c hc => (hcs c hc).1) hcard val

/-- A number in base 10 behind spaces. -/
theorem extractUnsigned_decimal {card : ℕ} {bs ds cs : List UInt8} (hne : ds ≠ [])
    (hds : ∀ d ∈ ds, isDigit 10 d = true) (hcs : ∀ c ∈ cs.head?, isDigit 10 c = false)
    (hskip : bs.dropWhile isSpace = ds ++ cs) (hcard : digitsVal 10 ds < card) (val : ℕ) :
    ((ofBytes bs).extractUnsigned 10 card val).1 = digitsVal 10 ds := by
  obtain ⟨d, ds', rfl⟩ := List.exists_cons_of_ne_nil hne
  have hd : isDigit 16 d = true := isDigit_sixteen (hds d List.mem_cons_self)
  have hmark : dropMark 10 (d :: (ds' ++ cs)) = d :: ds' ++ cs := dropMark_of_ne (by decide) _
  exact extractUnsigned_of_digits hskip hd hmark hds hcs hcard val

/-- A number of a signed type that is all there is. -/
theorem extractSigned_whole_iff {base : ℕ} {lo hi : ℤ} {c : UInt8} {cs body : List UInt8}
    (hc : isSpace c = false) (hbody : body = dropMark base (signOf (c :: cs)).2) (val n : ℤ) :
    (((ofBytes (c :: cs)).extractSigned base lo hi val).2.fail = false ∧
      ((ofBytes (c :: cs)).extractSigned base lo hi val).2.eof = true ∧
      ((ofBytes (c :: cs)).extractSigned base lo hi val).1 = n) ↔
      body ≠ [] ∧ (∀ d ∈ body, isDigit base d = true) ∧
        n = signed (signOf (c :: cs)).1 (digitsVal base body) ∧ lo ≤ n ∧ n ≤ hi := by
  have hskip : (c :: cs).dropWhile isSpace = c :: cs := by
    rw [List.dropWhile_cons_of_neg]
    rw [hc]
    decide
  rw [extractSigned, sentry_of_cons hskip]
  simp only [ofBytes, ← hbody]
  constructor
  · split_ifs with hdigits hlo hhi
    · rintro ⟨hfail, -, -⟩
      cases hfail
    · rintro ⟨hfail, -, -⟩
      cases hfail
    · rintro ⟨hfail, -, -⟩
      cases hfail
    · rintro ⟨-, heof, hn⟩
      have hall : ∀ d ∈ body, isDigit base d = true :=
        List.dropWhile_eq_nil_iff.1 (List.isEmpty_iff.1 heof)
      rw [List.takeWhile_eq_self_iff.2 hall] at hdigits hlo hhi hn
      refine ⟨?_, hall, hn.symm, hn ▸ Int.not_lt.1 hlo, hn ▸ Int.not_lt.1 hhi⟩
      rintro rfl
      exact hdigits rfl
  · rintro ⟨hne, hall, hn, hlo, hhi⟩
    have hnonempty : ¬ body.isEmpty = true := fun h => hne (List.isEmpty_iff.1 h)
    rw [List.takeWhile_eq_self_iff.2 hall, List.dropWhile_eq_nil_iff.2 hall, ← hn,
      if_neg hnonempty, if_neg (Int.not_lt.2 hlo), if_neg (Int.not_lt.2 hhi)]
    exact ⟨rfl, rfl, rfl⟩

/-! ### Words -/

/-- Without another word nothing is stored. -/
theorem extractWord_of_nil {bs : List UInt8} (h : bs.dropWhile isSpace = [])
    (str : List UInt8) : ((ofBytes bs).extractWord str).1 = str := by
  rw [extractWord, sentry_of_nil h]

theorem extractWord_of_cons {bs cs : List UInt8} {c : UInt8}
    (h : bs.dropWhile isSpace = c :: cs) (str : List UInt8) :
    ((ofBytes bs).extractWord str).1 = (c :: cs).takeWhile fun c => !isSpace c := by
  rw [extractWord, sentry_of_cons h]
  rfl

theorem extractUnsigned_of_nil {bs : List UInt8} (h : bs.dropWhile isSpace = [])
    (base card val : ℕ) : ((ofBytes bs).extractUnsigned base card val).1 = val := by
  rw [extractUnsigned, sentry_of_nil h]

/-- With another word, what is stored does not depend on what was there. -/
theorem extractUnsigned_of_cons {bs cs : List UInt8} {c : UInt8}
    (h : bs.dropWhile isSpace = c :: cs) (base card val val' : ℕ) :
    ((ofBytes bs).extractUnsigned base card val).1 =
      ((ofBytes bs).extractUnsigned base card val').1 := by
  rw [extractUnsigned, extractUnsigned, sentry_of_cons h]

/-- A word at the front is taken off. -/
theorem extractWord_append {w rest : List UInt8} (hne : w ≠ [])
    (hw : ∀ c ∈ w, isSpace c = false) (hrest : ∃ c cs, rest = c :: cs ∧ isSpace c = true)
    (str : List UInt8) : (ofBytes (w ++ rest)).extractWord str = (w, ofBytes rest) := by
  obtain ⟨c, cs, rfl, hc⟩ := hrest
  obtain ⟨d, w', rfl⟩ := List.exists_cons_of_ne_nil hne
  have hskip : (d :: w' ++ c :: cs).dropWhile isSpace = d :: (w' ++ c :: cs) := by
    rw [List.cons_append, List.dropWhile_cons_of_neg]
    rw [hw d List.mem_cons_self]
    decide
  have hword : ∀ x ∈ d :: w', (!isSpace x) = true := by
    intro x hx
    rw [hw x hx]
    rfl
  have htake : (d :: (w' ++ c :: cs)).takeWhile (fun c => !isSpace c) = d :: w' := by
    rw [← List.cons_append, List.takeWhile_append_of_pos hword]
    simp [hc]
  have hdrop : (d :: (w' ++ c :: cs)).dropWhile (fun c => !isSpace c) = c :: cs := by
    rw [← List.cons_append, List.dropWhile_append_of_pos hword]
    simp [hc]
  rw [extractWord, sentry_of_cons hskip]
  simp only [ofBytes, htake, hdrop, List.isEmpty_cons]

end InputStream

end Miscellany
