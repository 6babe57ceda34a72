import Mathlib.Algebra.Ring.Int.Defs
import Mathlib.Data.List.DropRight
import Miscellany.Library.Decimal
import Miscellany.Str.Basic

/-!
# Integers from strings

The functions `pgr::trim`, `pgr::str_to_integer` and `pgr::to_string`. A string is an integer if
without the spaces around it there is a literal of the language C (`Literal`), and then the number
that is returned is the one that the literal writes (`strToInteger_iff`).
-/

namespace Miscellany

open InputStream

namespace Pgr

/-! ### Trimming -/

/-- The second loop of `trim`, which goes back from the position `it` to the first one. -/
def trimLoop (src : List Byte) : ℕ → ℕ
  | 0 => 0
  | it + 1 => if src[it + 1]?.any isSpace then trimLoop src it else it + 1

def trim (src : List Byte) : List Byte :=
  let src := src.dropWhile isSpace
  if src.isEmpty then [] else src.take (trimLoop src (src.length - 1) + 1)

/-! ### Integers -/

/-- A signed integer type, with its values. -/
structure IntegerType where
  lo : ℤ
  hi : ℤ

def IntegerType.int : IntegerType := ⟨-2 ^ 31, 2 ^ 31 - 1⟩

def IntegerType.longLong : IntegerType := ⟨-2 ^ 63, 2 ^ 63 - 1⟩

/-- The values of the type. -/
def IntegerType.Has (T : IntegerType) (n : ℤ) : Prop := T.lo ≤ n ∧ n ≤ T.hi

/-- `numeric_traits<T>::max_length`. -/
def IntegerType.maxLength (_ : IntegerType) : ℕ := 32

/-- The sign in front: 1, -1, or 0 for none. -/
def signNum (str : List Byte) : ℤ :=
  let sign := if str[0]? == some 43 then 1 else 0
  if str[0]? == some 45 then -1 else sign

/-- The base that is detected behind the sign. -/
def detectBase (str : List Byte) (off : ℕ) : ℕ :=
  if 2 ≤ str.length - off then
    if str[off]? == some 48 then
      if str[off + 1]? == some 120 || str[off + 1]? == some 88 then 16 else 8
    else 10
  else 10

/-- The extraction in the base. Nothing reads `val` before something is stored in it. -/
def extractInteger (T : IntegerType) (str : List Byte) (base : ℕ) : ℤ × InputStream :=
  if base = 16 then (ofBytes str).extractSigned 16 T.lo T.hi 0
  else if base = 8 then (ofBytes str).extractSigned 8 T.lo T.hi 0
  else (ofBytes str).extractSigned 10 T.lo T.hi 0

def strToInteger (T : IntegerType) (s : List Byte) (base : ℕ) : Bool × ℤ :=
  let str := trim s
  if str.isEmpty then (false, 0)
  else
    let sign := signNum str
    let base := if base = 0 then detectBase str sign.natAbs else base
    let r := extractInteger T str base
    if !r.2.fail && r.2.eof then
      if r.1 < 0 && sign != -1 then (false, 0) else (true, r.1)
    else (false, 0)

def strToInt (s : List Byte) (base : ℕ) : Bool × ℤ := strToInteger .int s base

def strToLl (s : List Byte) (base : ℕ) : Bool × ℤ := strToInteger .longLong s base

/-- `to_string`. Writing beyond the end of `buf` is a fault. -/
def toString (T : IntegerType) (t : ℤ) : Option (List Byte) :=
  let text := signedDecimal t
  if text.length < T.maxLength then some text else none

/-! ### Literals -/

/-- The text without the spaces at both ends. -/
def strip (s : List Byte) : List Byte := (s.dropWhile isSpace).rdropWhile isSpace

/-- The numerals, with the numbers that they write. -/
inductive Numeral : List Byte → ℕ → Prop
  | zero : Numeral [48] 0
  | decimal {ds : List Byte} (hne : ds ≠ []) (hds : ∀ d ∈ ds, isDigit 10 d = true)
      (hhead : ds.head? ≠ some 48) : Numeral ds (digitsVal 10 ds)
  | octal {ds : List Byte} (hne : ds ≠ []) (hds : ∀ d ∈ ds, isDigit 8 d = true) :
      Numeral (48 :: ds) (digitsVal 8 ds)
  | hexadecimal {x : Byte} {ds : List Byte} (hx : x = 120 ∨ x = 88) (hne : ds ≠ [])
      (hds : ∀ d ∈ ds, isDigit 16 d = true) : Numeral (48 :: x :: ds) (digitsVal 16 ds)

/-- The numerals with an optional sign. -/
inductive Literal : List Byte → ℤ → Prop
  | plain {l : List Byte} {v : ℕ} (h : Numeral l v) : Literal l v
  | plus {l : List Byte} {v : ℕ} (h : Numeral l v) : Literal (43 :: l) v
  | minus {l : List Byte} {v : ℕ} (h : Numeral l v) : Literal (45 :: l) (-v)

/-! ### What is trimmed -/

theorem trimLoop_eq {src : List Byte} {c : Byte} {cs : List Byte} (hsrc : src = c :: cs)
    (hc : isSpace c = false) {it : ℕ} (hit : it < src.length) :
    src.take (trimLoop src it + 1) = (src.take (it + 1)).rdropWhile isSpace := by
  induction it with
  | zero =>
      have hfirst : src.take 1 = [c] := by
        rw [hsrc]
        rfl
      rw [trimLoop, Nat.zero_add, hfirst, List.rdropWhile_singleton, hc]
      rfl
  | succ it ih =>
      have hget := List.getElem?_eq_getElem hit
      have htake : src.take (it + 1 + 1) = src.take (it + 1) ++ [src[it + 1]] := by
        rw [List.take_add_one, hget]
        rfl
      rw [trimLoop, hget, Option.any_some, htake, List.rdropWhile_concat]
      split_ifs
      · exact ih (Nat.lt_of_succ_lt hit)
      · exact htake

theorem trim_eq (s : List Byte) : trim s = strip s := by
  unfold trim strip
  dsimp only
  cases hsrc : s.dropWhile isSpace with
  | nil => rfl
  | cons c cs =>
      have hc : isSpace c = false := by
        have hhead := List.head?_dropWhile_not isSpace s
        rw [hsrc, List.head?_cons] at hhead
        exact hhead
      have hlast : (c :: cs).length - 1 < (c :: cs).length := Nat.sub_lt (by simp) Nat.one_pos
      have hloop := trimLoop_eq (rfl : c :: cs = c :: cs) hc hlast
      rw [List.isEmpty_cons, if_neg (by decide), hloop, Nat.sub_add_cancel (by simp),
        List.take_length]

/-- What is trimmed does not begin with a space. -/
theorem isSpace_of_strip {s cs : List Byte} {c : Byte} (h : strip s = c :: cs) :
    isSpace c = false := by
  have hprefix := List.rdropWhile_prefix isSpace (l := s.dropWhile isSpace)
  change strip s <+: _ at hprefix
  rw [h] at hprefix
  obtain ⟨rest, hrest⟩ := hprefix
  have hhead := List.head?_dropWhile_not isSpace s
  rw [← hrest, List.cons_append, List.head?_cons] at hhead
  exact hhead

theorem strip_of_forall {s : List Byte} (h : ∀ c ∈ s, isSpace c = false) : strip s = s := by
  have hfront : s.dropWhile isSpace = s := by
    cases s with
    | nil => rfl
    | cons c s =>
        rw [List.dropWhile_cons_of_neg]
        rw [h c List.mem_cons_self]
        decide
  rw [strip, hfront, List.rdropWhile_eq_self_iff]
  intro hne
  rw [h _ (List.getLast_mem hne)]
  decide

/-! ### The base -/

/-- The sign is the first character, or there is none. -/
theorem signNum_cases (str : List Byte) :
    (signNum str = 1 ∧ signOf str = (false, str.drop 1)) ∨
      (signNum str = -1 ∧ signOf str = (true, str.drop 1)) ∨
      (signNum str = 0 ∧ signOf str = (false, str)) := by
  rcases str with _ | ⟨c, cs⟩
  · exact Or.inr (Or.inr ⟨rfl, rfl⟩)
  by_cases hplus : c = 43
  · rw [hplus]
    exact Or.inl ⟨rfl, rfl⟩
  by_cases hminus : c = 45
  · rw [hminus]
    exact Or.inr (Or.inl ⟨rfl, rfl⟩)
  · refine Or.inr (Or.inr ⟨?_, ?_⟩)
    · simp [signNum, hplus, hminus]
    · rw [signOf.eq_def]
      simp [hplus, hminus]

/-- What is behind the sign. -/
theorem drop_signNum (str : List Byte) : str.drop (signNum str).natAbs = (signOf str).2 := by
  rcases signNum_cases str with ⟨hnum, hof⟩ | ⟨hnum, hof⟩ | ⟨hnum, hof⟩
  · rw [hnum, hof]
    rfl
  · rw [hnum, hof]
    rfl
  · rw [hnum, hof]
    rfl

theorem signNum_eq_neg_one_iff (str : List Byte) :
    signNum str = -1 ↔ (signOf str).1 = true := by
  rcases signNum_cases str with ⟨hnum, hof⟩ | ⟨hnum, hof⟩ | ⟨hnum, hof⟩
  · rw [hnum, hof]
    exact iff_of_false (by decide) Bool.false_ne_true
  · rw [hnum, hof]
    exact iff_of_true rfl rfl
  · rw [hnum, hof]
    exact iff_of_false (by decide) Bool.false_ne_true

theorem detectBase_drop (str : List Byte) (off : ℕ) :
    detectBase str off = detectBase (str.drop off) 0 := by
  simp only [detectBase, List.length_drop, List.getElem?_drop, Nat.sub_zero, Nat.add_zero,
    Nat.zero_add]

theorem detectBase_cases (str : List Byte) (off : ℕ) :
    detectBase str off = 16 ∨ detectBase str off = 8 ∨ detectBase str off = 10 := by
  unfold detectBase
  split_ifs
  · exact Or.inl rfl
  · exact Or.inr (Or.inl rfl)
  · exact Or.inr (Or.inr rfl)
  · exact Or.inr (Or.inr rfl)

theorem extractInteger_detectBase (T : IntegerType) (str l : List Byte) (off : ℕ) :
    extractInteger T str (detectBase l off) =
      (ofBytes str).extractSigned (detectBase l off) T.lo T.hi 0 := by
  rcases detectBase_cases l off with h | h | h
  · rw [h]
    rfl
  · rw [h]
    rfl
  · rw [h]
    rfl

theorem detectBase_single (c : Byte) : detectBase [c] 0 = 10 := rfl

theorem detectBase_hexadecimal {x : Byte} (hx : x = 120 ∨ x = 88) (ds : List Byte) :
    detectBase (48 :: x :: ds) 0 = 16 := by
  rcases hx with rfl | rfl
  · simp [detectBase]
  · simp [detectBase]

theorem detectBase_octal {c : Byte} (hc : ¬ (c = 120 ∨ c = 88)) (ds : List Byte) :
    detectBase (48 :: c :: ds) 0 = 8 := by
  rw [not_or] at hc
  simp [detectBase, hc.1, hc.2]

theorem detectBase_decimal {c : Byte} (hc : c ≠ 48) (ds : List Byte) :
    detectBase (c :: ds) 0 = 10 := by
  simp [detectBase, hc]

/-! ### Numerals -/

/-- The text is digits of the base behind the mark, which write the number. -/
structure Digits (base : ℕ) (l : List Byte) (v : ℕ) : Prop where
  ne_nil : dropMark base l ≠ []
  all : ∀ d ∈ dropMark base l, isDigit base d = true
  eq : v = digitsVal base (dropMark base l)

theorem digits_iff {base : ℕ} (hbase : base ≠ 16) {l : List Byte} {v : ℕ} :
    Digits base l v ↔ l ≠ [] ∧ (∀ d ∈ l, isDigit base d = true) ∧ v = digitsVal base l := by
  have hmark := dropMark_of_ne hbase l
  constructor
  · rintro ⟨hne, hall, hv⟩
    rw [hmark] at hne hall hv
    exact ⟨hne, hall, hv⟩
  · rintro ⟨hne, hall, hv⟩
    refine ⟨?_, ?_, ?_⟩
    · rwa [hmark]
    · rwa [hmark]
    · rwa [hmark]

theorem not_isDigit_mark {c : Byte} (h : isDigit 8 c = true) : ¬ (c = 120 ∨ c = 88) := by
  rintro (rfl | rfl)
  · exact absurd h (by decide)
  · exact absurd h (by decide)

theorem Numeral.digits {l : List Byte} {v : ℕ} (h : Numeral l v) :
    Digits (detectBase l 0) l v := by
  cases h with
  | zero =>
      rw [detectBase_single, digits_iff (by decide)]
      exact ⟨by decide, by simp; decide, rfl⟩
  | decimal hne hds hhead =>
      obtain ⟨c, cs, rfl⟩ := List.exists_cons_of_ne_nil hne
      have hc : c ≠ 48 := fun h => hhead (congrArg some h)
      rw [detectBase_decimal hc, digits_iff (by decide)]
      exact ⟨hne, hds, rfl⟩
  | @octal ds hne hds =>
      obtain ⟨c, cs, rfl⟩ := List.exists_cons_of_ne_nil hne
      have hc := not_isDigit_mark (hds c List.mem_cons_self)
      rw [detectBase_octal hc, digits_iff (by decide)]
      refine ⟨List.cons_ne_nil _ _, ?_, (digitsVal_zero_cons 8 (c :: cs)).symm⟩
      intro d hd
      rcases List.mem_cons.1 hd with rfl | hd
      · decide
      · exact hds d hd
  | @hexadecimal x ds hx hne hds =>
      rw [detectBase_hexadecimal hx]
      have hmark := dropMark_mark hx ds
      refine ⟨?_, ?_, ?_⟩
      · rwa [hmark]
      · rwa [hmark]
      · rw [hmark]

theorem Digits.numeral {l : List Byte} {v : ℕ} (h : Digits (detectBase l 0) l v) :
    Numeral l v := by
  rcases l with _ | ⟨c, cs⟩
  · exact absurd rfl h.ne_nil
  by_cases hc : c = 48
  · rcases cs with _ | ⟨x, ds⟩
    · rw [detectBase_single, digits_iff (by decide), hc] at h
      rw [hc, h.2.2]
      exact Numeral.zero
    rw [hc] at h ⊢
    by_cases hx : x = 120 ∨ x = 88
    · rw [detectBase_hexadecimal hx] at h
      have hmark := dropMark_mark hx ds
      obtain ⟨hne, hall, hv⟩ := h
      rw [hmark] at hne hall hv
      rw [hv]
      exact Numeral.hexadecimal hx hne hall
    · rw [detectBase_octal hx, digits_iff (by decide)] at h
      obtain ⟨-, hall, hv⟩ := h
      rw [hv, digitsVal_zero_cons]
      exact Numeral.octal (List.cons_ne_nil x ds) fun d hd => hall d (List.mem_cons_of_mem _ hd)
  · rw [detectBase_decimal hc, digits_iff (by decide)] at h
    obtain ⟨hne, hall, hv⟩ := h
    rw [hv]
    exact Numeral.decimal hne hall fun hhead => hc (Option.some.inj hhead)

/-- A numeral begins with a digit. -/
theorem Numeral.signOf_eq {l : List Byte} {v : ℕ} (h : Numeral l v) : signOf l = (false, l) := by
  have hzero : ∀ ds, signOf (48 :: ds) = (false, 48 :: ds) := fun ds => rfl
  cases h with
  | zero => exact hzero []
  | decimal hne hds hhead =>
      obtain ⟨c, cs, rfl⟩ := List.exists_cons_of_ne_nil hne
      exact signOf_of_isDigit (isDigit_sixteen (hds c List.mem_cons_self)) cs
  | octal hne hds => exact hzero _
  | hexadecimal hx hne hds => exact hzero _

theorem literal_iff {l : List Byte} {n : ℤ} :
    Literal l n ↔ ∃ v, Numeral (signOf l).2 v ∧ n = signed (signOf l).1 v := by
  constructor
  · intro h
    cases h with
    | plain h => exact ⟨_, by rw [h.signOf_eq]; exact ⟨h, rfl⟩⟩
    | plus h => exact ⟨_, h, rfl⟩
    | minus h => exact ⟨_, h, rfl⟩
  · rintro ⟨v, h, rfl⟩
    unfold signOf at h ⊢
    split at h
    · exact Literal.plus h
    · exact Literal.minus h
    · exact Literal.plain h

/-! ### Parsing -/

/-- The parser takes the literals of the values of a type, with spaces around them, and undoes
`to_string`. -/
structure Parses (T : IntegerType) (parse : List Byte → Bool × ℤ) : Prop where
  accepts : ∀ s n, parse s = (true, n) ↔ Literal (strip s) n ∧ T.Has n
  rejects : ∀ s, (∀ n, Literal (strip s) n → ¬ T.Has n) → parse s = (false, 0)
  undoes : ∀ n, T.Has n → ∃ text, toString T n = some text ∧ parse text = (true, n)

theorem not_literal_nil (n : ℤ) : ¬ Literal [] n := by
  rw [literal_iff]
  rintro ⟨v, h, -⟩
  exact h.digits.ne_nil rfl

/-- The numeral behind the sign has digits of the base that is detected. -/
theorem literal_iff_digits {l : List Byte} {n : ℤ} :
    Literal l n ↔ ∃ v, Digits (detectBase (signOf l).2 0) (signOf l).2 v ∧
      n = signed (signOf l).1 v := by
  rw [literal_iff]
  constructor
  · rintro ⟨v, h, hn⟩
    exact ⟨v, h.digits, hn⟩
  · rintro ⟨v, h, hn⟩
    exact ⟨v, h.numeral, hn⟩

/-- What is extracted from a string that does not begin with a space. -/
theorem extractInteger_iff {T : IntegerType} {c : Byte} {cs : List Byte} {r : ℤ × InputStream}
    (hc : isSpace c = false)
    (hr : r = extractInteger T (c :: cs) (detectBase (c :: cs) (signNum (c :: cs)).natAbs))
    (n : ℤ) :
    (r.2.fail = false ∧ r.2.eof = true ∧ r.1 = n) ↔ Literal (c :: cs) n ∧ T.Has n := by
  rw [hr, extractInteger_detectBase, detectBase_drop, drop_signNum,
    extractSigned_whole_iff hc rfl, literal_iff_digits, IntegerType.Has]
  constructor
  · rintro ⟨hne, hall, hn, hrange⟩
    exact ⟨⟨_, ⟨hne, hall, rfl⟩, hn⟩, hrange⟩
  · rintro ⟨⟨v, ⟨hne, hall, hv⟩, hn⟩, hrange⟩
    rw [hv] at hn
    exact ⟨hne, hall, hn, hrange⟩

/-- A number is negative only behind a minus, and the last check never fails. -/
theorem Literal.signNum_eq {l : List Byte} {n : ℤ} (h : Literal l n) (hn : n < 0) :
    signNum l = -1 := by
  rw [signNum_eq_neg_one_iff]
  obtain ⟨v, -, rfl⟩ := literal_iff.1 h
  by_contra hsign
  rw [signed, if_neg hsign] at hn
  exact absurd hn (Int.not_lt.2 (Int.natCast_nonneg v))

theorem strToInteger_nil {s : List Byte} (hs : strip s = []) (T : IntegerType) (base : ℕ) :
    strToInteger T s base = (false, 0) := by
  rw [strToInteger, trim_eq, hs]
  rfl

theorem strToInteger_cons {T : IntegerType} {s cs : List Byte} {c : Byte} {r : ℤ × InputStream}
    (hs : strip s = c :: cs)
    (hr : r = extractInteger T (c :: cs) (detectBase (c :: cs) (signNum (c :: cs)).natAbs)) :
    strToInteger T s 0 =
      if !r.2.fail && r.2.eof then
        if r.1 < 0 && signNum (c :: cs) != -1 then (false, 0) else (true, r.1)
      else (false, 0) := by
  rw [strToInteger, trim_eq, hs, hr]
  rfl

theorem strToInteger_iff (T : IntegerType) (s : List Byte) (n : ℤ) :
    strToInteger T s 0 = (true, n) ↔ Literal (strip s) n ∧ T.Has n := by
  cases hs : strip s with
  | nil =>
      refine iff_of_false ?_ fun h => not_literal_nil n h.1
      rw [strToInteger_nil hs]
      intro h
      cases h
  | cons c cs =>
      generalize hr : extractInteger T (c :: cs)
        (detectBase (c :: cs) (signNum (c :: cs)).natAbs) = r
      have hiff := extractInteger_iff (isSpace_of_strip hs) hr.symm
      rw [← hiff n, strToInteger_cons hs hr.symm]
      constructor
      · intro h
        split_ifs at h with hwhole hsign
        · cases h
        · rw [Bool.and_eq_true, Bool.not_eq_true'] at hwhole
          exact ⟨hwhole.1, hwhole.2, (Prod.mk.inj h).2⟩
        · cases h
      · rintro ⟨hfail, heof, hn⟩
        have hsign : ¬ (r.1 < 0 && signNum (c :: cs) != -1) = true := by
          rw [Bool.and_eq_true, decide_eq_true_eq, bne_iff_ne]
          rintro ⟨hneg, hne⟩
          have hlit := ((hiff r.1).1 ⟨hfail, heof, rfl⟩).1
          exact hne (hlit.signNum_eq hneg)
        rw [hfail, heof, if_neg hsign, hn]
        rfl

theorem strToInteger_cases (T : IntegerType) (s : List Byte) :
    strToInteger T s 0 = (false, 0) ∨ ∃ n, strToInteger T s 0 = (true, n) := by
  cases hs : strip s with
  | nil => exact Or.inl (strToInteger_nil hs T 0)
  | cons c cs =>
      rw [strToInteger_cons hs rfl]
      split_ifs
      · exact Or.inl rfl
      · exact Or.inr ⟨_, rfl⟩
      · exact Or.inl rfl

/-- What `to_string` writes is a literal. -/
theorem literal_signedDecimal (n : ℤ) : Literal (signedDecimal n) n := by
  have hnumeral : Numeral (decimal n.natAbs) n.natAbs := by
    by_cases hzero : n.natAbs = 0
    · rw [hzero]
      exact Numeral.zero
    · have hdecimal := Numeral.decimal (decimal_ne_nil n.natAbs)
        (fun d hd => isDigit_of_mem_decimal hd) (head?_decimal (Nat.pos_of_ne_zero hzero))
      rwa [digitsVal_decimal] at hdecimal
  rw [signedDecimal]
  split_ifs with hn
  · have habs : -(n.natAbs : ℤ) = n := by omega
    have hlit := Literal.minus hnumeral
    rwa [habs] at hlit
  · have habs : (n.natAbs : ℤ) = n := by omega
    have hlit := Literal.plain hnumeral
    rwa [habs] at hlit

theorem strip_signedDecimal (n : ℤ) : strip (signedDecimal n) = signedDecimal n :=
  strip_of_forall fun _ hc => isSpace_of_mem_signedDecimal hc

/-- The values of the type fit in the array of `to_string`. -/
theorem parses_strToInteger {T : IntegerType} (hT : ∀ n, T.Has n → n.natAbs < 10 ^ 30) :
    Parses T fun s => strToInteger T s 0 where
  accepts := strToInteger_iff T
  rejects := by
    intro s hs
    rcases strToInteger_cases T s with h | ⟨n, h⟩
    · exact h
    · have hlit := (strToInteger_iff T s n).1 h
      exact absurd hlit.2 (hs n hlit.1)
  undoes := by
    intro n hn
    have hlen := length_signedDecimal (by decide) (hT n hn)
    refine ⟨signedDecimal n, if_pos (Nat.lt_succ_of_le hlen), ?_⟩
    rw [strToInteger_iff, strip_signedDecimal]
    exact ⟨literal_signedDecimal n, hn⟩

/-- `str_to_int` and `str_to_ll` take exactly the literals of the values of their types. -/
theorem parses_strToInt_strToLl :
    Parses .int (fun s => strToInt s 0) ∧ Parses .longLong (fun s => strToLl s 0) := by
  constructor
  · apply parses_strToInteger
    rintro n ⟨hlo, hhi⟩
    simp only [IntegerType.int] at hlo hhi
    omega
  · apply parses_strToInteger
    rintro n ⟨hlo, hhi⟩
    simp only [IntegerType.longLong] at hlo hhi
    omega

end Pgr

end Miscellany
