import Mathlib.Data.List.Basic
import Miscellany.Str.Basic

/-!
# Formatting a log message

The two overloads of `BaseLogger::format`. The first one takes no arguments and accepts only
formats without placeholders; the second one copies the format up to the first placeholder,
renders its first argument there and formats the rest with the other arguments. A pair of
iterators is the list of the characters between them, and `lexical_cast` is any function that
renders an argument.

Read from left to right, a format is a sequence of literal characters and placeholders
(`pieces`). Formatting fills the placeholders in order, and fails when their number is not
that of the arguments.
-/

namespace Miscellany

namespace BaseLogger

/-- The exceptions that are thrown, with their messages. -/
inductive FormatError where
  | runtimeError (what : String)
  | logicError (what : String)
deriving DecidableEq

def missingArguments : FormatError := .runtimeError "invalid format string: missing arguments"

def extraArguments : FormatError := .logicError "extra arguments provided"

def percent : Byte := 37

/-! ### The overloads -/

/-- The loop of the overload without arguments, with the string so far. -/
def plainLoop : List Byte → List Byte → Except FormatError (List Byte)
  | [], str => .ok str
  | [c], str => if c = percent then .error missingArguments else plainLoop [] (str ++ [c])
  | c :: c' :: rest, str =>
      if c = percent then
        if c' = percent then plainLoop rest (str ++ [c']) else .error missingArguments
      else plainLoop (c' :: rest) (str ++ [c])

/-- The loop of the overload with arguments, of which the first one is rendered as `val`; `format`
is the call for the rest of the format and the other arguments. -/
def argLoop (val : List Byte) (format : List Byte → Except FormatError (List Byte)) :
    List Byte → List Byte → Except FormatError (List Byte)
  | [], _ => .error extraArguments
  | [c], str =>
      if c = percent then do
        let tail ← format []
        pure (str ++ val ++ tail)
      else argLoop val format [] (str ++ [c])
  | c :: c' :: rest, str =>
      if c = percent then
        if c' = percent then argLoop val format rest (str ++ [c'])
        else do
          let tail ← format (c' :: rest)
          pure (str ++ val ++ tail)
      else argLoop val format (c' :: rest) (str ++ [c])

variable {α : Type*} (lexicalCast : α → List Byte)

/-- `format`, for the arguments of any types that are in the list. -/
def format : List α → List Byte → Except FormatError (List Byte)
  | [], fmt => plainLoop fmt []
  | val :: args, fmt => argLoop (lexicalCast val) (format args) fmt []

/-! ### What a format says -/

inductive Piece where
  | literal (c : Byte)
  | placeholder
deriving DecidableEq

/-- A format, read from left to right. -/
def pieces : List Byte → List Piece
  | [] => []
  | [c] => if c = percent then [.placeholder] else [.literal c]
  | c :: c' :: rest =>
      if c = percent then
        if c' = percent then .literal percent :: pieces rest
        else .placeholder :: pieces (c' :: rest)
      else .literal c :: pieces (c' :: rest)

/-- The number of placeholders. -/
def placeholders (fmt : List Byte) : ℕ := (pieces fmt).count .placeholder

/-- The text with the placeholders replaced, in order, by the given texts. -/
def fill : List Piece → List (List Byte) → List Byte
  | [], _ => []
  | .literal c :: ps, texts => c :: fill ps texts
  | .placeholder :: ps, [] => fill ps []
  | .placeholder :: ps, text :: texts => text ++ fill ps texts

/-- Every percent sign is doubled. -/
def doublePercent (text : List Byte) : List Byte :=
  text.flatMap fun c => if c = percent then [percent, percent] else [c]

/-- The result of formatting pieces with the given texts. -/
def outcome (ps : List Piece) (texts : List (List Byte)) : Except FormatError (List Byte) :=
  if ps.count .placeholder = texts.length then .ok (fill ps texts)
  else if texts.length < ps.count .placeholder then .error missingArguments
  else .error extraArguments

@[simp]
theorem outcome_nil_nil : outcome [] [] = .ok [] := rfl

@[simp]
theorem outcome_nil_cons (text : List Byte) (texts : List (List Byte)) :
    outcome [] (text :: texts) = .error extraArguments := rfl

@[simp]
theorem outcome_literal (c : Byte) (ps : List Piece) (texts : List (List Byte)) :
    outcome (.literal c :: ps) texts = (outcome ps texts).map (c :: ·) := by
  unfold outcome
  rw [List.count_cons_of_ne (by simp)]
  split_ifs <;> rfl

@[simp]
theorem outcome_placeholder_nil (ps : List Piece) :
    outcome (.placeholder :: ps) [] = .error missingArguments := by
  simp [outcome]

@[simp]
theorem outcome_placeholder_cons (ps : List Piece) (text : List Byte)
    (texts : List (List Byte)) :
    outcome (.placeholder :: ps) (text :: texts) = (outcome ps texts).map (text ++ ·) := by
  unfold outcome
  rw [List.count_cons_self, List.length_cons]
  simp only [Nat.add_right_cancel_iff, Nat.add_lt_add_iff_right]
  split_ifs <;> rfl

/-! ### The loops -/

theorem bind_pure_append (r : Except FormatError (List Byte)) (s t : List Byte) :
    (do let tail ← r; pure (s ++ t ++ tail)) = (r.map (t ++ ·)).map (s ++ ·) := by
  cases r with
  | error e => rfl
  | ok tail => simp [Except.map, bind, Except.bind, pure, Except.pure]

theorem map_nil_append (r : Except FormatError (List Byte)) : r.map ([] ++ ·) = r := by
  cases r <;> rfl

theorem map_append_map_cons (r : Except FormatError (List Byte)) (s : List Byte) (c : Byte) :
    (r.map (c :: ·)).map (s ++ ·) = r.map (s ++ [c] ++ ·) := by
  cases r <;> simp [Except.map]

theorem plainLoop_eq (fmt str : List Byte) :
    plainLoop fmt str = (outcome (pieces fmt) []).map (str ++ ·) := by
  fun_induction plainLoop fmt str with
  | case1 str => simp [pieces, Except.map]
  | case2 str => simp [pieces, Except.map]
  | case3 str c hc ih => simpa [pieces, hc, Except.map] using ih
  | case4 str rest ih => simp [pieces, map_append_map_cons, ih]
  | case5 str c' rest hc' => simp [pieces, hc', Except.map]
  | case6 str c c' rest hc ih => simp [pieces, hc, map_append_map_cons, ih]

theorem argLoop_eq (val : List Byte) {format : List Byte → Except FormatError (List Byte)}
    {texts : List (List Byte)} (hformat : ∀ fmt, format fmt = outcome (pieces fmt) texts)
    (fmt str : List Byte) :
    argLoop val format fmt str = (outcome (pieces fmt) (val :: texts)).map (str ++ ·) := by
  fun_induction argLoop val format fmt str with
  | case1 str => simp [pieces, Except.map]
  | case2 str =>
    rw [bind_pure_append, hformat]
    simp [pieces]
  | case3 str c hc ih => simpa [pieces, hc, Except.map] using ih
  | case4 str rest ih => simp [pieces, map_append_map_cons, ih]
  | case5 str c' rest hc' =>
    rw [bind_pure_append, hformat]
    simp [pieces, hc']
  | case6 str c c' rest hc ih => simp [pieces, hc, map_append_map_cons, ih]

/-- Both overloads format the pieces of the format with the rendered arguments. -/
theorem format_eq (args : List α) (fmt : List Byte) :
    format lexicalCast args fmt = outcome (pieces fmt) (args.map lexicalCast) := by
  induction args generalizing fmt with
  | nil => rw [format, plainLoop_eq, List.map_nil, map_nil_append]
  | cons val args ih => rw [format, argLoop_eq _ ih, List.map_cons, map_nil_append]

/-! ### Doubled percent signs -/

theorem pieces_percent_percent (rest : List Byte) :
    pieces (percent :: percent :: rest) = .literal percent :: pieces rest := by
  simp [pieces]

theorem pieces_cons_of_ne {c : Byte} (hc : c ≠ percent) (rest : List Byte) :
    pieces (c :: rest) = .literal c :: pieces rest := by
  cases rest <;> simp [pieces, hc]

theorem pieces_doublePercent (text : List Byte) :
    pieces (doublePercent text) = text.map .literal := by
  induction text with
  | nil => rfl
  | cons c text ih =>
    by_cases hc : c = percent
    · subst hc
      have hcons : doublePercent (percent :: text)
          = percent :: percent :: doublePercent text := by simp [doublePercent]
      rw [hcons, pieces_percent_percent, ih, List.map_cons]
    · have hcons : doublePercent (c :: text) = c :: doublePercent text := by
        simp [doublePercent, hc]
      rw [hcons, pieces_cons_of_ne hc, ih, List.map_cons]

theorem outcome_map_literal (text : List Byte) :
    outcome (text.map .literal) [] = .ok text := by
  induction text with
  | nil => rfl
  | cons c text ih => rw [List.map_cons, outcome_literal, ih, Except.map]

/-! ### What is accepted -/

theorem outcome_cases (ps : List Piece) (texts : List (List Byte)) :
    (ps.count .placeholder = texts.length ∧ outcome ps texts = .ok (fill ps texts)) ∨
      (texts.length < ps.count .placeholder ∧ outcome ps texts = .error missingArguments) ∨
      (ps.count .placeholder < texts.length ∧ outcome ps texts = .error extraArguments) := by
  unfold outcome
  split_ifs with heq hlt
  · exact .inl ⟨heq, rfl⟩
  · exact .inr (.inl ⟨hlt, rfl⟩)
  · exact .inr (.inr ⟨by omega, rfl⟩)

theorem missingArguments_ne_extraArguments : missingArguments ≠ extraArguments := by
  decide

/-- A format is accepted exactly when it has as many placeholders as there are arguments, and
the result is then its text with the placeholders filled in order. One placeholder too many is
reported as missing arguments, one too few as extra arguments, and without arguments a text
with every percent sign doubled is given back. -/
theorem format_accepts_iff (args : List α) (fmt text : List Byte) :
    ((∃ str, format lexicalCast args fmt = .ok str) ↔ placeholders fmt = args.length) ∧
      (∀ str, format lexicalCast args fmt = .ok str →
        str = fill (pieces fmt) (args.map lexicalCast)) ∧
      (format lexicalCast args fmt = .error missingArguments ↔
        args.length < placeholders fmt) ∧
      (format lexicalCast args fmt = .error extraArguments ↔
        placeholders fmt < args.length) ∧
      format lexicalCast [] (doublePercent text) = .ok text := by
  have hne := missingArguments_ne_extraArguments
  have hdouble : format lexicalCast [] (doublePercent text) = .ok text := by
    rw [format_eq, pieces_doublePercent, List.map_nil, outcome_map_literal]
  rw [format_eq, placeholders]
  have hcases := outcome_cases (pieces fmt) (args.map lexicalCast)
  rw [List.length_map] at hcases
  rcases hcases with ⟨hcount, hout⟩ | ⟨hcount, hout⟩ | ⟨hcount, hout⟩
  · simp [hout, hcount, hdouble]
  · have heq : (pieces fmt).count .placeholder ≠ args.length := by omega
    have hgt : ¬ (pieces fmt).count .placeholder < args.length := by omega
    simp [hout, hcount, heq, hgt, hne, hdouble]
  · have heq : (pieces fmt).count .placeholder ≠ args.length := by omega
    have hlt : ¬ args.length < (pieces fmt).count .placeholder := by omega
    simp [hout, hcount, heq, hlt, hne.symm, hdouble]

end BaseLogger

end Miscellany
