import Miscellany.Preprocess.Lexer

/-!
# What the scanner reads

`Pieces input ps` says that `ps` are the pieces that the rules of the scanner cut from the input,
one after the other, whatever the scanner does with them. Every input has pieces (`exists_pieces`),
and `main` prints the tokens among them with the lines that they are on (`main_eq`).

No rule has a newline but the one for whitespace, so the text before a newline and the text behind
it are scanned on their own, unless a comment is open (`pieces_append_newline`).
-/

namespace Miscellany

namespace C99

open Regex

open InputStream (lf)

/-- What one turn of the scanner takes from the input: the text that a rule matches, and for a
comment the bytes that `comment` reads then. -/
structure Piece where
  action : Action
  yytext : List Byte
  more : List Byte

def Piece.text (p : Piece) : List Byte := p.yytext ++ p.more

/-- The byte `c` behind `prev` is the last that `comment` reads. -/
def Ends (prev c : Byte) : Prop := c = 0 ∨ c = char '/' ∧ prev = char '*'

instance (prev c : Byte) : Decidable (Ends prev c) := inferInstanceAs (Decidable (_ ∨ _))

/-- The number of bytes that `comment` reads. -/
def commentLength : Byte → List Byte → ℕ
  | _, [] => 0
  | prev, c :: rest => if Ends prev c then 1 else commentLength c rest + 1

/-- `comment` returns before the end of the bytes. -/
def closes : Byte → List Byte → Bool
  | _, [] => false
  | prev, c :: rest => Ends prev c || closes c rest

/-- The number of bytes that an action reads. -/
def reads : Action → List Byte → ℕ
  | .comment, rest => commentLength 0 rest
  | .skip, _ => 0
  | .add, _ => 0

/-- A scanner takes the piece from the input: no rule has a longer match, and no earlier rule has
this one. -/
structure Next (input : List Byte) (p : Piece) (rest : List Byte) : Prop where
  eq : input = p.yytext ++ (p.more ++ rest)
  rule : ∃ i e, Longest regexes input p.yytext.length i ∧ rules[i]? = some (e, p.action)
  more : p.more.length = reads p.action (p.more ++ rest)

inductive Pieces : List Byte → List Piece → Prop where
  | nil : Pieces [] []
  | cons {input rest : List Byte} {p : Piece} {ps : List Piece} (h : Next input p rest)
      (hrest : Pieces rest ps) : Pieces input (p :: ps)

/-- The tokens among the pieces; the first piece is on the line `line`. -/
def tokensOf : ℕ → List Piece → List Token
  | _, [] => []
  | line, p :: ps =>
      (if p.action = .add then [newToken p.yytext line] else []) ++
        tokensOf (line + p.text.count lf) ps

/-! ### The rules -/

variable {input rest a b body : List Byte} {p : Piece} {ps qs : List Piece} {i n : ℕ}

theorem matches_regexes {w : List Byte} :
    Matches regexes i w ↔ ∃ rule, rules[i]? = some rule ∧ w ∈ rule.1.lang := by
  simp only [Matches, regexes, List.getElem?_map, Option.map_eq_some_iff]
  constructor
  · rintro ⟨-, ⟨rule, hrule, rfl⟩, hw⟩
    exact ⟨rule, hrule, hw⟩
  · rintro ⟨rule, hrule, hw⟩
    exact ⟨rule.1, ⟨rule, hrule, rfl⟩, hw⟩

/-- No rule matches without a byte. -/
theorem length_pos_of_matches {w : List Byte} (h : Matches regexes i w) : 0 < w.length := by
  obtain ⟨rule, hrule, hw⟩ := matches_regexes.1 h
  have hall : ∀ r ∈ rules, r.1.nullable = false := by decide
  refine List.length_pos_of_ne_nil ?_
  rintro rfl
  rw [nil_mem_lang, hall rule (List.mem_of_getElem? hrule)] at hw
  cases hw

theorem avoids_of_add_or_comment :
    ∀ rule ∈ comments ++ tokenRules.map (·, Action.add), rule.1.avoids lf = true := by decide

/-- Only the rule for whitespace has a newline. -/
theorem eq_newline_of_matches {w : List Byte} (h : Matches regexes i w) (hlf : lf ∈ w) :
    w = [lf] := by
  obtain ⟨rule, hrule, hw⟩ := matches_regexes.1 h
  have hmem := List.mem_of_getElem? hrule
  rw [rules, List.mem_append] at hmem
  rcases hmem with hmem | hmem
  · exact absurd hlf (notMem_of_avoids (avoids_of_add_or_comment rule hmem) hw)
  · simp only [List.mem_cons, List.not_mem_nil, or_false] at hmem
    rcases hmem with rfl | rfl
    · obtain ⟨c, -, rfl⟩ := hw
      rw [List.mem_singleton.1 hlf]
    · have hdot : dot.avoids lf = true := by decide
      exact absurd hlf (notMem_of_avoids hdot hw)

/-- The rule for whitespace takes a newline. -/
theorem longest_newline (b : List Byte) : Longest regexes (lf :: b) 1 97 := by
  have hhit : Matches regexes 97 [lf] := by
    refine matches_regexes.2 ⟨(whitespace, .skip), rfl, singleton_mem_symbols.2 ?_⟩
    decide
  refine ⟨Nat.succ_le_succ (Nat.zero_le _), hhit, fun j hj h => ?_, fun m j hlt hm h => ?_⟩
  · obtain ⟨rule, hrule, hw⟩ := matches_regexes.1 h
    have hlen : (comments ++ tokenRules.map (·, Action.add)).length = 97 := by decide
    have hmem : rule ∈ comments ++ tokenRules.map (·, Action.add) := by
      rw [rules, List.getElem?_append_left (hj.trans_le hlen.ge)] at hrule
      exact List.mem_of_getElem? hrule
    exact notMem_of_avoids (avoids_of_add_or_comment rule hmem) hw List.mem_cons_self
  · have hlen := List.length_take_of_le hm
    obtain ⟨k, rfl⟩ := Nat.exists_eq_succ_of_ne_zero (Nat.ne_zero_of_lt hlt)
    rw [eq_newline_of_matches h (by simp), List.length_singleton] at hlen
    omega

/-- Some rule matches at every byte. -/
theorem exists_longest_cons (c : Byte) (rest : List Byte) :
    ∃ n i, Longest regexes (c :: rest) n i := by
  by_cases hc : c = lf
  · exact ⟨1, 97, hc ▸ longest_newline rest⟩
  · have hdot : Matches regexes 98 ((c :: rest).take 1) := by
      refine matches_regexes.2 ⟨(dot, .skip), rfl, singleton_mem_symbols.2 ?_⟩
      have hchars : chars "\n" = [lf] := by decide
      simp [hchars, hc]
    obtain ⟨n, i, h, -⟩ := exists_longest (Nat.succ_le_succ (Nat.zero_le _)) hdot
    exact ⟨n, i, h⟩

/-! ### The end of a comment -/

theorem commentLength_le (prev : Byte) (w : List Byte) : commentLength prev w ≤ w.length := by
  induction w generalizing prev with
  | nil => exact le_rfl
  | cons c w ih =>
      rw [commentLength]
      split_ifs
      · exact Nat.succ_le_succ (Nat.zero_le _)
      · exact Nat.succ_le_succ (ih c)

/-- What is behind the end of a comment is not read. -/
theorem commentLength_append {prev : Byte} {w : List Byte} (h : closes prev w = true)
    (v : List Byte) : commentLength prev (w ++ v) = commentLength prev w := by
  induction w generalizing prev with
  | nil => cases h
  | cons c w ih =>
      rw [List.cons_append, commentLength, commentLength]
      split_ifs with hend
      · rfl
      · rw [closes, decide_eq_false hend, Bool.false_or] at h
        rw [ih h]

/-- A comment that nothing closes goes on behind the bytes. -/
theorem commentLength_append_of_not_closes {prev : Byte} {w : List Byte}
    (h : closes prev w = false) (v : List Byte) :
    commentLength prev (w ++ v) = w.length + commentLength (w.getLastD prev) v := by
  induction w generalizing prev with
  | nil => exact (Nat.zero_add _).symm
  | cons c w ih =>
      rw [closes, Bool.or_eq_false_iff, decide_eq_false_iff_not] at h
      rw [List.cons_append, commentLength, if_neg h.1, ih h.2, List.length_cons,
        List.getLastD_cons, Nat.add_right_comm]

theorem closes_append_of_closes {prev : Byte} {w : List Byte} (v : List Byte)
    (h : closes prev w = true) : closes prev (w ++ v) = true := by
  induction w generalizing prev with
  | nil => cases h
  | cons c w ih =>
      rw [closes, Bool.or_eq_true] at h
      rw [List.cons_append, closes, Bool.or_eq_true]
      exact h.imp id ih

/-- A comment without a zero is closed by the first `*/`. -/
theorem closes_iff {prev : Byte} {w : List Byte} (hw : 0 ∉ w) :
    closes prev w = true ↔ [char '*', char '/'] <:+: prev :: w := by
  induction w generalizing prev with
  | nil =>
      refine iff_of_false nofun fun h => ?_
      have hlen := h.length_le
      simp at hlen
  | cons c w ih =>
      rw [List.mem_cons, not_or] at hw
      have hinfix : [char '*', char '/'] <:+: prev :: c :: w ↔
          [char '*', char '/'] <+: prev :: c :: w ∨ [char '*', char '/'] <:+: c :: w :=
        List.infix_cons_iff
      rw [closes, Bool.or_eq_true, decide_eq_true_eq, ih hw.2, hinfix, Ends,
        List.cons_prefix_cons, List.cons_prefix_cons]
      refine or_congr_left ⟨fun h => ?_, fun h => ?_⟩
      · obtain ⟨hc, hprev⟩ := h.resolve_left (Ne.symm hw.1)
        exact ⟨hprev.symm, hc.symm, List.nil_prefix⟩
      · exact .inr ⟨h.2.1.symm, h.1.symm⟩

/-! ### Every input has pieces -/

theorem reads_le (a : Action) (w : List Byte) : reads a w ≤ w.length := by
  cases a with
  | comment => exact commentLength_le 0 w
  | skip => exact Nat.zero_le _
  | add => exact Nat.zero_le _

theorem exists_next {input : List Byte} (h : input ≠ []) : ∃ p rest, Next input p rest := by
  obtain ⟨c, cs, rfl⟩ := List.exists_cons_of_ne_nil h
  obtain ⟨n, i, hlongest⟩ := exists_longest_cons c cs
  obtain ⟨⟨e, a⟩, hrule, -⟩ := matches_regexes.1 hlongest.hit
  have hlen : ((c :: cs).take n).length = n := List.length_take_of_le hlongest.le
  refine ⟨⟨a, (c :: cs).take n, ((c :: cs).drop n).take (reads a ((c :: cs).drop n))⟩,
    ((c :: cs).drop n).drop (reads a ((c :: cs).drop n)), ?_, ⟨i, e, ?_, hrule⟩, ?_⟩
  · rw [List.take_append_drop, List.take_append_drop]
  · rw [hlen]
    exact hlongest
  · rw [List.take_append_drop]
    exact List.length_take_of_le (reads_le a _)

theorem Next.longest_take {rest : List Byte} (h : Next input p rest) :
    ∃ i e, Matches regexes i p.yytext ∧ Longest regexes input p.yytext.length i ∧
      rules[i]? = some (e, p.action) := by
  obtain ⟨i, e, hlongest, hrule⟩ := h.rule
  have hhit := hlongest.hit
  rw [h.eq, List.take_left] at hhit
  exact ⟨i, e, hhit, hlongest, hrule⟩

theorem Next.yytext_pos (h : Next input p rest) : 0 < p.yytext.length := by
  obtain ⟨i, e, hhit, -⟩ := h.longest_take
  exact length_pos_of_matches hhit

theorem Next.length_lt (h : Next input p rest) : rest.length < input.length := by
  have hpos := h.yytext_pos
  rw [h.eq, List.length_append, List.length_append]
  omega

theorem Next.ne_nil (h : Next input p rest) : input ≠ [] := by
  rintro rfl
  exact absurd h.length_lt (Nat.not_lt_zero _)

theorem exists_pieces (input : List Byte) : ∃ ps, Pieces input ps := by
  induction hn : input.length using Nat.strong_induction_on generalizing input with
  | _ n ih =>
      by_cases hinput : input = []
      · exact ⟨[], hinput ▸ .nil⟩
      · obtain ⟨p, rest, h⟩ := exists_next hinput
        obtain ⟨ps, hps⟩ := ih rest.length (hn ▸ h.length_lt) rest rfl
        exact ⟨p :: ps, .cons h hps⟩

theorem Pieces.flatMap_text (h : Pieces input ps) : ps.flatMap Piece.text = input := by
  induction h with
  | nil => rfl
  | cons h hrest ih =>
      rw [List.flatMap_cons, ih, h.eq, Piece.text, List.append_assoc]

theorem Pieces.length_le (h : Pieces input ps) : ps.length ≤ input.length := by
  induction h with
  | nil => exact le_rfl
  | cons h hrest ih => exact (Nat.succ_le_succ ih).trans h.length_lt

theorem Pieces.exists_next_of_mem (h : Pieces input ps) (hp : p ∈ ps) :
    ∃ input rest, Next input p rest := by
  induction h with
  | nil => cases hp
  | cons h hrest ih =>
      rcases List.mem_cons.1 hp with rfl | hp
      · exact ⟨_, _, h⟩
      · exact ih hp

/-- A token has no newline. -/
theorem Next.newline_notMem (h : Next input p rest) (hp : p.action = .add) : lf ∉ p.yytext := by
  obtain ⟨i, e, hhit, -, hrule⟩ := h.longest_take
  intro hmem
  have heq := eq_newline_of_matches hhit hmem
  obtain ⟨rule, hrule', hw⟩ := matches_regexes.1 hhit
  rw [hrule] at hrule'
  cases hrule'
  have hall : ∀ rule ∈ rules, rule.2 = .add → rule.1.avoids lf = true := by decide
  exact notMem_of_avoids (hall _ (List.mem_of_getElem? hrule) hp) hw hmem

/-! ### The scanner takes the pieces -/

theorem commentLoop_eq (s : Scanner) (prev : Byte) {fuel : ℕ} (hfuel : s.rest.length ≤ fuel) :
    Scanner.commentLoop fuel prev s =
      { s with
        rest := s.rest.drop (commentLength prev s.rest)
        yylineno := s.yylineno + (s.rest.take (commentLength prev s.rest)).count lf } := by
  obtain ⟨w, line, l⟩ := s
  induction fuel generalizing w line prev with
  | zero =>
      obtain rfl : w = [] := List.eq_nil_of_length_eq_zero (Nat.le_zero.1 hfuel)
      rfl
  | succ fuel ih =>
      cases w with
      | nil => rfl
      | cons c w =>
          have hcount : ∀ k, ((c :: w).take (k + 1)).count lf =
              (if c = lf then 1 else 0) + (w.take k).count lf := by
            intro k
            rw [List.take_succ_cons, List.count_cons, Nat.add_comm]
            simp
          rw [Scanner.commentLoop, Scanner.input, commentLength]
          by_cases hend : Ends prev c
          · rw [if_pos hend, hcount]
            rcases hend with hc | hc
            · simp [hc]
            · simp [hc]
          · have hc : ¬ c = 0 := fun h => hend (.inl h)
            have hc' : ¬ (c = char '/' ∧ prev = char '*') := fun h => hend (.inr h)
            rw [if_neg hend, hcount]
            simp only [if_neg hc, if_neg hc', List.drop_succ_cons]
            rw [ih c w _ (Nat.le_of_succ_le_succ hfuel), Nat.add_assoc]

theorem comment_eq (s : Scanner) :
    s.comment =
      { s with
        rest := s.rest.drop (commentLength 0 s.rest)
        yylineno := s.yylineno + (s.rest.take (commentLength 0 s.rest)).count lf } :=
  commentLoop_eq s 0 le_rfl

/-- One turn of the scanner takes one piece. -/
theorem turn_eq (h : Next input p rest) (line : ℕ) (ts : List Token) :
    Scanner.turn ⟨input, line, .ofList ts⟩ =
      some ⟨rest, line + p.text.count lf,
        .ofList (ts ++ if p.action = .add then [newToken p.yytext line] else [])⟩ := by
  obtain ⟨i, e, hlongest, hrule⟩ := h.rule
  have htake : input.take p.yytext.length = p.yytext := by rw [h.eq, List.take_left]
  have hdrop : input.drop p.yytext.length = p.more ++ rest := by rw [h.eq, List.drop_left]
  have hmore := h.more
  have hadd := h.newline_notMem
  rw [Scanner.turn]
  simp only [longest_eq_some_iff.2 hlongest, Option.bind_some, hrule, htake, hdrop]
  obtain ⟨a, yytext, more⟩ := p
  cases a with
  | comment =>
      have htext : (more ++ rest).take (commentLength 0 (more ++ rest)) = more :=
        List.take_left' hmore
      have hrest : (more ++ rest).drop (commentLength 0 (more ++ rest)) = rest :=
        List.drop_left' hmore
      simp [Scanner.act, comment_eq, htext, hrest, Piece.text, Nat.add_assoc]
  | skip =>
      obtain rfl : more = [] := List.eq_nil_of_length_eq_zero hmore
      simp [Scanner.act, Piece.text]
  | add =>
      obtain rfl : more = [] := List.eq_nil_of_length_eq_zero hmore
      have hcount : yytext.count lf = 0 := List.count_eq_zero.2 (hadd rfl)
      simp [Scanner.act, Piece.text, hcount, Slist.add_ofList]

theorem yylex_eq (h : Pieces input ps) {fuel : ℕ} (hfuel : ps.length ≤ fuel) (line : ℕ)
    (ts : List Token) :
    Scanner.yylex fuel ⟨input, line, .ofList ts⟩ =
      some ⟨[], line + input.count lf, .ofList (ts ++ tokensOf line ps)⟩ := by
  induction h generalizing fuel line ts with
  | nil => cases fuel <;> simp [Scanner.yylex, tokensOf]
  | @cons input rest p ps h hrest ih =>
      obtain ⟨fuel, rfl⟩ := Nat.exists_eq_succ_of_ne_zero (Nat.ne_zero_of_lt hfuel)
      have hcount : input.count lf = p.text.count lf + rest.count lf := by
        rw [h.eq, Piece.text, List.count_append, List.count_append, List.count_append,
          Nat.add_assoc]
      rw [Scanner.yylex, if_neg h.ne_nil, turn_eq h, Option.bind_some,
        ih (Nat.le_of_succ_le_succ hfuel), tokensOf, hcount, List.append_assoc, Nat.add_assoc]

/-- `main` prints the tokens among the pieces. -/
theorem main_eq (h : Pieces input ps) :
    main input = some (tokensOf 1 ps, (tokensOf 1 ps).length) := by
  have hlex := yylex_eq h h.length_le 1 []
  rw [List.nil_append] at hlex
  rw [main, Scanner.start, ← Slist.ofList_nil, hlex, Option.bind_some, Slist.print_ofList]
  rfl

theorem tokensOf_append (line : ℕ) (ps qs : List Piece) :
    tokensOf line (ps ++ qs) =
      tokensOf line ps ++ tokensOf (line + (ps.flatMap Piece.text).count lf) qs := by
  induction ps generalizing line with
  | nil => simp [tokensOf]
  | cons p ps ih =>
      rw [List.cons_append, tokensOf, ih, tokensOf, List.flatMap_cons, List.count_append,
        List.append_assoc, Nat.add_assoc]

theorem length_tokensOf (line : ℕ) (ps : List Piece) :
    (tokensOf line ps).length = ps.countP (fun p => p.action = .add) := by
  induction ps generalizing line with
  | nil => rfl
  | cons p ps ih =>
      rw [tokensOf, List.length_append, ih, List.countP_cons, Nat.add_comm]
      by_cases hp : p.action = .add <;> simp [hp]

/-- Each token is one of the pieces, with the number of the line on which it is. -/
theorem exists_of_getElem?_tokensOf {line k : ℕ} {t : Token} (h : (tokensOf line ps)[k]? = some t) :
    ∃ us p vs, ps = us ++ p :: vs ∧ p.action = .add ∧
      us.countP (fun p => p.action = .add) = k ∧
      t = newToken p.yytext (line + (us.flatMap Piece.text).count lf) := by
  induction ps generalizing line k with
  | nil => cases h
  | cons p ps ih =>
      rw [tokensOf] at h
      by_cases hp : p.action = .add
      · rw [if_pos hp, List.singleton_append] at h
        cases k with
        | zero =>
            rw [List.getElem?_cons_zero, Option.some.injEq] at h
            exact ⟨[], p, ps, rfl, hp, rfl, by simp [h]⟩
        | succ k =>
            obtain ⟨us, q, vs, rfl, hq, hk, ht⟩ := ih h
            refine ⟨p :: us, q, vs, rfl, hq, by simp [hp, hk], ?_⟩
            rw [ht, List.flatMap_cons, List.count_append, Nat.add_assoc]
      · rw [if_neg hp, List.nil_append] at h
        obtain ⟨us, q, vs, rfl, hq, hk, ht⟩ := ih h
        refine ⟨p :: us, q, vs, rfl, hq, by simp [hp, hk], ?_⟩
        rw [ht, List.flatMap_cons, List.count_append, Nat.add_assoc]

/-- The scanner never jams. It cuts the whole input into pieces that are not empty, each with the
longest match of a rule, and prints the text and the line of each piece that is a token, in their
order. -/
theorem main_lossless (input : List Byte) :
    ∃ ps ts, Pieces input ps ∧ main input = some (ts, ts.length) ∧
      ps.flatMap Piece.text = input ∧ (∀ p ∈ ps, p.yytext ≠ []) ∧
      ts.length = ps.countP (fun p => p.action = .add) ∧
      ∀ k t, ts[k]? = some t → ∃ us p vs, ps = us ++ p :: vs ∧ p.action = .add ∧
        us.countP (fun p => p.action = .add) = k ∧ lf ∉ p.yytext ∧
        t.word = p.yytext.takeWhile (· != 0) ∧
        t.lineno = 1 + (us.flatMap Piece.text).count lf := by
  obtain ⟨ps, h⟩ := exists_pieces input
  refine ⟨ps, tokensOf 1 ps, h, main_eq h, h.flatMap_text, fun p hp => ?_, ?_, fun k t ht => ?_⟩
  · obtain ⟨input', rest, hnext⟩ := h.exists_next_of_mem hp
    exact List.ne_nil_of_length_pos hnext.yytext_pos
  · exact length_tokensOf 1 ps
  · obtain ⟨us, p, vs, rfl, hp, hk, rfl⟩ := exists_of_getElem?_tokensOf ht
    obtain ⟨input', rest, hnext⟩ := h.exists_next_of_mem (p := p) (by simp)
    exact ⟨us, p, vs, rfl, hp, hk, hnext.newline_notMem hp, rfl, rfl⟩

/-! ### One line after the other -/

/-- The piece does not end in an open comment. -/
def Piece.Closed (p : Piece) : Prop := p.action = .comment → closes 0 p.more = true

/-- No comment is open at the end of the text. -/
def CommentsClosed (a : List Byte) : Prop := ∃ ps, Pieces a ps ∧ ∀ p ∈ ps, p.Closed

/-- A piece is taken from the text before a newline as if the text ended there. -/
theorem Next.append_newline (h : Next a p rest) (hp : p.Closed) (b : List Byte) :
    Next (a ++ lf :: b) p (rest ++ lf :: b) := by
  obtain ⟨i, e, hlongest, hrule⟩ := h.rule
  refine ⟨?_, ⟨i, e, (longest_append_cons (fun j u => eq_newline_of_matches) h.ne_nil b).2 hlongest,
    hrule⟩, ?_⟩
  · rw [h.eq, List.append_assoc, List.append_assoc]
  · rw [h.more, ← List.append_assoc]
    cases hact : p.action with
    | comment =>
        have hclosed := closes_append_of_closes rest (hp hact)
        exact (commentLength_append hclosed _).symm
    | skip => rfl
    | add => rfl

theorem next_newline (b : List Byte) : Next (lf :: b) ⟨.skip, [lf], []⟩ b :=
  ⟨rfl, ⟨97, whitespace, longest_newline b, rfl⟩, rfl⟩

theorem pieces_append_newline (h : Pieces a ps) (hclosed : ∀ p ∈ ps, p.Closed)
    (hb : Pieces b qs) : Pieces (a ++ lf :: b) (ps ++ ⟨.skip, [lf], []⟩ :: qs) := by
  induction h with
  | nil => exact .cons (next_newline b) hb
  | cons h hrest ih =>
      obtain ⟨hp, hps⟩ := List.forall_mem_cons.1 hclosed
      exact .cons (h.append_newline hp b) (ih hps)

/-- The token on a line that is `n` lines further down. -/
def Token.down (n : ℕ) (t : Token) : Token := { t with lineno := t.lineno + n }

theorem tokensOf_add (line n : ℕ) (ps : List Piece) :
    tokensOf (line + n) ps = (tokensOf line ps).map (Token.down n) := by
  induction ps generalizing line with
  | nil => rfl
  | cons p ps ih =>
      rw [tokensOf, tokensOf, List.map_append, ← ih, Nat.add_right_comm]
      split_ifs <;> rfl

/-- The text behind a newline is scanned as a file of its own, with lines that go on counting,
unless a comment is open. -/
theorem main_append_newline (ha : CommentsClosed a) (b : List Byte) :
    ∃ ts us, main a = some (ts, ts.length) ∧ main b = some (us, us.length) ∧
      main (a ++ lf :: b) =
        some (ts ++ us.map (Token.down (a.count lf + 1)), ts.length + us.length) := by
  obtain ⟨ps, hps, hclosed⟩ := ha
  obtain ⟨qs, hqs⟩ := exists_pieces b
  refine ⟨_, _, main_eq hps, main_eq hqs, ?_⟩
  have htokens : tokensOf 1 (ps ++ ⟨.skip, [lf], []⟩ :: qs) =
      tokensOf 1 ps ++ (tokensOf 1 qs).map (Token.down (a.count lf + 1)) := by
    rw [tokensOf_append, hps.flatMap_text, tokensOf, ← tokensOf_add]
    rfl
  rw [main_eq (pieces_append_newline hps hclosed hqs), htokens, List.length_append,
    List.length_map]

theorem main_append_newline_letters :
    ∃ ts us, main (chars "x") = some (ts, ts.length) ∧ main (chars "y") = some (us, us.length) ∧
      main (chars "x" ++ lf :: chars "y") =
        some (ts ++ us.map (Token.down ((chars "x").count lf + 1)), ts.length + us.length) := by
  have hnext : Next (chars "x") ⟨.add, chars "x", []⟩ [] :=
    ⟨(List.append_nil _).symm, ⟨39, identifier, longest_eq_some_iff.1 (by decide), rfl⟩, rfl⟩
  refine main_append_newline ⟨_, .cons hnext .nil, fun p hp => ?_⟩ (chars "y")
  rw [List.mem_singleton.1 hp]
  nofun

end C99

end Miscellany
