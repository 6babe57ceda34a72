import Miscellany.Preprocess.Pieces

/-!
# Comments, and words that are scanned again

A comment hides whatever is in it, and only its newlines count. It goes on to the first `*/`, or to
the end of the file if there is none. The words that the scanner has printed, one on each line, are
scanned as these words again.
-/

namespace Miscellany

namespace C99

open Regex

open InputStream (lf)

variable {input b body line w : List Byte} {i n : ℕ}

/-! ### Comments -/

theorem opener_eq : chars "/*" = [char '/', char '*'] := by decide

set_option maxRecDepth 2000 in
theorem isShort_of_opener :
    ∀ r ∈ regexes, ((r.deriv (char '/')).deriv (char '*')).isShort = true := by decide

/-- Nothing longer than `/*` begins like a comment. -/
theorem longest_opener (rest : List Byte) :
    Longest regexes (char '/' :: char '*' :: rest) 2 0 := by
  have hhit : Matches regexes 0 (chars "/*") :=
    matches_regexes.2 ⟨(lit "/*", .comment), rfl, mem_lang_word.2 rfl⟩
  refine ⟨?_, ?_, fun j hj => absurd hj (Nat.not_lt_zero j), fun m j hlt hm h => ?_⟩
  · exact Nat.succ_le_succ (Nat.succ_le_succ (Nat.zero_le _))
  · rw [opener_eq] at hhit
    exact hhit
  · obtain ⟨r, hr, hw⟩ := h
    obtain ⟨k, rfl⟩ : ∃ k, m = k + 3 := ⟨m - 3, by omega⟩
    rw [List.take_succ_cons, List.take_succ_cons, ← mem_lang_deriv, ← mem_lang_deriv] at hw
    have hnil := eq_nil_of_isShort (isShort_of_opener r (List.mem_of_getElem? hr)) hw
    simp only [List.length_cons] at hm
    rcases List.take_eq_nil_iff.1 hnil with hk | rfl
    · cases hk
    · simp only [List.length_nil] at hm
      omega

theorem next_comment {more rest : List Byte} (h : more.length = commentLength 0 (more ++ rest)) :
    Next (chars "/*" ++ (more ++ rest)) ⟨.comment, chars "/*", more⟩ rest := by
  refine ⟨rfl, ⟨0, lit "/*", ?_, rfl⟩, h⟩
  simp only [opener_eq]
  exact longest_opener _

theorem closer_eq : chars "*/" = [char '*', char '/'] := by decide

theorem not_closes_append_star (h0 : 0 ∉ body) (hclose : ¬ chars "*/" <:+: body) :
    closes 0 (body ++ [char '*']) = false := by
  have h0' : (0 : Byte) ∉ body ++ [char '*'] := by
    rw [List.mem_append, not_or]
    exact ⟨h0, by decide⟩
  rw [Bool.eq_false_iff, Ne, closes_iff h0', ← List.cons_append, List.infix_concat_iff, not_or]
  constructor
  · -- The last byte is a star and not a slash.
    intro hsuffix
    have hlast := hsuffix.getLast (by simp)
    rw [List.getLast_concat] at hlast
    exact absurd hlast (by decide)
  · rw [closer_eq] at hclose
    rw [List.infix_cons_iff, List.cons_prefix_cons, not_or]
    exact ⟨fun h => absurd h.1 (by decide), hclose⟩

/-- A comment goes on to the first `*/`. -/
theorem commentLength_closed (h0 : 0 ∉ body) (hclose : ¬ chars "*/" <:+: body) (b : List Byte) :
    (body ++ chars "*/").length = commentLength 0 (body ++ chars "*/" ++ b) := by
  have hopen := commentLength_append_of_not_closes (not_closes_append_star h0 hclose)
    (char '/' :: b)
  have hend : Ends ((body ++ [char '*']).getLastD 0) (char '/') := by
    rw [List.getLastD_concat]
    exact .inr ⟨rfl, rfl⟩
  rw [commentLength, if_pos hend, List.append_assoc] at hopen
  rw [closer_eq, List.append_assoc]
  refine Eq.trans ?_ hopen.symm
  simp

/-- A comment is nothing but its newlines, whatever is in it. -/
theorem main_comment (h0 : 0 ∉ body) (hclose : ¬ chars "*/" <:+: body) (b : List Byte) :
    ∃ ts, main b = some (ts, ts.length) ∧
      main (chars "/*" ++ (body ++ chars "*/" ++ b)) =
        some (ts.map (Token.down (body.count lf)), ts.length) := by
  obtain ⟨qs, hqs⟩ := exists_pieces b
  refine ⟨_, main_eq hqs, ?_⟩
  have htokens : tokensOf 1 (⟨.comment, chars "/*", body ++ chars "*/"⟩ :: qs) =
      (tokensOf 1 qs).map (Token.down (body.count lf)) := by
    have hcount : (chars "/*" ++ (body ++ chars "*/")).count lf = body.count lf := by
      have hopen : (chars "/*").count lf = 0 := by decide
      have hclose : (chars "*/").count lf = 0 := by decide
      rw [List.count_append, List.count_append, hopen, hclose, Nat.zero_add, Nat.add_zero]
    rw [tokensOf, Piece.text, hcount, tokensOf_add]
    rfl
  rw [main_eq (.cons (next_comment (commentLength_closed h0 hclose b)) hqs), htokens,
    List.length_map]

/-- A comment of two lines before a token. -/
theorem main_comment_quote :
    ∃ ts, main (chars "x") = some (ts, ts.length) ∧
      main (chars "/*" ++ (chars " \"\n" ++ chars "*/" ++ chars "x")) =
        some (ts.map (Token.down ((chars " \"\n").count lf)), ts.length) :=
  main_comment (by decide) (by decide) (chars "x")

/-- An open comment takes the rest of the file with it. -/
theorem main_open_comment (h : closes 0 body = false) :
    main (chars "/*" ++ body) = some ([], 0) := by
  have hlen : body.length = commentLength 0 (body ++ []) :=
    (commentLength_append_of_not_closes h []).symm
  have hnext := next_comment hlen
  rw [List.append_nil] at hnext
  exact main_eq (.cons hnext .nil)

theorem longest_line_comment (h : lf ∉ line) :
    Longest regexes (chars "//" ++ line) (chars "//" ++ line).length 1 := by
  refine ⟨le_rfl, ?_, fun j hj hmatch => ?_,
    fun m j hlt hm => absurd (hlt.trans_le hm) (lt_irrefl _)⟩
  · rw [List.take_length]
    refine matches_regexes.2 ⟨_, rfl, Language.append_mem_mul (mem_lang_word.2 rfl) ?_⟩
    refine Language.mem_kstar.2 ⟨line.map fun c => [c], ?_, fun u hu => ?_⟩
    · rw [← List.flatMap_def, List.flatMap_singleton']
    obtain ⟨c, hc, rfl⟩ := List.mem_map.1 hu
    refine singleton_mem_symbols.2 ?_
    have hne : c ≠ lf := fun heq => h (heq ▸ hc)
    have hchars : chars "\n" = [lf] := by decide
    simp [hchars, hne]
  · obtain rfl : j = 0 := Nat.lt_one_iff.1 hj
    obtain ⟨rule, hrule, hw⟩ := matches_regexes.1 hmatch
    cases hrule
    rw [List.take_length] at hw
    have heq := mem_lang_word.1 hw
    have hsecond := congrArg (fun w => w[1]?) heq
    have hslash : (chars "//" ++ line)[1]? = some (char '/') := by
      rw [List.getElem?_append_left (by decide)]
      decide
    have hstar : (chars "/*")[1]? = some (char '*') := by decide
    rw [hslash, hstar] at hsecond
    exact absurd hsecond (by decide)

/-- A `//` hides the rest of its line, and nothing of the next one. -/
theorem main_line_comment (h : lf ∉ line) (b : List Byte) :
    ∃ ts, main b = some (ts, ts.length) ∧
      main (chars "//" ++ line ++ lf :: b) = some (ts.map (Token.down 1), ts.length) := by
  have hnext : Next (chars "//" ++ line) ⟨.skip, chars "//" ++ line, []⟩ [] :=
    ⟨(List.append_nil _).symm, ⟨1, _, longest_line_comment h, rfl⟩, rfl⟩
  have hclosed : CommentsClosed (chars "//" ++ line) := by
    refine ⟨_, .cons hnext .nil, fun p hp => ?_⟩
    rw [List.mem_singleton.1 hp]
    nofun
  have hcount : (chars "//" ++ line).count lf = 0 := by
    rw [List.count_eq_zero, List.mem_append, not_or]
    exact ⟨by decide, h⟩
  obtain ⟨ts, us, hts, hus, heq⟩ := main_append_newline hclosed b
  rw [main_eq (.cons hnext .nil)] at hts
  cases hts
  refine ⟨us, hus, ?_⟩
  rw [heq, hcount]
  simp [tokensOf]

/-! ### Scanning the words again -/

/-- The scanner takes all of `w` as one token. -/
def IsToken (w : List Byte) : Prop :=
  ∃ i e, Longest regexes w w.length i ∧ rules[i]? = some (e, .add)

theorem Next.isToken {p : Piece} {rest : List Byte} (h : Next input p rest)
    (hp : p.action = .add) : IsToken p.yytext := by
  obtain ⟨i, e, hlongest, hrule⟩ := h.rule
  have htake := hlongest.take
  rw [h.eq, List.take_left] at htake
  exact ⟨i, e, htake, hp ▸ hrule⟩

theorem IsToken.next (h : IsToken w) : Next w ⟨.add, w, []⟩ [] := by
  obtain ⟨i, e, hlongest, hrule⟩ := h
  exact ⟨(List.append_nil w).symm, ⟨i, e, hlongest, hrule⟩, rfl⟩

theorem takeWhile_of_notMem (h : 0 ∉ w) : w.takeWhile (· != 0) = w := by
  refine List.takeWhile_eq_self_iff.2 fun c hc => bne_iff_ne.2 ?_
  rintro rfl
  exact h hc

/-- The words, one on each line. -/
def linesOf (ws : List (List Byte)) : List Byte := ws.flatMap (· ++ [lf])

/-- The token of a word, and the end of its line. -/
def linePieces (w : List Byte) : List Piece := [⟨.add, w, []⟩, ⟨.skip, [lf], []⟩]

theorem pieces_linesOf {ws : List (List Byte)} (h : ∀ w ∈ ws, IsToken w) :
    Pieces (linesOf ws) (ws.flatMap linePieces) := by
  induction ws with
  | nil => exact .nil
  | cons w ws ih =>
      obtain ⟨hw, hws⟩ := List.forall_mem_cons.1 h
      have hclosed : ∀ p ∈ [(⟨.add, w, []⟩ : Piece)], p.Closed := by
        intro p hp
        rw [List.mem_singleton.1 hp]
        nofun
      have happend := pieces_append_newline (.cons hw.next .nil) hclosed (ih hws)
      rw [linesOf, List.flatMap_cons, List.append_assoc]
      exact happend

theorem tokensOf_linePieces {ws : List (List Byte)} (h : ∀ w ∈ ws, lf ∉ w ∧ 0 ∉ w) (line : ℕ) :
    tokensOf line (ws.flatMap linePieces) = ws.mapIdx fun k w => ⟨line + k, w⟩ := by
  induction ws generalizing line with
  | nil => rfl
  | cons w ws ih =>
      obtain ⟨⟨hlf, h0⟩, hws⟩ := List.forall_mem_cons.1 h
      have hcount : w.count lf = 0 := List.count_eq_zero.2 hlf
      have hword := takeWhile_of_notMem h0
      have hline : ∀ k, line + 1 + k = line + (k + 1) := fun k => by omega
      simp [linePieces, tokensOf, Piece.text, newToken, hcount, hword, List.mapIdx_cons, ih hws,
        hline]

/-- The words that are printed for a text without a zero are scanned as the same words, and the word
`k` is on the line `k`. -/
theorem main_linesOf {ts : List Token} {n : ℕ} (h0 : 0 ∉ input) (h : main input = some (ts, n)) :
    main (linesOf (ts.map Token.word)) =
      some ((ts.map Token.word).mapIdx fun k w => ⟨1 + k, w⟩, n) := by
  obtain ⟨ps, hps⟩ := exists_pieces input
  rw [main_eq hps] at h
  cases h
  have hwords : ∀ w ∈ (tokensOf 1 ps).map Token.word, IsToken w ∧ lf ∉ w ∧ 0 ∉ w := by
    intro w hw
    obtain ⟨t, ht, rfl⟩ := List.mem_map.1 hw
    obtain ⟨k, hk⟩ := List.getElem?_of_mem ht
    obtain ⟨us, p, vs, rfl, hp, -, rfl⟩ := exists_of_getElem?_tokensOf hk
    obtain ⟨input', rest, hnext⟩ := hps.exists_next_of_mem (p := p) (by simp)
    have hzero : (0 : Byte) ∉ p.yytext := by
      intro hmem
      refine h0 (hps.flatMap_text ▸ ?_)
      simp [Piece.text, hmem]
    rw [newToken, takeWhile_of_notMem hzero]
    exact ⟨hnext.isToken hp, hnext.newline_notMem hp, hzero⟩
  rw [main_eq (pieces_linesOf fun w hw => (hwords w hw).1),
    tokensOf_linePieces (fun w hw => (hwords w hw).2), List.length_mapIdx, List.length_map]

theorem main_linesOf_semicolon :
    main (linesOf ([⟨1, chars "x"⟩, ⟨1, chars ";"⟩].map Token.word)) =
      some (([⟨1, chars "x"⟩, ⟨1, chars ";"⟩].map Token.word).mapIdx fun k w => ⟨1 + k, w⟩, 2) :=
  @main_linesOf (chars "x;") _ _ (by decide) (by decide)

end C99

end Miscellany
