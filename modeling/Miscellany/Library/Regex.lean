import Mathlib.Computability.Language

/-!
# Regular expressions over classes of symbols

`Regex α` has a class of symbols, a predicate, where `RegularExpression α` has a single symbol. Its
meaning is a `Language α`, and a word is matched by derivatives (`mem_lang_deriv`).

`longest` is what a generated scanner does at a position of its input: of all expressions it takes
the one with the longest match, and of several the first (`longest_eq_some_iff`). When no expression
matches a symbol `a` but as the whole word `[a]`, then `a` is a barrier, and the scanner never looks
behind it (`longest_append_cons`).
-/

namespace Miscellany

/-- A regular expression over classes of symbols. -/
inductive Regex (α : Type*) where
  | empty
  | epsilon
  | symbols (p : α → Bool)
  | alt (r s : Regex α)
  | cat (r s : Regex α)
  | star (r : Regex α)

namespace Regex

variable {α : Type*} {a : α} {r s : Regex α} {w : List α}

/-- The words of an expression. -/
def lang : Regex α → Language α
  | empty => 0
  | epsilon => 1
  | symbols p => {w | ∃ a, p a = true ∧ w = [a]}
  | alt r s => r.lang + s.lang
  | cat r s => r.lang * s.lang
  | star r => KStar.kstar r.lang

def opt (r : Regex α) : Regex α := alt r epsilon

def plus (r : Regex α) : Regex α := cat r (star r)

/-- The word `w` alone. -/
def word [BEq α] (w : List α) : Regex α := w.foldr (fun a r => cat (symbols (· == a)) r) epsilon

/-- One of the expressions. -/
def oneOf (rs : List (Regex α)) : Regex α := rs.foldr alt empty

/-- The empty word is one of the words. -/
def nullable : Regex α → Bool
  | empty => false
  | epsilon => true
  | symbols _ => false
  | alt r s => r.nullable || s.nullable
  | cat r s => r.nullable && s.nullable
  | star _ => true

/-- `alt` without an empty part. -/
def union : Regex α → Regex α → Regex α
  | empty, s => s
  | r, empty => r
  | r, s => alt r s

/-- `cat` without an empty part. -/
def seq : Regex α → Regex α → Regex α
  | empty, _ => empty
  | epsilon, s => s
  | r, s => cat r s

/-- What may follow the symbol `a`. -/
def deriv (a : α) : Regex α → Regex α
  | empty => empty
  | epsilon => empty
  | symbols p => if p a then epsilon else empty
  | alt r s => union (r.deriv a) (s.deriv a)
  | cat r s =>
      if r.nullable then union (seq (r.deriv a) s) (s.deriv a) else seq (r.deriv a) s
  | star r => seq (r.deriv a) (star r)

/-- No class of the expression has the symbol. -/
def avoids (a : α) : Regex α → Bool
  | empty => true
  | epsilon => true
  | symbols p => !p a
  | alt r s => r.avoids a && s.avoids a
  | cat r s => r.avoids a && s.avoids a
  | star r => r.avoids a

/-- The expression is plainly without a word that has a symbol. -/
def isShort : Regex α → Bool
  | empty => true
  | epsilon => true
  | _ => false

/-! ### Words and derivatives -/

theorem mem_lang_symbols {p : α → Bool} : w ∈ (symbols p).lang ↔ ∃ a, p a = true ∧ w = [a] :=
  Iff.rfl

theorem singleton_mem_symbols {p : α → Bool} : [a] ∈ (symbols p).lang ↔ p a = true := by
  rw [mem_lang_symbols]
  constructor
  · rintro ⟨b, hb, heq⟩
    cases heq
    exact hb
  · exact fun h => ⟨a, h, rfl⟩

theorem nil_mem_lang (r : Regex α) : [] ∈ r.lang ↔ r.nullable = true := by
  induction r with
  | empty => simp [lang, nullable]
  | epsilon => simp [lang, nullable, Language.mem_one]
  | symbols p => simp [mem_lang_symbols, nullable]
  | alt r s ihr ihs => simp [lang, nullable, Language.mem_add, ihr, ihs]
  | cat r s ihr ihs => simp [lang, nullable, Language.mem_mul, ihr, ihs]
  | star r ih => simp [lang, nullable, Language.nil_mem_kstar]

theorem lang_union (r s : Regex α) : (union r s).lang = r.lang + s.lang := by
  fun_cases union r s with
  | case1 => simp [lang]
  | case2 => simp [lang]
  | case3 => rfl

theorem lang_seq (r s : Regex α) : (seq r s).lang = r.lang * s.lang := by
  fun_cases seq r s with
  | case1 => simp [lang]
  | case2 => simp [lang]
  | case3 => rfl

/-- A word of a product that begins with `a`. -/
theorem cons_mem_mul {l m : Language α} :
    a :: w ∈ l * m ↔
      (∃ u, a :: u ∈ l ∧ ∃ v ∈ m, u ++ v = w) ∨ [] ∈ l ∧ a :: w ∈ m := by
  rw [Language.mem_mul]
  constructor
  · rintro ⟨u, hu, v, hv, huv⟩
    cases u with
    | nil => exact .inr ⟨hu, huv ▸ hv⟩
    | cons b u =>
        cases huv
        exact .inl ⟨u, hu, v, hv, rfl⟩
  · rintro (⟨u, hu, v, hv, rfl⟩ | ⟨hnil, hw⟩)
    · exact ⟨a :: u, hu, v, hv, rfl⟩
    · exact ⟨[], hnil, a :: w, hw, rfl⟩

/-- A word of a star that begins with `a` begins with a word that does. -/
theorem cons_mem_kstar {l : Language α} :
    a :: w ∈ KStar.kstar l ↔ ∃ u, a :: u ∈ l ∧ ∃ v ∈ KStar.kstar l, u ++ v = w := by
  rw [Language.mem_kstar_iff_exists_nonempty]
  constructor
  · rintro ⟨L, heq, hL⟩
    cases L with
    | nil => cases heq
    | cons x L =>
        obtain ⟨hx, hne⟩ := hL x List.mem_cons_self
        obtain ⟨b, u, rfl⟩ := List.exists_cons_of_ne_nil hne
        rw [List.flatten_cons, List.cons_append] at heq
        cases heq
        exact ⟨u, hx, L.flatten,
          Language.join_mem_kstar fun y hy => (hL y (List.mem_cons_of_mem _ hy)).1, rfl⟩
  · rintro ⟨u, hu, v, hv, rfl⟩
    obtain ⟨L, rfl, hL⟩ := Language.mem_kstar_iff_exists_nonempty.1 hv
    refine ⟨(a :: u) :: L, rfl, fun y hy => ?_⟩
    rcases List.mem_cons.1 hy with rfl | hy
    · exact ⟨hu, nofun⟩
    · exact hL y hy

theorem mem_lang_deriv (a : α) (r : Regex α) (w : List α) :
    w ∈ (r.deriv a).lang ↔ a :: w ∈ r.lang := by
  induction r generalizing w with
  | empty => exact Iff.rfl
  | epsilon => simp [deriv, lang, Language.mem_one]
  | symbols p =>
      rw [deriv, mem_lang_symbols]
      split_ifs with hp
      · simp [lang, Language.mem_one, hp]
      · simp [lang, hp]
  | alt r s ihr ihs => rw [deriv, lang_union, Language.mem_add, ihr, ihs, lang, Language.mem_add]
  | cat r s ihr ihs =>
      have hseq : w ∈ (seq (r.deriv a) s).lang ↔
          ∃ u, a :: u ∈ r.lang ∧ ∃ v ∈ s.lang, u ++ v = w := by
        simp only [lang_seq, Language.mem_mul, ihr]
      rw [lang, cons_mem_mul, nil_mem_lang, deriv]
      split_ifs with hnull
      · rw [lang_union, Language.mem_add, hseq, ihs]
        simp [hnull]
      · rw [hseq]
        simp [hnull]
  | star r ih =>
      rw [deriv, lang_seq, lang, cons_mem_kstar, Language.mem_mul]
      simp only [ih]

theorem mem_lang_word [BEq α] [LawfulBEq α] {u : List α} : w ∈ (word u).lang ↔ w = u := by
  induction u generalizing w with
  | nil => exact Language.mem_one w
  | cons a u ih =>
      simp only [word, List.foldr_cons, lang]
      constructor
      · rintro ⟨-, ⟨b, hb, rfl⟩, v, hv, rfl⟩
        rw [ih.1 hv, eq_of_beq hb]
        rfl
      · rintro rfl
        exact ⟨[a], ⟨a, beq_self_eq_true a, rfl⟩, u, ih.2 rfl, rfl⟩

theorem eq_nil_of_isShort (h : r.isShort = true) (hw : w ∈ r.lang) : w = [] := by
  cases r with
  | empty => exact absurd hw (Language.notMem_zero w)
  | epsilon => exact (Language.mem_one w).1 hw
  | symbols p => cases h
  | alt r s => cases h
  | cat r s => cases h
  | star r => cases h

theorem notMem_of_avoids (h : r.avoids a = true) (hw : w ∈ r.lang) : a ∉ w := by
  induction r generalizing w with
  | empty => exact absurd hw (Language.notMem_zero w)
  | epsilon =>
      rw [(Language.mem_one w).1 hw]
      exact List.not_mem_nil
  | symbols p =>
      obtain ⟨b, hb, rfl⟩ := hw
      rw [avoids, Bool.not_eq_true'] at h
      rw [List.mem_singleton]
      rintro rfl
      rw [hb] at h
      cases h
  | alt r s ihr ihs =>
      obtain ⟨hr, hs⟩ := Bool.and_eq_true_iff.1 h
      rcases (Language.mem_add _ _ _).1 hw with hw | hw
      · exact ihr hr hw
      · exact ihs hs hw
  | cat r s ihr ihs =>
      obtain ⟨hr, hs⟩ := Bool.and_eq_true_iff.1 h
      obtain ⟨u, hu, v, hv, rfl⟩ := Language.mem_mul.1 hw
      exact fun hmem => (List.mem_append.1 hmem).elim (ihr hr hu) (ihs hs hv)
  | star r ih =>
      obtain ⟨L, rfl, hL⟩ := Language.mem_kstar.1 hw
      intro hmem
      obtain ⟨u, hu, hau⟩ := List.mem_flatten.1 hmem
      exact ih h (hL u hu) hau

/-! ### The longest match -/

variable {rs : List (Regex α)} {i n : ℕ}

/-- The word is one of the expression `i`. -/
def Matches (rs : List (Regex α)) (i : ℕ) (w : List α) : Prop :=
  ∃ r, rs[i]? = some r ∧ w ∈ r.lang

/-- The length of the longest match at the start of the input, and the first expression that has
it. -/
def longest : List (Regex α) → List α → Option (ℕ × ℕ)
  | rs, [] => (rs.findIdx? nullable).map (0, ·)
  | rs, a :: w =>
      match longest (rs.map (deriv a)) w with
      | some (n, i) => some (n + 1, i)
      | none => (rs.findIdx? nullable).map (0, ·)

/-- What a scanner has to choose: `n` symbols, and the expression `i` for them. -/
structure Longest (rs : List (Regex α)) (w : List α) (n i : ℕ) : Prop where
  le : n ≤ w.length
  hit : Matches rs i (w.take n)
  first : ∀ j < i, ¬ Matches rs j (w.take n)
  longest : ∀ m j, n < m → m ≤ w.length → ¬ Matches rs j (w.take m)

theorem matches_map_deriv : Matches (rs.map (deriv a)) i w ↔ Matches rs i (a :: w) := by
  simp only [Matches, List.getElem?_map, Option.map_eq_some_iff]
  constructor
  · rintro ⟨-, ⟨r, hr, rfl⟩, hw⟩
    exact ⟨r, hr, (mem_lang_deriv a r w).1 hw⟩
  · rintro ⟨r, hr, hw⟩
    exact ⟨r.deriv a, ⟨r, hr, rfl⟩, (mem_lang_deriv a r w).2 hw⟩

theorem matches_nil_iff : Matches rs i [] ↔ ∃ r, rs[i]? = some r ∧ r.nullable = true := by
  simp only [Matches, nil_mem_lang]

/-- The choice among the expressions that have the empty word. -/
theorem findIdx?_nullable_eq_some :
    rs.findIdx? nullable = some i ↔ Matches rs i [] ∧ ∀ j < i, ¬ Matches rs j [] := by
  simp only [List.findIdx?_eq_some_iff_getElem, matches_nil_iff]
  constructor
  · rintro ⟨hlt, hi, hj⟩
    refine ⟨⟨rs[i], List.getElem?_eq_getElem hlt, hi⟩, ?_⟩
    rintro j hji ⟨r, hr, hnull⟩
    obtain ⟨hlt', rfl⟩ := List.getElem?_eq_some_iff.1 hr
    exact hj j hji hnull
  · rintro ⟨⟨r, hr, hnull⟩, hj⟩
    obtain ⟨hlt, rfl⟩ := List.getElem?_eq_some_iff.1 hr
    refine ⟨hlt, hnull, fun j hji hnull' => hj j hji ⟨rs[j], ?_, hnull'⟩⟩
    exact List.getElem?_eq_getElem (hji.trans hlt)

theorem findIdx?_nullable_eq_none : rs.findIdx? nullable = none ↔ ∀ j, ¬ Matches rs j [] := by
  simp only [List.findIdx?_eq_none_iff, matches_nil_iff]
  constructor
  · rintro h j ⟨r, hr, hnull⟩
    rw [h r (List.mem_of_getElem? hr)] at hnull
    cases hnull
  · intro h r hr
    obtain ⟨j, hj⟩ := List.getElem?_of_mem hr
    exact Bool.eq_false_iff.2 fun hnull => h j ⟨r, hj, hnull⟩

theorem longest_none (h : longest rs w = none) {m : ℕ} (hm : m ≤ w.length) (j : ℕ) :
    ¬ Matches rs j (w.take m) := by
  induction w generalizing rs m with
  | nil =>
      rw [List.take_nil]
      exact findIdx?_nullable_eq_none.1 (Option.map_eq_none_iff.1 h) j
  | cons a w ih =>
      rw [longest] at h
      split at h
      · cases h
      · rename_i hnone
        cases m with
        | zero => exact findIdx?_nullable_eq_none.1 (Option.map_eq_none_iff.1 h) j
        | succ m =>
            rw [List.take_succ_cons, ← matches_map_deriv]
            exact ih hnone (Nat.le_of_succ_le_succ hm)

theorem longest_some (h : longest rs w = some (n, i)) : Longest rs w n i := by
  induction w generalizing rs n with
  | nil =>
      obtain ⟨k, hk, heq⟩ := Option.map_eq_some_iff.1 h
      cases heq
      obtain ⟨hhit, hfirst⟩ := findIdx?_nullable_eq_some.1 hk
      exact ⟨le_rfl, hhit, hfirst, fun m j hlt hle => absurd (hlt.trans_le hle) (lt_irrefl _)⟩
  | cons a w ih =>
      rw [longest] at h
      split at h
      · rename_i n' i' hsome
        cases h
        obtain ⟨hle, hhit, hfirst, hlongest⟩ := ih hsome
        refine ⟨Nat.succ_le_succ hle, matches_map_deriv.1 hhit,
          fun j hj => mt matches_map_deriv.2 (hfirst j hj), fun m j hlt hm => ?_⟩
        cases m with
        | zero => exact absurd hlt (Nat.not_lt_zero _)
        | succ m =>
            exact mt matches_map_deriv.2
              (hlongest m j (Nat.lt_of_succ_lt_succ hlt) (Nat.le_of_succ_le_succ hm))
      · rename_i hnone
        obtain ⟨k, hk, heq⟩ := Option.map_eq_some_iff.1 h
        cases heq
        obtain ⟨hhit, hfirst⟩ := findIdx?_nullable_eq_some.1 hk
        refine ⟨Nat.zero_le _, hhit, hfirst, fun m j hlt hm => ?_⟩
        cases m with
        | zero => exact absurd hlt (lt_irrefl _)
        | succ m =>
            rw [List.take_succ_cons, ← matches_map_deriv]
            exact longest_none hnone (Nat.le_of_succ_le_succ hm) j

/-- There is one choice at most. -/
theorem Longest.unique {n' i' : ℕ} (h : Longest rs w n i) (h' : Longest rs w n' i') :
    n = n' ∧ i = i' := by
  obtain rfl : n = n' := by
    rcases lt_trichotomy n n' with hlt | heq | hlt
    · exact absurd h'.hit (h.longest n' i' hlt h'.le)
    · exact heq
    · exact absurd h.hit (h'.longest n i hlt h.le)
  refine ⟨rfl, ?_⟩
  rcases lt_trichotomy i i' with hlt | heq | hlt
  · exact absurd h.hit (h'.first i hlt)
  · exact heq
  · exact absurd h'.hit (h.first i' hlt)

theorem longest_eq_some_iff : longest rs w = some (n, i) ↔ Longest rs w n i := by
  refine ⟨longest_some, fun h => ?_⟩
  cases heq : longest rs w with
  | none => exact absurd h.hit (longest_none heq h.le i)
  | some r =>
      obtain ⟨rfl, rfl⟩ := h.unique (longest_some heq)
      rfl

/-- Some expression matches if one has a word that the input begins with, and the match is not
shorter than that word. -/
theorem exists_longest {m j : ℕ} (hm : m ≤ w.length) (hj : Matches rs j (w.take m)) :
    ∃ n i, Longest rs w n i ∧ m ≤ n := by
  cases heq : longest rs w with
  | none => exact absurd hj (longest_none heq hm j)
  | some r =>
      have h := longest_some heq
      refine ⟨r.1, r.2, h, ?_⟩
      by_contra hlt
      exact h.longest m j (Nat.lt_of_not_le hlt) hm hj

/-- The whole of a longest match is a longest match. -/
theorem Longest.take (h : Longest rs w n i) : Longest rs (w.take n) n i := by
  have hlen : (w.take n).length = n := List.length_take_of_le h.le
  refine ⟨hlen.ge, ?_, ?_, fun m j hlt hm => absurd (hlt.trans_le (hm.trans hlen.le)) (lt_irrefl _)⟩
  · rw [List.take_take, min_self]
    exact h.hit
  · rw [List.take_take, min_self]
    exact h.first

/-- The scanner does not look behind a symbol that no expression has in a longer word. -/
theorem longest_append_cons (hbarrier : ∀ j u, Matches rs j u → a ∈ u → u = [a]) (hw : w ≠ [])
    (v : List α) : Longest rs (w ++ a :: v) n i ↔ Longest rs w n i := by
  -- A match that goes on behind `w` has the symbol, and is longer than the symbol alone.
  have hshort : ∀ m j, Matches rs j ((w ++ a :: v).take m) → m ≤ (w ++ a :: v).length →
      m ≤ w.length := by
    intro m j hj hm
    by_contra hlt
    have hpos := List.length_pos_of_ne_nil hw
    have hlen := List.length_take_of_le hm
    have hmem : a ∈ (w ++ a :: v).take m := by
      obtain ⟨k, hk⟩ := Nat.exists_eq_add_of_lt (Nat.lt_of_not_le hlt)
      have hrest : m - w.length = k + 1 := by omega
      rw [List.take_append, hrest, List.take_succ_cons]
      exact List.mem_append_right _ List.mem_cons_self
    rw [hbarrier j _ hj hmem, List.length_singleton] at hlen
    omega
  have htake : ∀ m, m ≤ w.length → (w ++ a :: v).take m = w.take m := fun m hm =>
    List.take_append_of_le_length hm
  have hle : w.length ≤ (w ++ a :: v).length := by
    rw [List.length_append]
    exact Nat.le_add_right _ _
  constructor
  · rintro ⟨hn, hhit, hfirst, hlongest⟩
    have hnw := hshort n i hhit hn
    rw [htake n hnw] at hhit hfirst
    refine ⟨hnw, hhit, hfirst, fun m j hlt hm => ?_⟩
    rw [← htake m hm]
    exact hlongest m j hlt (hm.trans hle)
  · rintro ⟨hn, hhit, hfirst, hlongest⟩
    rw [← htake n hn] at hhit hfirst
    refine ⟨hn.trans hle, hhit, hfirst, fun m j hlt hm hj => ?_⟩
    have hmw := hshort m j hj hm
    rw [htake m hmw] at hj
    exact hlongest m j hlt hmw hj

end Regex

end Miscellany
