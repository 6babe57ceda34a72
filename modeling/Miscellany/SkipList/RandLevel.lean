import Mathlib.Algebra.Ring.Int.Defs
import Miscellany.SkipList.Calls
import Miscellany.Str.Basic

/-!
# Drawing a height

`rand_level` compares `t` with `RAND_MAX / j`, where `j` is doubled from height to height. In
an `int` the doubled value is `2 ^ i` up to the height 30, `-2 ^ 31` at the height 31, and zero
from the height 32 on. The loop comes to the height 31 only if `t` is at most 1 and the list has
more than 31 levels.

So the height is drawn without a fault, as the least one at which `t` exceeds `RAND_MAX / 2 ^ i`,
exactly if there are at most 31 levels or `t` is at least 2.
-/

namespace Miscellany

namespace Sklist

open WbaStr (addInt)

variable {K O : Type} {s : Sklist K O} {cmp : K → K → ℤ} {key : O → K}
variable {maxLevel fuel i : ℕ} {t : ℤ}

def randMax : ℤ := 2 ^ 31 - 1

/-- The loop of `rand_level`: the height, and the values of `j` that `RAND_MAX` has been divided
by. Dividing by zero is a fault. -/
def randLoop (maxLevel : ℕ) (t : ℤ) : ℕ → ℕ → ℤ → Option (ℕ × List ℤ)
  | 0, _, _ => none
  | fuel + 1, i, j =>
      if i < maxLevel then
        if j = 0 then none
        else if t > randMax.tdiv j then some (i, [j])
        else (randLoop maxLevel t fuel (i + 1) (addInt j j)).map fun r => (r.1, j :: r.2)
      else some (i, [])

/-- `rand_level`, where `rand` returns `t`. -/
def randLevel (s : Sklist K O) (t : ℤ) : Option (ℕ × List ℤ × Sklist K O) :=
  (randLoop s.maxLevel t s.maxLevel 1 2).map fun r => (r.1, r.2, s.raiseLevel r.1)

/-- The loop is left at the height `i`. -/
def Leaves (maxLevel : ℕ) (t : ℤ) (i : ℕ) : Prop := i = maxLevel ∨ randMax / 2 ^ i < t

/-- The least height from 1 on at which the loop is left. -/
structure LeastHeight (maxLevel : ℕ) (t : ℤ) (i : ℕ) : Prop where
  pos : 1 ≤ i
  le : i ≤ maxLevel
  leaves : Leaves maxLevel t i
  least : ∀ k, 1 ≤ k → k < i → ¬ Leaves maxLevel t k

/-- The divisors are the powers of two from `2 ^ i` on. -/
def Powers (i : ℕ) (js : List ℤ) : Prop := ∀ k j, js[k]? = some j → j = 2 ^ (i + k)

/-- A height is drawn without a fault and with no divisor that has overflowed, it is the least one
at which the loop is left, and `level` is raised to it. -/
def DrawsWell (s : Sklist K O) (t : ℤ) : Prop :=
  ∃ i js u, s.randLevel t = some (i, js, u) ∧ Powers 1 js ∧ LeastHeight s.maxLevel t i ∧
    i ≤ u.level ∧ u.level ≤ u.maxLevel ∧ u.maxLevel = s.maxLevel

/-! ### Divisors -/

theorem pow_bounds (hi : i ≤ 30) : 0 < (2 : ℤ) ^ i ∧ (2 : ℤ) ^ i ≤ 2 ^ 30 := by
  constructor
  · exact_mod_cast Nat.two_pow_pos i
  · exact_mod_cast Nat.pow_le_pow_right (by decide) hi

theorem addInt_pow (hi : i < 30) : addInt (2 ^ i) (2 ^ i) = 2 ^ (i + 1) := by
  have hsucc : (2 : ℤ) ^ (i + 1) = 2 ^ i + 2 ^ i := by
    rw [pow_succ, mul_two]
  obtain ⟨hpos, hle⟩ := pow_bounds (Nat.succ_le_of_lt hi)
  rw [addInt, ← hsucc, Int.bmod]
  split_ifs <;> omega

theorem powers_cons {js : List ℤ} (h : Powers (i + 1) js) : Powers i (2 ^ i :: js) := by
  intro k j hj
  cases k with
  | zero => exact (Option.some.inj hj).symm
  | succ k =>
      rw [h k j hj]
      congr 1
      omega

/-- Up to the height 30 the divisor is the power of two. -/
theorem tdiv_pow (i : ℕ) : randMax.tdiv (2 ^ i) = randMax / 2 ^ i :=
  Int.tdiv_eq_ediv_of_nonneg (by decide)

/-! ### The loop -/

theorem randLoop_stop (fuel : ℕ) (hi : maxLevel ≤ i) (j : ℤ) :
    randLoop maxLevel t (fuel + 1) i j = some (i, []) :=
  if_neg (Nat.not_lt.2 hi)

/-- Up to the height 30, the loop is left at a height or goes on with the next power of two. -/
theorem randLoop_pow (fuel : ℕ) (hi : i ≤ 30) (hlt : i < maxLevel) :
    randLoop maxLevel t (fuel + 1) i (2 ^ i) =
      if randMax / 2 ^ i < t then some (i, [2 ^ i])
      else (randLoop maxLevel t fuel (i + 1) (addInt (2 ^ i) (2 ^ i))).map
        fun r => (r.1, 2 ^ i :: r.2) := by
  rw [randLoop, if_pos hlt, if_neg (pow_bounds hi).1.ne', tdiv_pow]

/-- With at most 31 levels, or if `t` is at least 2, the loop is left before the divisor
overflows. -/
theorem randLoop_leastHeight (hsafe : maxLevel ≤ 31 ∨ 2 ≤ t) (hpos : 1 ≤ i) (hle : i ≤ maxLevel)
    (hfuel : maxLevel < i + fuel) (hgo : ∀ k, 1 ≤ k → k < i → ¬ Leaves maxLevel t k) {j : ℤ}
    (hj : i ≤ 30 → j = 2 ^ i) :
    ∃ height js, randLoop maxLevel t fuel i j = some (height, js) ∧ Powers i js ∧
      LeastHeight maxLevel t height := by
  induction fuel generalizing i j with
  | zero => omega
  | succ fuel ih =>
      rcases Nat.lt_or_eq_of_le hle with hlt | heq
      · have hi : i ≤ 30 := by
          by_contra hbig
          have hthirty : ¬ Leaves maxLevel t 30 := hgo 30 (by decide) (by omega)
          have hdiv : randMax / 2 ^ 30 = 1 := by decide
          rw [Leaves, hdiv] at hthirty
          omega
        rw [hj hi, randLoop_pow fuel hi hlt]
        split_ifs with hleave
        · refine ⟨i, [2 ^ i], rfl, ?_, hpos, hle, Or.inr hleave, hgo⟩
          exact powers_cons fun k j hk => absurd hk (by simp)
        · have hnext : ∀ k, 1 ≤ k → k < i + 1 → ¬ Leaves maxLevel t k := by
            intro k hk hki
            rcases Nat.lt_succ_iff_lt_or_eq.1 hki with hlow | rfl
            · exact hgo k hk hlow
            · rintro (hmax | hover)
              · omega
              · exact hleave hover
          obtain ⟨height, js, hrun, hjs, hleast⟩ :=
            ih (Nat.succ_le_succ (Nat.zero_le i)) hlt (by omega) hnext
              fun hi' => addInt_pow (Nat.lt_of_succ_le hi')
          refine ⟨height, 2 ^ i :: js, ?_, powers_cons hjs, hleast⟩
          rw [hrun]
          rfl
      · rw [randLoop_stop fuel heq.ge]
        exact ⟨i, [], rfl, fun k j hk => absurd hk (by simp), hpos, hle, Or.inl heq, hgo⟩

/-- With more levels and a smaller `t`, the loop comes to the height 31, where `j` has
overflowed. -/
theorem randLoop_overflow (ht : t ≤ 1) (hpos : 1 ≤ i) (hi : i ≤ 31) (hmax : 31 < maxLevel)
    {height : ℕ} {js : List ℤ} {j : ℤ} (hj : j = addInt (2 ^ (i - 1)) (2 ^ (i - 1)))
    (hrun : randLoop maxLevel t fuel i j = some (height, js)) :
    js[31 - i]? = some (addInt (2 ^ 30) (2 ^ 30)) := by
  induction fuel generalizing i j js with
  | zero => cases hrun
  | succ fuel ih =>
      rcases Nat.lt_or_eq_of_le hi with hlt | rfl
      · have hpow : j = 2 ^ i := by
          rw [hj, addInt_pow (by omega), Nat.sub_add_cancel hpos]
        have hgo : ¬ randMax / 2 ^ i < t := by
          obtain ⟨hpow, hle⟩ := pow_bounds (Nat.le_of_lt_succ hlt)
          have hbig : (2 : ℤ) ^ 30 ≤ randMax := by decide
          have hone : 1 ≤ randMax / 2 ^ i := by
            apply Int.le_ediv_of_mul_le hpow
            rw [one_mul]
            exact hle.trans hbig
          omega
        rw [hpow, randLoop_pow fuel (by omega) (by omega), if_neg hgo] at hrun
        obtain ⟨r, hr, heq⟩ := Option.map_eq_some_iff.1 hrun
        cases heq
        have hget := ih (Nat.succ_le_succ (Nat.zero_le i)) hlt rfl hr
        have hindex : 31 - i = 31 - (i + 1) + 1 := by omega
        rw [hindex, List.getElem?_cons_succ]
        exact hget
      · rw [← hj]
        rw [randLoop, if_pos hmax] at hrun
        split_ifs at hrun
        · cases hrun
          rfl
        · obtain ⟨r, -, heq⟩ := Option.map_eq_some_iff.1 hrun
          cases heq
          rfl

/-! ### The level of a list -/

/-- The number of levels is the same, and `level` has not been raised. -/
structure Lowers (s u : Sklist K O) : Prop where
  maxLevel : u.maxLevel = s.maxLevel
  level : u.level ≤ s.level

theorem Lowers.refl (s : Sklist K O) : Lowers s s := ⟨rfl, Nat.le_refl _⟩

theorem Lowers.trans {u v : Sklist K O} (h : Lowers s u) (h' : Lowers u v) : Lowers s v :=
  ⟨h'.maxLevel.trans h.maxLevel, h'.level.trans h.level⟩

theorem lowers_writeLink {p v : NodeId} {u : Sklist K O} (h : s.writeLink p i v = some u) :
    Lowers s u := by
  unfold writeLink at h
  split_ifs at h
  cases h
  exact ⟨rfl, Nat.le_refl _⟩

theorem lowers_writePrev {p v : NodeId} {u : Sklist K O} (h : s.writePrev p v = some u) :
    Lowers s u := by
  unfold writePrev at h
  split_ifs at h
  cases h
  exact ⟨rfl, Nat.le_refl _⟩

theorem lowers_insertLink {new node : NodeId} {u : Sklist K O}
    (h : s.insertLink new i node = some u) : Lowers s u := by
  unfold insertLink at h
  split_ifs at h with hlevel hzero
  · obtain ⟨next, -, h⟩ := Option.bind_eq_some_iff.1 h
    obtain ⟨s₁, h₁, h⟩ := Option.bind_eq_some_iff.1 h
    obtain ⟨s₂, h₂, h⟩ := Option.bind_eq_some_iff.1 h
    obtain ⟨s₃, h₃, h⟩ := Option.bind_eq_some_iff.1 h
    obtain ⟨next', -, h⟩ := Option.bind_eq_some_iff.1 h
    exact (((lowers_writeLink h₁).trans (lowers_writeLink h₂)).trans (lowers_writePrev h₃)).trans
      (lowers_writePrev h)
  · obtain ⟨next, -, h⟩ := Option.bind_eq_some_iff.1 h
    obtain ⟨s₁, h₁, h⟩ := Option.bind_eq_some_iff.1 h
    obtain ⟨s₂, h₂, h⟩ := Option.bind_eq_some_iff.1 h
    cases h
    exact (lowers_writeLink h₁).trans (lowers_writeLink h₂)
  · cases h
    exact Lowers.refl s

theorem lowers_insertLoop {getKey : O → K} {stop : K → Bool} {new node : NodeId}
    {u : Sklist K O} (h : insertLoop getKey stop new i node s = some u) : Lowers s u := by
  induction i generalizing node s with
  | zero =>
      cases h
      exact Lowers.refl _
  | succ i ih =>
      obtain ⟨node', -, h⟩ := Option.bind_eq_some_iff.1 h
      obtain ⟨s₁, h₁, h⟩ := Option.bind_eq_some_iff.1 h
      exact (lowers_insertLink h₁).trans (ih h)

theorem lowers_deleteLink {getKey : O → K} {found : K → Bool} {node : NodeId}
    {u : Sklist K O} (h : s.deleteLink getKey found i node = some u) : Lowers s u := by
  obtain ⟨next, -, h⟩ := Option.bind_eq_some_iff.1 h
  by_cases hhead : next = s.head
  · rw [if_pos hhead] at h
    cases h
    exact Lowers.refl s
  rw [if_neg hhead] at h
  obtain ⟨nodeKey, -, h⟩ := Option.bind_eq_some_iff.1 h
  by_cases hfound : found nodeKey = true
  · rw [if_pos hfound] at h
    obtain ⟨rest, -, h⟩ := Option.bind_eq_some_iff.1 h
    obtain ⟨s₁, h₁, h⟩ := Option.bind_eq_some_iff.1 h
    obtain ⟨after, -, h⟩ := Option.bind_eq_some_iff.1 h
    have hlower : Lowers s₁ (if node = after then { s₁ with level := s₁.level - 1 } else s₁) := by
      split_ifs
      · exact ⟨rfl, Nat.sub_le _ _⟩
      · exact Lowers.refl s₁
    by_cases hzero : i = 0
    · simp only [if_pos hzero] at h
      obtain ⟨rest', -, h⟩ := Option.bind_eq_some_iff.1 h
      obtain ⟨s₂, h₂, h⟩ := Option.bind_eq_some_iff.1 h
      cases h
      have hsecond := ((lowers_writeLink h₁).trans hlower).trans (lowers_writePrev h₂)
      exact ⟨hsecond.maxLevel, hsecond.level⟩
    · simp only [if_neg hzero] at h
      rw [← Option.some.inj h]
      exact (lowers_writeLink h₁).trans hlower
  · rw [if_neg hfound] at h
    cases h
    exact Lowers.refl s

theorem lowers_deleteLoop {getKey : O → K} {stop found : K → Bool} {node : NodeId}
    {u : Sklist K O} (h : deleteLoop getKey stop found i node s = some u) : Lowers s u := by
  induction i generalizing node s with
  | zero =>
      cases h
      exact Lowers.refl _
  | succ i ih =>
      obtain ⟨node', -, h⟩ := Option.bind_eq_some_iff.1 h
      obtain ⟨s₁, h₁, h⟩ := Option.bind_eq_some_iff.1 h
      exact (lowers_deleteLink h₁).trans (ih h)

/-- An insertion raises `level` at most to the height that is drawn. -/
theorem level_sklistInsert {obj : Option O} {height : ℕ} {malloc : Option NodeId} {res : ℤ}
    {u : Sklist K O} (h : s.sklistInsert obj height malloc = some (res, u)) :
    u.maxLevel = s.maxLevel ∧ u.level ≤ max s.level height := by
  have hraise : (s.raiseLevel height).maxLevel = s.maxLevel ∧
      (s.raiseLevel height).level ≤ max s.level height := by
    rw [raiseLevel_eq]
    exact ⟨rfl, Nat.le_refl _⟩
  unfold sklistInsert at h
  split at h
  · dsimp only at h
    split at h
    · cases h
      exact hraise
    · rename_i new s₁ hnew
      obtain ⟨s₂, h₂, h⟩ := Option.bind_eq_some_iff.1 h
      cases h
      have hnode : Lowers (s.raiseLevel height) s₁ := by
        unfold newNode at hnew
        split at hnew
        · cases hnew
        · split_ifs at hnew
          cases hnew
          exact ⟨rfl, Nat.le_refl _⟩
      have hlowers := hnode.trans (lowers_insertLoop h₂)
      exact ⟨hlowers.maxLevel.trans hraise.1, hlowers.level.trans hraise.2⟩
  · cases h
    exact ⟨rfl, le_max_left _ _⟩

theorem lowers_sklistDelete {k : Option K} {res : ℤ} {u : Sklist K O}
    (h : s.sklistDelete k = some (res, u)) : Lowers s u := by
  unfold sklistDelete at h
  split at h
  · obtain ⟨s₁, h₁, h⟩ := Option.bind_eq_some_iff.1 h
    cases h
    exact lowers_deleteLoop h₁
  · cases h
    exact Lowers.refl s

/-- In every list that is reached, whatever order of the keys the user sets, `level` is within the
number of levels. -/
theorem Reach.level_le {allowed : Sklist K O → K → Prop} (h : Reach cmp key allowed s) :
    0 < s.maxLevel ∧ s.level ≤ s.maxLevel := by
  induction h with
  | @init maxLevel mallocList head s destroy hinit =>
      unfold sklistInit at hinit
      split_ifs at hinit with hneg
      cases head with
      | none => cases hinit
      | some p =>
          cases hinit
          have hpos : 0 < maxLevel.toNat := by omega
          exact ⟨hpos, Nat.zero_le _⟩
  | insert hs hpos hmax hcall ih =>
      obtain ⟨hmaxLevel, hlevel⟩ := level_sklistInsert hcall
      rw [hmaxLevel]
      exact ⟨ih.1, hlevel.trans (max_le ih.2 hmax)⟩
  | delete hs hallowed hcall ih =>
      have hlowers := lowers_sklistDelete hcall
      rw [hlowers.maxLevel]
      exact ⟨ih.1, hlowers.level.trans ih.2⟩

/-! ### Results -/

/-- On every list that `sklist_init` and any calls lead to, a height is drawn without a fault
exactly if the list has at most 31 levels or `t` is at least 2. -/
theorem drawsWell_iff (h : Reach cmp key (fun _ _ => True) s) (t : ℤ) :
    DrawsWell s t ↔ s.maxLevel ≤ 31 ∨ 2 ≤ t := by
  obtain ⟨hpos, hlevel⟩ := h.level_le
  constructor
  · rintro ⟨i, js, u, hdraw, hpowers, -, -⟩
    by_contra hsafe
    rw [not_or] at hsafe
    obtain ⟨r, hrun, heq⟩ := Option.map_eq_some_iff.1 hdraw
    cases heq
    have htwo : (2 : ℤ) = addInt (2 ^ (1 - 1)) (2 ^ (1 - 1)) := by decide
    have hover := randLoop_overflow (by omega) (Nat.le_refl 1) (by decide) (by omega) htwo hrun
    exact absurd (hpowers _ _ hover) (by decide)
  · intro hsafe
    have hgo : ∀ k, 1 ≤ k → k < 1 → ¬ Leaves s.maxLevel t k := by
      intro k hk hk1
      exact absurd hk1 (Nat.not_lt.2 hk)
    have hfuel : s.maxLevel < 1 + s.maxLevel := Nat.lt_add_of_pos_left Nat.one_pos
    obtain ⟨i, js, hrun, hpowers, hleast⟩ := randLoop_leastHeight hsafe (Nat.le_refl 1) hpos hfuel
      hgo fun _ => (pow_one (2 : ℤ)).symm
    refine ⟨i, js, s.raiseLevel i, ?_, hpowers, hleast, ?_, ?_, ?_⟩
    · rw [randLevel, hrun]
      rfl
    · rw [raiseLevel_eq]
      exact le_max_right _ _
    · rw [raiseLevel_eq]
      exact max_le hlevel hleast.le
    · rw [raiseLevel_eq]

/-- With 40 levels and the value 2 of `rand`, the height 30 is drawn. -/
theorem drawsWell_two :
    ∃ s : Sklist ℤ ℤ, sklistInit 40 true (some 0) = some s ∧
      DrawsWell (s.setFunctions (fun a b => a - b) (fun a => a) true) 2 ∧
      ((s.setFunctions (fun a b => a - b) (fun a => a) true).randLevel 2).map (fun r => r.1) =
        some 30 := by
  obtain ⟨s, hs⟩ : ∃ s : Sklist ℤ ℤ, sklistInit 40 true (some 0) = some s := ⟨_, rfl⟩
  have hdraw : ((sklistInit 40 true (some 0)).bind fun s : Sklist ℤ ℤ =>
      (s.setFunctions (fun a b => a - b) (fun a => a) true).randLevel 2).map (fun r => r.1) =
        some 30 := by
    decide +kernel
  rw [hs, Option.bind_some] at hdraw
  have hreach : Reach (fun a b => a - b) (fun a : ℤ => a) (fun _ _ => True)
      (s.setFunctions (fun a b => a - b) (fun a => a) true) := Reach.init true hs
  exact ⟨s, hs, (drawsWell_iff hreach 2).2 (Or.inr (by decide)), hdraw⟩

/-- With 33 levels and the value 0 of `rand`, `RAND_MAX` is divided by zero. -/
theorem not_drawsWell_zero :
    ∃ s : Sklist ℤ ℤ, sklistInit 33 true (some 0) = some s ∧
      (s.setFunctions (fun a b => a - b) (fun a => a) true).randLevel 0 = none ∧
      ¬ DrawsWell (s.setFunctions (fun a b => a - b) (fun a => a) true) 0 := by
  obtain ⟨s, hs⟩ : ∃ s : Sklist ℤ ℤ, sklistInit 33 true (some 0) = some s := ⟨_, rfl⟩
  have hnone : ((sklistInit 33 true (some 0)).bind fun s : Sklist ℤ ℤ =>
      (s.setFunctions (fun a b => a - b) (fun a => a) true).randLevel 0) = none := by
    decide +kernel
  rw [hs, Option.bind_some] at hnone
  refine ⟨s, hs, hnone, ?_⟩
  rintro ⟨i, js, u, hdraw, -⟩
  rw [hnone] at hdraw
  cases hdraw

end Sklist

end Miscellany
