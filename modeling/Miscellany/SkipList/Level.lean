import Miscellany.SkipList.Calls

/-!
# The number of levels in use

The field `level` is raised by `rand_level`, which draws the height of a new node before the
node is allocated, and lowered by `sklist_delete` for each level list that becomes empty. An
insertion that gets no memory after it has drawn a height above `level` returns -1 and leaves
`level` too large, and no later call makes up for it.

So over a run of calls `level` is the number of the level lists that are not empty, and a
failed insertion changes nothing, exactly when no failed insertion draws a height above
`level`.
-/

namespace Miscellany

/-- A call, with the height that `rand_level` draws and the answer of `malloc`. -/
inductive SkOp (K O : Type) where
  | insert (obj : Option O) (height : ℕ) (malloc : Option NodeId)
  | delete (key : Option K)

namespace Sklist

variable {K O : Type} {s t : Sklist K O} {L : ℕ → List NodeId}
variable {cmp : K → K → ℤ} {key : O → K}

/-! ### Runs of calls -/

def runOp (s : Sklist K O) : SkOp K O → Option (ℤ × Sklist K O)
  | .insert obj height malloc => s.sklistInsert obj height malloc
  | .delete key => s.sklistDelete key

/-- The height is one that `rand_level` can draw. -/
def CanDraw (maxLevel : ℕ) : SkOp K O → Prop
  | .insert _ height _ => 1 ≤ height ∧ height ≤ maxLevel
  | .delete _ => True

/-- The number of the level lists that are not empty. -/
def usedLevels (s : Sklist K O) : ℕ :=
  (List.range s.maxLevel).countP fun i => s.levelNodes i != some []

/-- The links, the size and the level are the same. -/
structure Unchanged (s t : Sklist K O) : Prop where
  head : t.head = s.head
  node : t.node = s.node
  heap : t.heap = s.heap
  size : t.size = s.size
  level : t.level = s.level

/-- An insertion that returned -1 has changed nothing. -/
def FailsClean (s t : Sklist K O) (res : ℤ) : SkOp K O → Prop
  | .insert _ _ _ => res = -1 → Unchanged s t
  | .delete _ => True

/-- In the run of the calls from `s` on, every call returns, an insertion that fails changes
nothing, and `level` is exact after every call. -/
def ExactRun (s : Sklist K O) : List (SkOp K O) → Prop
  | [] => True
  | op :: ops => ∃ res t, s.runOp op = some (res, t) ∧ FailsClean s t res op ∧
      t.level = t.usedLevels ∧ ExactRun t ops

/-- If the call is an insertion that gets no memory, it draws no height above `level`. -/
def Modest (s : Sklist K O) : SkOp K O → Prop
  | .insert (some o) height malloc =>
      s.newNode malloc (some o) height = none → height ≤ s.level
  | _ => True

/-- All calls of the run are modest in the list in which they are made. -/
def ModestRun (s : Sklist K O) : List (SkOp K O) → Prop
  | [] => True
  | op :: ops => s.Modest op ∧ ∀ res t, s.runOp op = some (res, t) → ModestRun t ops

/-! ### One call -/

/-- The list and its level lists, where `level` is exact. -/
structure Tight (s : Sklist K O) (cmp : K → K → ℤ) (key : O → K) (L : ℕ → List NodeId) :
    Prop where
  represents : Represents s cmp key L
  pos : 0 < s.maxLevel
  headObj : (s.node s.head).obj = none

theorem Tight.loose (h : Tight s cmp key L) : Loose s cmp key L :=
  h.represents.loose h.pos h.headObj

theorem Tight.usedLevels (h : Tight s cmp key L) : s.usedLevels = s.level := by
  have hused : ∀ i ∈ List.range s.maxLevel,
      (s.levelNodes i != some []) = true ↔ decide (i < s.level) = true := by
    intro i hi
    rw [h.loose.levelNodes (List.mem_range.1 hi), bne_iff_ne, decide_eq_true_iff, ne_eq,
      Option.some.injEq]
    exact h.represents.nonempty i
  rw [Sklist.usedLevels, List.countP_congr hused]
  have hle := h.represents.levelLe
  obtain ⟨m, hm⟩ := Nat.exists_eq_add_of_le hle
  rw [hm, List.range_add, List.countP_append, List.countP_map]
  have hlow : (List.range s.level).countP (fun i => decide (i < s.level)) = s.level := by
    rw [List.countP_eq_length.2, List.length_range]
    intro i hi
    exact decide_eq_true (List.mem_range.1 hi)
  have hhigh : (List.range m).countP ((fun i => decide (i < s.level)) ∘ (s.level + ·)) = 0 := by
    rw [List.countP_eq_zero]
    intro i _
    simp
  rw [hlow, hhigh, Nat.add_zero]

theorem Tight.insert (hcmp : Comparator cmp) (h : Tight s cmp key L) (o : O) {height : ℕ}
    (hpos : 1 ≤ height) (hmax : height ≤ s.maxLevel) {new : NodeId} (hnew : new ∉ s.heap) :
    ∃ t L', s.sklistInsert (some o) height (some new) = some (0, t) ∧ Tight t cmp key L' ∧
      t.maxLevel = s.maxLevel := by
  obtain ⟨t, ht, hlevel, hrep, honly⟩ :=
    h.represents.sklistInsert_raised hcmp o h.represents.levelLe hpos hmax hnew
  have hmaxLevel : t.maxLevel = s.maxLevel := honly.maxLevel
  have hhead : t.head = s.head := honly.head
  rw [← hlevel] at hrep
  refine ⟨t, _, ht, ⟨hrep, ?_, ?_⟩, hmaxLevel⟩
  · rw [hmaxLevel]
    exact h.pos
  · have hne : s.head ≠ new := fun heq => hnew (heq ▸ h.represents.headMem)
    rw [hhead, ← h.headObj]
    exact (honly.obj s.head).trans (by rw [withNode_node_of_ne hne])

theorem Tight.delete (hcmp : Comparator cmp) (h : Tight s cmp key L) (k : K) :
    ∃ t L', s.sklistDelete (some k) = some (0, t) ∧ Tight t cmp key L' ∧
      t.maxLevel = s.maxLevel := by
  obtain ⟨t, ht, hrep, hfreed⟩ := h.represents.sklistDelete hcmp k
  refine ⟨t, _, ht, ⟨hrep, ?_, ?_⟩, hfreed.maxLevel⟩
  · rw [hfreed.maxLevel]
    exact h.pos
  · rw [hfreed.head, hfreed.obj]
    exact h.headObj

theorem newNode_raiseLevel_eq_none {malloc : Option NodeId} {o : O} {height : ℕ}
    (hno : s.newNode malloc (some o) height = none) :
    (s.raiseLevel height).newNode malloc (some o) height = none := by
  have hheap : (s.raiseLevel height).heap = s.heap := by rw [raiseLevel_eq]
  cases malloc with
  | none => rfl
  | some p =>
      by_cases hp : p ∈ s.heap
      · simp only [newNode, hheap, if_pos hp]
      · simp only [newNode, if_neg hp] at hno
        cases hno

/-- What a call can do: it succeeds, it changes nothing, or it is an insertion without memory. -/
theorem Tight.runOp_cases (hcmp : Comparator cmp) (h : Tight s cmp key L) {op : SkOp K O}
    (hdraw : CanDraw s.maxLevel op) :
    (∃ t L', s.runOp op = some (0, t) ∧ Tight t cmp key L' ∧ t.maxLevel = s.maxLevel ∧
      s.Modest op) ∨
    (s.runOp op = some (-1, s) ∧ s.Modest op) ∨
    ∃ o height malloc, op = .insert (some o) height malloc ∧
      s.newNode malloc (some o) height = none ∧ s.runOp op = some (-1, s.raiseLevel height) := by
  cases op with
  | insert obj height malloc =>
      cases obj with
      | none => exact Or.inr (Or.inl ⟨rfl, trivial⟩)
      | some o =>
          cases hno : s.newNode malloc (some o) height with
          | none =>
              refine Or.inr (Or.inr ⟨o, height, malloc, rfl, hno, ?_⟩)
              simp only [runOp, sklistInsert, h.represents.getKey, h.represents.cmpKey,
                newNode_raiseLevel_eq_none hno]
          | some r =>
              have hfree : ∃ new, malloc = some new ∧ new ∉ s.heap := by
                unfold newNode at hno
                split at hno
                · cases hno
                · split_ifs at hno with hmem
                  exact ⟨_, rfl, hmem⟩
              obtain ⟨new, rfl, hnew⟩ := hfree
              obtain ⟨t, L', ht, htight, hmax⟩ := h.insert hcmp o hdraw.1 hdraw.2 hnew
              refine Or.inl ⟨t, L', ht, htight, hmax, fun hnone => ?_⟩
              rw [hno] at hnone
              cases hnone
  | delete k =>
      cases k with
      | none => exact Or.inr (Or.inl ⟨rfl, trivial⟩)
      | some k =>
          obtain ⟨t, L', ht, htight, hmax⟩ := h.delete hcmp k
          exact Or.inl ⟨t, L', ht, htight, hmax, trivial⟩

/-! ### Results -/

/-- A run from a list in which `level` is exact. -/
theorem Tight.exactRun_iff (hcmp : Comparator cmp) (h : Tight s cmp key L)
    {ops : List (SkOp K O)} (hdraw : ∀ op ∈ ops, CanDraw s.maxLevel op) :
    ExactRun s ops ↔ ModestRun s ops := by
  induction ops generalizing s L with
  | nil => exact Iff.rfl
  | cons op ops ih =>
      rw [List.forall_mem_cons] at hdraw
      -- After a call that returns an exact list the rest of the run decides.
      have hnext : ∀ {res : ℤ} {t : Sklist K O} {L' : ℕ → List NodeId},
          s.runOp op = some (res, t) → Tight t cmp key L' → t.maxLevel = s.maxLevel →
          FailsClean s t res op → s.Modest op →
          (ExactRun s (op :: ops) ↔ ModestRun s (op :: ops)) := by
        intro res t L' hrun htight hmax hclean hmodest
        have hrest := ih htight (hmax ▸ hdraw.2)
        constructor
        · rintro ⟨res', t', hrun', -, -, hexact⟩
          rw [hrun, Option.some.injEq, Prod.mk.injEq] at hrun'
          refine ⟨hmodest, fun res'' t'' hrun'' => ?_⟩
          rw [hrun, Option.some.injEq, Prod.mk.injEq] at hrun''
          rw [← hrun''.2]
          exact hrest.1 (hrun'.2 ▸ hexact)
        · rintro ⟨-, hmodestRest⟩
          exact ⟨res, t, hrun, hclean, htight.usedLevels.symm, hrest.2 (hmodestRest res t hrun)⟩
      have hsame : Unchanged s s := ⟨rfl, rfl, rfl, rfl, rfl⟩
      rcases h.runOp_cases hcmp hdraw.1 with
        ⟨t, L', hrun, htight, hmax, hmodest⟩ | ⟨hrun, hmodest⟩ | ⟨o, height, malloc, rfl, hno, hrun⟩
      · apply hnext hrun htight hmax _ hmodest
        cases op with
        | insert obj height malloc => exact fun hres => absurd hres (by decide)
        | delete k => trivial
      · apply hnext hrun h rfl _ hmodest
        cases op with
        | insert obj height malloc => exact fun _ => hsame
        | delete k => trivial
      · by_cases hheight : height ≤ s.level
        · have hraise : s.raiseLevel height = s := by
            rw [raiseLevel_eq, max_eq_left hheight]
          rw [hraise] at hrun
          exact hnext hrun h rfl (fun _ => hsame) fun _ => hheight
        · apply iff_of_false
          · rintro ⟨res, t, hrun', hclean, -, -⟩
            rw [hrun, Option.some.injEq, Prod.mk.injEq] at hrun'
            have hlevel := (hclean hrun'.1.symm).level
            rw [← hrun'.2, raiseLevel_eq] at hlevel
            exact hheight (max_eq_left_iff.1 hlevel)
          · rintro ⟨hmodest, -⟩
            exact hheight (hmodest hno)

/-- In every run of calls from `sklist_init`, failed insertions change nothing and `level` is exact
after every call, exactly if no insertion that gets no memory draws a height above `level`. -/
theorem exactRun_iff_modestRun (hcmp : Comparator cmp) {maxLevel : ℤ} {mallocList : Bool}
    {head : Option NodeId} (hinit : sklistInit maxLevel mallocList head = some s) (destroy : Bool)
    {ops : List (SkOp K O)} (hdraw : ∀ op ∈ ops, CanDraw s.maxLevel op) :
    ExactRun (s.setFunctions cmp key destroy) ops ↔
      ModestRun (s.setFunctions cmp key destroy) ops := by
  obtain ⟨hrep, hpos⟩ := represents_init cmp key hinit destroy
  have hobj : (s.node s.head).obj = none := by
    unfold sklistInit at hinit
    split_ifs at hinit
    cases head with
    | none => cases hinit
    | some p => rw [← Option.some.inj hinit]
  have htight : Tight (s.setFunctions cmp key destroy) cmp key fun _ => [] := ⟨hrep, hpos, hobj⟩
  exact htight.exactRun_iff hcmp hdraw

/-- An insertion of height 2, one that gets no memory for height 1, and a deletion. -/
theorem exactRun_lowFailure :
    ∃ s : Sklist ℤ (ℤ × ℤ), sklistInit 3 true (some 0) = some s ∧
      ExactRun (s.setFunctions (fun a b => a - b) Prod.fst true)
        [.insert (some (1, 0)) 2 (some 1), .insert (some (2, 0)) 1 none, .delete (some 1)] := by
  have hlevel : ((sklistInit 3 true (some 0)).bind fun s : Sklist ℤ (ℤ × ℤ) =>
      (s.setFunctions (fun a b => a - b) Prod.fst true).sklistInsert (some (1, 0)) 2
        (some 1)).map (fun r => r.2.level) = some 2 := by
    decide +kernel
  obtain ⟨s, hs⟩ : ∃ s : Sklist ℤ (ℤ × ℤ), sklistInit 3 true (some 0) = some s := ⟨_, rfl⟩
  have hmax : s.maxLevel = 3 := by
    rw [← Option.some.inj hs]
    rfl
  have hheap : s.heap = [0] := by rw [← Option.some.inj hs]
  rw [hs, Option.bind_some] at hlevel
  refine ⟨s, hs, (exactRun_iff_modestRun comparator_sub hs true ?_).2 ?_⟩
  · rw [hmax]
    simp [CanDraw]
  · refine ⟨fun hno => ?_, fun res t hrun => ⟨fun _ => ?_, fun _ _ _ => ⟨trivial, ?_⟩⟩⟩
    · simp [newNode, setFunctions, hheap] at hno
    · rw [runOp] at hrun
      rw [hrun, Option.map_some, Option.some.injEq] at hlevel
      rw [hlevel]
      decide
    · exact fun _ _ _ => trivial

/-- An insertion that gets no memory for height 2 leaves two levels in use, and no node. -/
theorem not_exactRun_highFailure :
    ∃ s : Sklist ℤ (ℤ × ℤ), sklistInit 2 true (some 0) = some s ∧
      ¬ ExactRun (s.setFunctions (fun a b => a - b) Prod.fst true)
        [.insert (some (1, 0)) 2 none] ∧
      ∃ t, (s.setFunctions (fun a b => a - b) Prod.fst true).runOp (.insert (some (1, 0)) 2 none) =
        some (-1, t) ∧ t.level = 2 ∧ t.usedLevels = 0 := by
  refine ⟨_, rfl, ?_, _, rfl, rfl, by decide +kernel⟩
  rintro ⟨res, t, hrun, -, hlevel, -⟩
  have hcall : some ((-1 : ℤ), _) = some (res, t) := hrun
  rw [Option.some.injEq, Prod.mk.injEq] at hcall
  rw [← hcall.2] at hlevel
  exact absurd hlevel (by decide +kernel)

end Sklist

end Miscellany
