import Miscellany.SkipList.Reachable
import Miscellany.SkipList.Search

/-!
# The skip list under any calls

A call of `sklist_insert` that gets no memory returns -1, but `rand_level` has raised `level`
by then. So `level` may be greater than the number of the level lists that are not empty,
and a deletion, which decrements it once for each list that becomes empty, does not make up
for this. `Loose` is the representation invariant without that count, and it holds of every
list that calls of any kind reach from `sklist_init` (`Reach.loose`), however `Reach` bounds
the deletions.

Of all these lists a search gives the answer of a linear scan of the bottom list.
-/

namespace Miscellany

namespace Sklist

variable {K O : Type} {s t : Sklist K O} {L : ℕ → List NodeId}
variable {cmp : K → K → ℤ} {key : O → K}

/-! ### The invariant without the number of levels -/

/-- The skip list has the level lists `L`, of which not more than `level` are not empty. -/
structure Loose (s : Sklist K O) (cmp : K → K → ℤ) (key : O → K) (L : ℕ → List NodeId) :
    Prop where
  pos : 0 < s.maxLevel
  levelLe : s.level ≤ s.maxLevel
  headObj : (s.node s.head).obj = none
  represents : ∃ n ≤ s.level, Represents { s with level := n } cmp key L

theorem Represents.loose (h : Represents s cmp key L) (hpos : 0 < s.maxLevel)
    (hhead : (s.node s.head).obj = none) : Loose s cmp key L :=
  ⟨hpos, h.levelLe, hhead, s.level, le_rfl, h⟩

theorem Loose.linked (h : Loose s cmp key L) : Linked s L := by
  obtain ⟨n, -, hrep⟩ := h.represents
  exact hrep.toLinked.setLevel s.level

theorem Loose.sublist_bottom (h : Loose s cmp key L) (i : ℕ) : (L i).Sublist (L 0) := by
  obtain ⟨n, -, hrep⟩ := h.represents
  exact hrep.sublist_bottom i

theorem Loose.length_lt (h : Loose s cmp key L) (i : ℕ) : (L i).length < s.heap.length := by
  obtain ⟨n, -, hrep⟩ := h.represents
  exact hrep.length_lt i

theorem Loose.heap (h : Loose s cmp key L) : s.heap.Perm (s.head :: L 0) := by
  obtain ⟨n, -, hrep⟩ := h.represents
  exact hrep.heap

theorem Loose.size (h : Loose s cmp key L) : s.size = (L 0).length := by
  obtain ⟨n, -, hrep⟩ := h.represents
  exact hrep.size

theorem Loose.eq_nil (h : Loose s cmp key L) {i : ℕ} (hi : s.maxLevel ≤ i) : L i = [] := by
  obtain ⟨n, hn, hrep⟩ := h.represents
  by_contra hne
  have hlt : i < n := (hrep.nonempty i).1 hne
  have hle := h.levelLe
  omega

/-- Raising `level` to the height that `rand_level` draws. -/
theorem Loose.raiseLevel (h : Loose s cmp key L) {height : ℕ} (hmax : height ≤ s.maxLevel) :
    Loose (s.raiseLevel height) cmp key L := by
  obtain ⟨n, hn, hrep⟩ := h.represents
  rw [raiseLevel_eq]
  exact ⟨h.pos, max_le h.levelLe hmax, h.headObj, n, hn.trans (le_max_left _ _), hrep⟩

/-- Inserting with an address that is free. -/
theorem Loose.sklistInsert (hcmp : Comparator cmp) (h : Loose s cmp key L) (o : O) {height : ℕ}
    (hpos : 1 ≤ height) (hmax : height ≤ s.maxLevel) {new : NodeId} (hnew : new ∉ s.heap) :
    ∃ t, s.sklistInsert (some o) height (some new) = some (0, t) ∧
      Loose t cmp key
        (insertLists (s.keySatisfies key fun k => cmp (key o) k < 0) new height L) ∧
      LinksOnly (s.withNode new o height) { t with size := s.size } := by
  obtain ⟨n, hn, hrep⟩ := h.represents
  obtain ⟨t, ht, hlevel, hrep', honly⟩ :=
    hrep.sklistInsert_raised hcmp o h.levelLe hpos hmax hnew
  have hmaxLevel : t.maxLevel = s.maxLevel := honly.maxLevel
  have hhead : t.head = s.head := honly.head
  refine ⟨t, ht, ⟨?_, ?_, ?_, max n height, ?_, hrep'⟩, honly⟩
  · rw [hmaxLevel]
    exact h.pos
  · rw [hlevel, hmaxLevel]
    exact max_le h.levelLe hmax
  · have hne : s.head ≠ new := fun heq => hnew (heq ▸ hrep.headMem)
    rw [hhead, ← h.headObj]
    exact (honly.obj s.head).trans (by rw [withNode_node_of_ne hne])
  · rw [hlevel]
    exact max_le_max_right height hn

theorem Loose.sklistDelete (hcmp : Comparator cmp) (h : Loose s cmp key L) (k : K) :
    ∃ t, s.sklistDelete (some k) = some (0, t) ∧
      Loose t cmp key (fun j => (L j).eraseP (s.hasKey cmp key k)) ∧
      Freed s t ((L 0).find? (s.hasKey cmp key k)) := by
  obtain ⟨n, hn, hrep⟩ := h.represents
  obtain ⟨t, ht, hlevel, hrep', hfreed⟩ := hrep.sklistDelete_raised hcmp hn h.levelLe k
  refine ⟨t, ht, ⟨?_, ?_, ?_, _, Nat.sub_le _ _, hrep'⟩, hfreed⟩
  · rw [hfreed.maxLevel]
    exact h.pos
  · rw [hfreed.maxLevel]
    exact hlevel.trans h.levelLe
  · rw [hfreed.head, hfreed.obj]
    exact h.headObj

/-! ### Level lists -/

/-- The nodes on the list of level `i`. -/
def levelNodes (s : Sklist K O) (i : ℕ) : Option (List NodeId) :=
  s.foreachLoop (fun p => s.readLink p i) s.heap.length (s.readLink s.head i)

theorem Loose.levelNodes (h : Loose s cmp key L) {i : ℕ} (hi : i < s.maxLevel) :
    s.levelNodes i = some (L i) := by
  have hwalk : Walk (fun p => s.readLink p i) s.head (L i) s.head := by
    apply (walk_congr _).2 (h.linked.walk i hi)
    intro p hp
    exact readLink_eq (h.linked.hasLink hi hp)
  exact foreachLoop_eq hwalk (List.nodup_cons.1 (h.linked.nodup i)).1 (h.length_lt i)

theorem Loose.sklistForeach (h : Loose s cmp key L) : s.sklistForeach = some (L 0) :=
  h.levelNodes h.pos

/-! ### Any calls -/

variable (cmp key) in
/-- The lists that `sklist_init`, with the functions set, and then any calls lead to, whatever they
return, where a deletion is made only if it is allowed. -/
inductive Reach (allowed : Sklist K O → K → Prop) : Sklist K O → Prop where
  | init {maxLevel : ℤ} {mallocList : Bool} {head : Option NodeId} {s : Sklist K O}
      (destroy : Bool) (hinit : sklistInit maxLevel mallocList head = some s) :
      Reach allowed (s.setFunctions cmp key destroy)
  | insert {s t : Sklist K O} (hs : Reach allowed s) {obj : Option O} {height : ℕ}
      {malloc : Option NodeId} {res : ℤ} (hpos : 1 ≤ height) (hmax : height ≤ s.maxLevel)
      (hcall : s.sklistInsert obj height malloc = some (res, t)) : Reach allowed t
  | delete {s t : Sklist K O} (hs : Reach allowed s) {k : Option K} {res : ℤ}
      (hallowed : ∀ a ∈ k, allowed s a) (hcall : s.sklistDelete k = some (res, t)) :
      Reach allowed t

/-- A run is one of these sequences of calls. -/
theorem Run.reach {calls : List (SklistCall K O)} (h : Run cmp key calls s) :
    Reach cmp key (fun _ _ => True) s := by
  induction h with
  | init destroy hinit => exact Reach.init destroy hinit
  | insert hs hpos hmax hcall ih => exact ih.insert hpos hmax hcall
  | delete hs hcall ih => exact ih.delete (fun _ _ => trivial) hcall

/-- What an insertion can do: nothing, raise `level`, or insert. -/
theorem Loose.sklistInsert_cases (h : Loose s cmp key L) {obj : Option O} {height : ℕ}
    {malloc : Option NodeId} {res : ℤ}
    (hcall : s.sklistInsert obj height malloc = some (res, t)) :
    t = s ∨ t = s.raiseLevel height ∨
      ∃ o new, obj = some o ∧ malloc = some new ∧ new ∉ s.heap := by
  obtain ⟨n, -, hrep⟩ := h.represents
  have hget : s.getKey = some key := hrep.getKey
  have hset : s.cmpKey = some cmp := hrep.cmpKey
  have hheap : (s.raiseLevel height).heap = s.heap := by rw [raiseLevel_eq]
  cases obj with
  | none =>
      simp only [Sklist.sklistInsert, Option.some.injEq, Prod.mk.injEq] at hcall
      exact Or.inl hcall.2.symm
  | some o =>
      simp only [Sklist.sklistInsert, hget, hset] at hcall
      cases malloc with
      | none =>
          simp only [newNode, Option.some.injEq, Prod.mk.injEq] at hcall
          exact Or.inr (Or.inl hcall.2.symm)
      | some new =>
          by_cases hnew : new ∈ s.heap
          · simp only [newNode, hheap, if_pos hnew, Option.some.injEq, Prod.mk.injEq] at hcall
            exact Or.inr (Or.inl hcall.2.symm)
          · exact Or.inr (Or.inr ⟨o, new, rfl, rfl, hnew⟩)

/-- The induction over the calls: what holds of the list that `sklist_init` makes and is kept by
each operation, given the level lists, holds of every list that is reached. -/
theorem Reach.exists_loose {allowed : Sklist K O → K → Prop}
    {motive : Sklist K O → (ℕ → List NodeId) → Prop} (hcmp : Comparator cmp)
    (hinit : ∀ s, motive s fun _ => [])
    (hraise : ∀ s L height, motive s L → motive (s.raiseLevel height) L)
    (hinsert : ∀ s t L o height new, Loose s cmp key L → motive s L → new ∉ s.heap →
      LinksOnly (s.withNode new o height) { t with size := s.size } →
      motive t (insertLists (s.keySatisfies key fun k => cmp (key o) k < 0) new height L))
    (hdelete : ∀ s t L k, Loose s cmp key L → motive s L → allowed s k →
      Freed s t ((L 0).find? (s.hasKey cmp key k)) →
      motive t fun j => (L j).eraseP (s.hasKey cmp key k))
    (h : Reach cmp key allowed s) : ∃ L, Loose s cmp key L ∧ motive s L := by
  induction h with
  | @init maxLevel mallocList head s destroy hcall =>
      obtain ⟨hrep, hpos⟩ := represents_init cmp key hcall destroy
      have hhead : (s.node s.head).obj = none := by
        unfold sklistInit at hcall
        split_ifs at hcall
        cases head with
        | none => cases hcall
        | some p => rw [← Option.some.inj hcall]
      exact ⟨_, hrep.loose hpos hhead, hinit _⟩
  | @insert s t hs obj height malloc res hpos hmax hcall ih =>
      obtain ⟨L, hloose, hmotive⟩ := ih
      rcases hloose.sklistInsert_cases hcall with rfl | rfl | ⟨o, new, rfl, rfl, hnew⟩
      · exact ⟨L, hloose, hmotive⟩
      · exact ⟨L, hloose.raiseLevel hmax, hraise s L height hmotive⟩
      · obtain ⟨t', hcall', hloose', honly⟩ := hloose.sklistInsert hcmp o hpos hmax hnew
        have heq : t' = t := by
          rw [hcall'] at hcall
          simp only [Option.some.injEq, Prod.mk.injEq] at hcall
          exact hcall.2
        subst heq
        exact ⟨_, hloose', hinsert s t' L o height new hloose hmotive hnew honly⟩
  | @delete s t hs k res hallowed hcall ih =>
      obtain ⟨L, hloose, hmotive⟩ := ih
      cases k with
      | none =>
          simp only [Sklist.sklistDelete, Option.some.injEq, Prod.mk.injEq] at hcall
          rw [← hcall.2]
          exact ⟨L, hloose, hmotive⟩
      | some k =>
          obtain ⟨t', hcall', hloose', hfreed⟩ := hloose.sklistDelete hcmp k
          have heq : t' = t := by
            rw [hcall'] at hcall
            simp only [Option.some.injEq, Prod.mk.injEq] at hcall
            exact hcall.2
          subst heq
          exact ⟨_, hloose', hdelete s t' L k hloose hmotive (hallowed k rfl) hfreed⟩

theorem Reach.loose {allowed : Sklist K O → K → Prop} (hcmp : Comparator cmp)
    (h : Reach cmp key allowed s) : ∃ L, Loose s cmp key L := by
  obtain ⟨L, hloose, -⟩ := h.exists_loose (motive := fun _ _ => True) hcmp (fun _ => trivial)
    (fun _ _ _ _ => trivial) (fun _ _ _ _ _ _ _ _ _ _ => trivial)
    (fun _ _ _ _ _ _ _ _ => trivial)
  exact ⟨L, hloose⟩

/-! ### Searching -/

/-- In every list, a search finds an object exactly if the bottom list has a node with an equal
key. It gives the object of such a node, with the node as `*pos`; otherwise `*pos` is the last node
of the bottom list with a smaller key, or the head. -/
theorem search_scan (hcmp : Comparator cmp) (h : Reach cmp key (fun _ _ => True) s) (k : K) :
    ∃ nodes obj pos, s.sklistForeach = some nodes ∧
      s.sklistSearchExt (some k) = some (obj, some pos) ∧ s.sklistSearch (some k) = some obj ∧
      (obj.isSome = true ↔ ∃ a ∈ s.objs nodes, cmp k (key a) = 0) ∧
      (∀ o, obj = some o → pos ∈ nodes ∧ (s.node pos).obj = some o ∧ cmp k (key o) = 0) ∧
      (obj = none →
        pos = (nodes.filter (s.keySatisfies key fun a => cmp a k < 0)).getLastD s.head) := by
  obtain ⟨L, hloose⟩ := h.loose hcmp
  obtain ⟨n, hn, hrep⟩ := hloose.represents
  have hforeach := hloose.sklistForeach
  have hkey : ∀ x o, (s.node x).obj = some o →
      (s.hasKey cmp key k x = true ↔ cmp k (key o) = 0) := by
    intro x o ho
    rw [hasKey, keySatisfies_eq ho, decide_eq_true_iff]
  rcases hrep.searchNode_raised hcmp hn hloose.levelLe k with
    ⟨x, hx, o, ho, hhas, hsearch⟩ | ⟨hmiss, hsearch⟩
  · have hcmp0 := (hkey x o ho).1 hhas
    refine ⟨L 0, some o, x, hforeach, hsearch, ?_, ?_, ?_, ?_⟩
    · rw [sklistSearch, hsearch, Option.map_some]
    · exact iff_of_true rfl ⟨o, List.mem_filterMap.2 ⟨x, hx, ho⟩, hcmp0⟩
    · intro o' ho'
      rw [← Option.some.inj ho']
      exact ⟨hx, ho, hcmp0⟩
    · intro hnone
      exact absurd hnone (Option.some_ne_none o)
  · refine ⟨L 0, none, _, hforeach, hsearch, ?_, ?_, ?_, fun _ => ?_⟩
    · rw [sklistSearch, hsearch, Option.map_some]
    · apply iff_of_false Bool.false_ne_true
      rintro ⟨a, ha, hzero⟩
      obtain ⟨x, hx, hobj⟩ := List.mem_filterMap.1 ha
      rw [← hkey x a hobj, hmiss x hx] at hzero
      cases hzero
    · intro o hnone
      exact absurd hnone.symm (Option.some_ne_none o)
    · congr 1
      apply List.filter_congr
      intro x hx
      obtain ⟨o, ho⟩ := Option.isSome_iff_exists.1 (hloose.linked.obj 0 x hx)
      rw [notBelow, keySatisfies_eq ho, keySatisfies_eq ho, ← decide_not, decide_eq_decide, not_le]
      exact (hcmp.neg_iff (key o) k).symm

theorem search_scan_sampleList :
    ∃ s, sampleList = some s ∧ s.sklistForeach = some [3, 2] ∧
      s.sklistSearchExt (some 2) = some (none, some 2) ∧
      2 = ([3, 2].filter (s.keySatisfies Prod.fst fun a => a - 2 < 0)).getLastD s.head ∧
      ∃ o pos, s.sklistSearchExt (some 1) = some (some o, some pos) ∧ pos ∈ [3, 2] ∧
        (s.node pos).obj = some o ∧ 1 - o.1 = 0 := by
  have hforeach : sampleList.bind Sklist.sklistForeach = some [3, 2] := by decide +kernel
  have hmiss : sampleList.bind (fun s => s.sklistSearchExt (some 2)) = some (none, some 2) := by
    decide +kernel
  have hhit : sampleList.bind (fun s => (s.sklistSearch (some 1)).map Option.isSome) =
      some true := by
    decide +kernel
  obtain ⟨s, hs, hforeach⟩ := Option.bind_eq_some_iff.1 hforeach
  rw [hs, Option.bind_some] at hmiss hhit
  have hreach := (run_sampleList hs).reach
  obtain ⟨nodes, obj, pos, hnodes, hsearch, -, -, -, hlast⟩ := search_scan comparator_sub hreach 2
  obtain ⟨nodes', obj', pos', hnodes', hsearch', hobj', -, hfound, -⟩ :=
    search_scan comparator_sub hreach 1
  rw [hforeach, Option.some.injEq] at hnodes hnodes'
  rw [hmiss, Option.some.injEq, Prod.mk.injEq, Option.some.injEq] at hsearch
  rw [← hnodes, ← hsearch.1, ← hsearch.2] at hlast
  rw [hobj', Option.map_some, Option.some.injEq, Option.isSome_iff_exists] at hhit
  obtain ⟨o, ho⟩ := hhit
  rw [ho] at hsearch'
  rw [← hnodes'] at hfound
  exact ⟨s, hs, hforeach, hmiss, hlast rfl, o, pos', hsearch', hfound o ho⟩

end Sklist

end Miscellany
