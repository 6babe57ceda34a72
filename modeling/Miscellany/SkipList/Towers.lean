import Miscellany.SkipList.Calls

/-!
# The towers of the skip list

A node of height `n` is linked on the levels below `n` when it is inserted. A deletion looks
for the key on each level anew. With equal keys it may meet another node on an upper level
than on the bottom one, and then that other node is unlinked there and stays in the list,
lower than its field `level` says.

So a deletion leaves every other node on its levels exactly when the node it frees, which is
the first one with the key, is on each level that has a node with the key (`FirstTallest`).
-/

namespace Miscellany

namespace Sklist

variable {K O : Type} {s t : Sklist K O} {L : ℕ → List NodeId}
variable {cmp : K → K → ℤ} {key : O → K} {k : K} {i : ℕ} {p : NodeId}

/-- The node is on the list of level `i`. -/
def OnLevel (s : Sklist K O) (i : ℕ) (p : NodeId) : Prop := ∃ nodes ∈ s.levelNodes i, p ∈ nodes

instance (s : Sklist K O) (i : ℕ) (p : NodeId) : Decidable (s.OnLevel i p) :=
  inferInstanceAs (Decidable (∃ nodes ∈ s.levelNodes i, p ∈ nodes))

/-- Every node that is live after the call is on the same level lists as before it. -/
def OthersKept (s t : Sklist K O) : Prop := ∀ p ∈ t.heap, ∀ i, t.OnLevel i p ↔ s.OnLevel i p

/-- Every live node is on the level lists below its height. -/
def FullTowers (s : Sklist K O) : Prop :=
  ∀ p ∈ s.heap, p ≠ s.head → ∀ i, s.OnLevel i p ↔ i < (s.node p).level

/-- The first node with the key is on every level list that has a node with the key. -/
def FirstTallest (cmp : K → K → ℤ) (key : O → K) (s : Sklist K O) (k : K) : Prop :=
  ∀ nodes ∈ s.sklistForeach, ∀ x ∈ nodes.find? (s.hasKey cmp key k), ∀ i < s.maxLevel,
    ∀ y ∈ nodes, s.hasKey cmp key k y = true → s.OnLevel i y → s.OnLevel i x

instance (cmp : K → K → ℤ) (key : O → K) (s : Sklist K O) (k : K) :
    Decidable (FirstTallest cmp key s k) :=
  inferInstanceAs (Decidable (∀ nodes ∈ s.sklistForeach, ∀ x ∈ nodes.find? _, ∀ i < s.maxLevel,
    ∀ y ∈ nodes, _ → _ → _))

/-! ### Level lists -/

theorem Loose.onLevel_iff (h : Loose s cmp key L) : s.OnLevel i p ↔ p ∈ L i := by
  by_cases hi : i < s.maxLevel
  · rw [OnLevel, h.levelNodes hi]
    constructor
    · rintro ⟨nodes, hnodes, hp⟩
      rw [Option.some.inj hnodes]
      exact hp
    · intro hp
      exact ⟨L i, rfl, hp⟩
  · have hnone : s.levelNodes i = none := by
      have hread : s.readLink s.head i = none := by
        apply if_neg
        rw [HasLink, h.linked.headLevel]
        exact fun hlink => hi hlink.2
      rw [Sklist.levelNodes, hread]
      cases s.heap.length with
      | zero => rfl
      | succ n => rfl
    rw [OnLevel, hnone, h.eq_nil (not_lt.1 hi)]
    apply iff_of_false
    · rintro ⟨nodes, hnodes, -⟩
      cases hnodes
    · exact List.not_mem_nil

/-- The condition, on the level lists. -/
theorem Loose.firstTallest_iff (h : Loose s cmp key L) :
    FirstTallest cmp key s k ↔ ∀ x, (L 0).find? (s.hasKey cmp key k) = some x →
      ∀ i, ∀ y ∈ L i, s.hasKey cmp key k y = true → x ∈ L i := by
  constructor
  · intro hfirst x hx i y hy hkey
    have hi : i < s.maxLevel := by
      by_contra hi
      rw [h.eq_nil (not_lt.1 hi)] at hy
      cases hy
    have hbottom := (h.sublist_bottom i).subset hy
    apply h.onLevel_iff.1
    exact hfirst (L 0) h.sklistForeach x hx i hi y hbottom hkey (h.onLevel_iff.2 hy)
  · intro hfirst nodes hnodes x hx i _ y _ hkey hy
    rw [h.sklistForeach, Option.mem_some_iff] at hnodes
    subst hnodes
    exact h.onLevel_iff.2 (hfirst x hx i y (h.onLevel_iff.1 hy) hkey)

theorem Loose.nodup (h : Loose s cmp key L) (i : ℕ) : (L i).Nodup :=
  (List.nodup_cons.1 (h.linked.nodup i)).2

/-- Where the first match is on every level with a match, each level list loses this node or
nothing. -/
theorem Loose.mem_eraseP_iff (h : Loose s cmp key L) {q : NodeId → Bool}
    (hfirst : ∀ x, (L 0).find? q = some x → ∀ i, ∀ y ∈ L i, q y = true → x ∈ L i)
    (hp : (L 0).find? q ≠ some p) : p ∈ (L i).eraseP q ↔ p ∈ L i := by
  cases hfind : (L i).find? q with
  | none => rw [List.eraseP_of_forall_not (List.find?_eq_none.1 hfind)]
  | some y =>
      have hy := List.mem_of_find?_eq_some hfind
      have hqy := List.find?_some hfind
      -- The bottom list has a match too, and its first one is the first one here.
      obtain ⟨x, hx⟩ : ∃ x, (L 0).find? q = some x := by
        apply Option.isSome_iff_exists.1
        exact List.find?_isSome.2 ⟨y, (h.sublist_bottom i).subset hy, hqy⟩
      have hfind' := find?_eq_some_of_sublist (h.sublist_bottom i) (h.nodup 0) hx
        (hfirst x hx i y hy hqy)
      have hne : p ≠ x := fun heq => hp (heq ▸ hx)
      rw [mem_eraseP_iff_of_find? (h.nodup i) hfind', and_iff_left hne]

/-! ### One deletion -/

/-- The nodes that are live after a deletion. -/
theorem Loose.mem_heap_freed (h : Loose s cmp key L) {gone : Option NodeId}
    (hfreed : Freed s t gone) (hgone : ∀ x, gone = some x → x ∈ L 0) :
    p ∈ t.heap ↔ p ∈ s.heap ∧ gone ≠ some p := by
  have hnodup : s.heap.Nodup := h.heap.nodup_iff.2 (h.linked.nodup 0)
  rw [hfreed.heap]
  cases gone with
  | none => simp
  | some x =>
      change p ∈ s.heap.erase x ↔ _
      rw [hnodup.mem_erase_iff, and_comm, ne_eq, ne_eq, Option.some.injEq, eq_comm]

/-- A deletion keeps all other nodes on their levels exactly if the first node with the key is on
each level that has one. -/
theorem Loose.othersKept_iff (h : Loose s cmp key L)
    (h' : Loose t cmp key fun j => (L j).eraseP (s.hasKey cmp key k))
    (hfreed : Freed s t ((L 0).find? (s.hasKey cmp key k))) :
    OthersKept s t ↔ FirstTallest cmp key s k := by
  set q := s.hasKey cmp key k with hq
  have hlive : ∀ p, p ∈ t.heap ↔ p ∈ s.heap ∧ (L 0).find? q ≠ some p := fun p =>
    h.mem_heap_freed hfreed fun x hx => List.mem_of_find?_eq_some hx
  rw [h.firstTallest_iff]
  constructor
  · intro hkept x hx i y hy hqy
    obtain ⟨z, hz⟩ : ∃ z, (L i).find? q = some z := by
      apply Option.isSome_iff_exists.1
      exact List.find?_isSome.2 ⟨y, hy, hqy⟩
    have hzmem := List.mem_of_find?_eq_some hz
    -- If the first match of the level is another node, it is live and not on the level any more.
    by_contra hxi
    have hne : x ≠ z := fun heq => hxi (heq ▸ hzmem)
    have hzheap : z ∈ t.heap := by
      apply (hlive z).2
      refine ⟨h.linked.mem_heap (List.mem_cons_of_mem s.head hzmem), ?_⟩
      rw [hx]
      exact fun heq => hne (Option.some.inj heq)
    have hgone := (hkept z hzheap i).2 (h.onLevel_iff.2 hzmem)
    rw [h'.onLevel_iff, mem_eraseP_iff_of_find? (h.nodup i) hz] at hgone
    exact hgone.2 rfl
  · intro hfirst p hp i
    rw [h'.onLevel_iff, h.onLevel_iff]
    exact h.mem_eraseP_iff hfirst ((hlive p).1 hp).2

/-! ### Whole runs -/

/-- The level lists are those of full towers. -/
def Tall (s : Sklist K O) (L : ℕ → List NodeId) : Prop :=
  ∀ p ∈ L 0, ∀ i, p ∈ L i ↔ i < (s.node p).level

theorem Tall.insertLists (h : Tall s L) (hloose : Loose s cmp key L) {o : O} {height : ℕ}
    {new : NodeId} (hnew : new ∉ s.heap)
    (honly : LinksOnly (s.withNode new o height) { t with size := s.size }) (f : NodeId → Bool) :
    Tall t (insertLists f new height L) := by
  have hlevel : ∀ p, (t.node p).level = ((s.withNode new o height).node p).level := honly.level
  have hfresh : ∀ i, new ∉ L i := fun i hmem =>
    hnew (hloose.linked.mem_heap (List.mem_cons_of_mem s.head hmem))
  have hmem : ∀ p i,
      p ∈ Sklist.insertLists f new height L i ↔ (p = new ∧ i < height) ∨ p ∈ L i := by
    intro p i
    unfold Sklist.insertLists
    split_ifs with hi
    · rw [mem_insertBefore]
      simp [hi]
    · simp [hi]
  intro p hp i
  rw [hmem, hlevel]
  rcases (hmem p 0).1 hp with ⟨rfl, -⟩ | hp
  · rw [withNode_node_self]
    simp [hfresh i]
  · have hne : p ≠ new := fun heq => hfresh 0 (heq ▸ hp)
    rw [withNode_node_of_ne hne, ← h p hp i]
    simp [hne]

theorem Tall.eraseP (h : Tall s L) (hloose : Loose s cmp key L)
    (hfirst : FirstTallest cmp key s k)
    (hfreed : Freed s t ((L 0).find? (s.hasKey cmp key k))) :
    Tall t fun j => (L j).eraseP (s.hasKey cmp key k) := by
  intro p hp i
  have hbottom := List.mem_of_mem_eraseP hp
  have hne : (L 0).find? (s.hasKey cmp key k) ≠ some p := by
    intro hfind
    exact ((mem_eraseP_iff_of_find? (hloose.nodup 0) hfind).1 hp).2 rfl
  rw [hloose.mem_eraseP_iff (hloose.firstTallest_iff.1 hfirst) hne, hfreed.height]
  exact h p hbottom i

/-- In a run where every deletion meets the condition all towers are full. -/
theorem Reach.fullTowers (hcmp : Comparator cmp) (h : Reach cmp key (FirstTallest cmp key) s) :
    s.FullTowers := by
  obtain ⟨L, hloose, htall⟩ := h.exists_loose (motive := Tall) hcmp (fun s p hp => by cases hp)
    (fun s L height hs => by rw [raiseLevel_eq]; exact hs)
    (fun s t L o height new hloose hs hnew honly => hs.insertLists hloose hnew honly _)
    (fun s t L k hloose hs hfirst hfreed => hs.eraseP hloose hfirst hfreed)
  intro p hp hne i
  have hbottom : p ∈ L 0 := List.mem_of_ne_of_mem hne (hloose.heap.mem_iff.1 hp)
  rw [hloose.onLevel_iff]
  exact htall p hbottom i

/-! ### Two equal keys -/

/-- An insertion does not change `max_level`. -/
theorem Loose.insert_maxLevel (hcmp : Comparator cmp) (h : Loose s cmp key L) {o : O}
    {height : ℕ} {malloc : Option NodeId} {res : ℤ} (hpos : 1 ≤ height)
    (hmax : height ≤ s.maxLevel)
    (hcall : s.sklistInsert (some o) height malloc = some (res, t)) :
    t.maxLevel = s.maxLevel := by
  rcases h.sklistInsert_cases hcall with rfl | rfl | ⟨o', new, ho, rfl, hnew⟩
  · rfl
  · rw [raiseLevel_eq]
  · obtain ⟨t', hcall', -, honly⟩ := h.sklistInsert hcmp o hpos hmax hnew
    rw [hcall', Option.some.injEq, Prod.mk.injEq] at hcall
    rw [← hcall.2]
    exact honly.maxLevel

/-- Two objects with the key 1, of the given heights. -/
def twoEqual (first second : ℕ) : Option (Sklist ℤ (ℤ × ℤ)) := do
  let s ← sklistInit 2 true (some 0)
  let s := s.setFunctions (fun a b => a - b) Prod.fst true
  let s ← succeed (s.sklistInsert (some (1, 0)) first (some 1))
  succeed (s.sklistInsert (some (1, 1)) second (some 2))

theorem reach_twoEqual {first second : ℕ} (hpos : 1 ≤ first) (hmax : first ≤ 2)
    (hpos' : 1 ≤ second) (hmax' : second ≤ 2) {s : Sklist ℤ (ℤ × ℤ)}
    (h : twoEqual first second = some s) (allowed : Sklist ℤ (ℤ × ℤ) → ℤ → Prop) :
    Reach (fun a b => a - b) Prod.fst allowed s := by
  simp only [twoEqual, Option.bind_eq_bind, Option.bind_eq_some_iff] at h
  obtain ⟨s₀, h₀, s₁, h₁, h₂⟩ := h
  have hreach₀ : Reach (fun a b : ℤ => a - b) Prod.fst allowed _ := Reach.init true h₀
  have hlevel₀ : s₀.maxLevel = 2 := by rw [← Option.some.inj h₀]; rfl
  obtain ⟨L, hloose⟩ := hreach₀.loose comparator_sub
  have hlevel₁ := hloose.insert_maxLevel comparator_sub hpos (hlevel₀ ▸ hmax) (succeed_eq_some h₁)
  have hreach₁ := hreach₀.insert hpos (hlevel₀ ▸ hmax) (succeed_eq_some h₁)
  apply hreach₁.insert hpos' _ (succeed_eq_some h₂)
  rw [hlevel₁]
  exact hlevel₀ ▸ hmax'

/-! ### Results -/

/-- In every list, a deletion returns and leaves every other node on its level lists exactly if the
first node with the key is on each level list that has a node with the key. In a run where every
deletion meets this condition, a live node is on the list of level `i` exactly if `i` is below its
height. -/
theorem delete_tower (hcmp : Comparator cmp) :
    (∀ s : Sklist K O, Reach cmp key (fun _ _ => True) s → ∀ k,
      ∃ t, s.sklistDelete (some k) = some (0, t) ∧
        (OthersKept s t ↔ FirstTallest cmp key s k)) ∧
    ∀ s : Sklist K O, Reach cmp key (FirstTallest cmp key) s → FullTowers s := by
  constructor
  · intro s hreach k
    obtain ⟨L, hloose⟩ := hreach.loose hcmp
    obtain ⟨t, hcall, hloose', hfreed⟩ := hloose.sklistDelete hcmp k
    exact ⟨t, hcall, hloose.othersKept_iff hloose' hfreed⟩
  · intro s hreach
    exact hreach.fullTowers hcmp

/-- The first of the two nodes is the taller one. -/
theorem delete_tower_twoEqual :
    ∃ s t, twoEqual 2 1 = some s ∧ s.sklistDelete (some 1) = some (0, t) ∧ OthersKept s t ∧
      FullTowers t := by
  have hfirst : (twoEqual 2 1).map
      (fun s => decide (FirstTallest (fun a b => a - b) Prod.fst s 1)) = some true := by
    decide +kernel
  obtain ⟨s, hs, hfirst⟩ := Option.map_eq_some_iff.1 hfirst
  have hreach := reach_twoEqual (by decide) le_rfl le_rfl (by decide) hs
  obtain ⟨t, hcall, hiff⟩ := (delete_tower comparator_sub).1 s (hreach _) 1
  refine ⟨s, t, hs, hcall, hiff.2 (of_decide_eq_true hfirst), ?_⟩
  apply (delete_tower comparator_sub).2
  apply (hreach _).delete _ hcall
  intro k hk
  rw [← Option.some.inj hk]
  exact of_decide_eq_true hfirst

/-- The second one is: the deletion unlinks it from the upper level and frees the first one. -/
theorem not_othersKept_twoEqual :
    ∃ s t, twoEqual 1 2 = some s ∧ Reach (fun a b : ℤ => a - b) Prod.fst (fun _ _ => True) s ∧
      s.sklistDelete (some 1) = some (0, t) ∧ ¬ OthersKept s t ∧
      Reach (fun a b : ℤ => a - b) Prod.fst (fun _ _ => True) t ∧ ¬ FullTowers t := by
  have hdelete : (twoEqual 1 2).bind (fun s => (s.sklistDelete (some 1)).map fun r =>
      (r.1, decide (s.OnLevel 1 2 ∧ ¬ r.2.OnLevel 1 2 ∧ 2 ∈ r.2.heap ∧ 2 ≠ r.2.head ∧
        1 < (r.2.node 2).level))) = some (0, true) := by
    decide +kernel
  obtain ⟨s, hs, hdelete⟩ := Option.bind_eq_some_iff.1 hdelete
  obtain ⟨⟨res, t⟩, hcall, hr⟩ := Option.map_eq_some_iff.1 hdelete
  rw [Prod.mk.injEq, decide_eq_true_iff] at hr
  obtain ⟨rfl, hbefore, hafter, hheap, hhead, hlevel⟩ := hr
  have hreach := reach_twoEqual le_rfl (by decide) (by decide) le_rfl hs fun _ _ => True
  refine ⟨s, t, hs, hreach, hcall, ?_, hreach.delete (fun _ _ => trivial) hcall, ?_⟩
  · intro hkept
    exact hafter ((hkept 2 hheap 1).2 hbefore)
  · intro htowers
    exact hafter ((htowers 2 hheap hhead 1).2 hlevel)

end Sklist

end Miscellany
