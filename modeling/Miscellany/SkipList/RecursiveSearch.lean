import Miscellany.SkipList.RecursiveLevels

/-!
# Searching the recursive skip list

The function `search_node` compares the key of the node it is called on, the head included,
and goes to the right as long as the next key is not greater. So it goes down behind the
nodes with a smaller key, and on the bottom level the others have a greater one.
-/

namespace Miscellany

namespace SklistR

variable {s : SklistR} {L : ℕ → List NodeId} {i : ℕ} {key : ℤ}

/-- The last element of a sorted list is the greatest. -/
theorem Represents.key_le_getLastD (h : Represents s L) {l m : List NodeId} (hL : L i = l ++ m)
    {y : NodeId} (hy : y ∈ l) : (s.node y).key ≤ (s.node (l.getLastD s.head)).key := by
  have hsorted := h.sorted.sublist (h.sublist_bottom i)
  rw [hL] at hsorted
  rcases List.eq_nil_or_concat' l with rfl | ⟨u, z, rfl⟩
  · cases hy
  · rw [List.getLastD_concat]
    cases List.mem_append.1 hy with
    | inl hu =>
        exact (List.pairwise_append.1 (List.pairwise_append.1 hsorted).1).2.2 y hu z
          (List.mem_singleton_self z)
    | inr hz => rw [List.mem_singleton.1 hz]

theorem Represents.lt_of_getLastD_ne (h : Represents s L) {l m : List NodeId} (hL : L i = l ++ m)
    (hlow : ∀ y ∈ l, (s.node y).key ≤ key) (hlast : (s.node (l.getLastD s.head)).key ≠ key)
    {y : NodeId} (hy : y ∈ l) : (s.node y).key < key := by
  have hle := h.key_le_getLastD hL hy
  apply lt_of_le_of_ne (hlow y hy)
  intro heq
  apply hlast
  have hmem : l.getLastD s.head ∈ l := by
    cases l with
    | nil => cases hy
    | cons z l =>
        rw [List.getLastD_cons]
        exact getLastD_mem_cons z l
  exact le_antisymm (hlow _ hmem) (heq ▸ hle)

/-- The calls of `search_node` on one level, from a node whose key is not greater: a node with the
key is met, or the call goes down between the nodes with smaller and those with greater keys. -/
theorem Represents.searchLevel (h : Represents s L) (hi : i < s.maxLevel) (key : ℤ)
    (down : NodeId → Option (Option NodeId)) {l m : List NodeId} (hL : L i = l ++ m)
    (hlow : ∀ y ∈ l, (s.node y).key ≤ key) {fuel : ℕ} (hfuel : m.length < fuel) :
    (∃ x ∈ s.head :: L i, (s.node x).key = key ∧
      s.searchLevel key i down fuel (l.getLastD s.head) = some (some x)) ∨
    ∃ l' m', L i = l' ++ m' ∧ (∀ y ∈ l', (s.node y).key < key) ∧
      (∀ y ∈ m', key < (s.node y).key) ∧
      s.searchLevel key i down fuel (l.getLastD s.head) = down (l'.getLastD s.head) := by
  induction m generalizing l fuel with
  | nil =>
      obtain ⟨fuel, rfl⟩ := Nat.exists_eq_succ_of_ne_zero (Nat.ne_of_gt (Nat.zero_lt_of_lt hfuel))
      have hmem : l.getLastD s.head ∈ s.head :: L i := hL ▸ getLastD_mem_append s.head l []
      have hread := h.readLink hi hL
      rw [List.head?_nil] at hread
      by_cases heq : (s.node (l.getLastD s.head)).key = key
      · refine Or.inl ⟨_, hmem, heq, ?_⟩
        simp only [SklistR.searchLevel, readKey_eq (h.mem_heap hmem), Option.bind_eq_bind,
          Option.bind_some, if_pos heq]
      · refine Or.inr ⟨l, [], hL, ?_, by simp, ?_⟩
        · exact fun y hy => h.lt_of_getLastD_ne hL hlow heq hy
        · simp only [SklistR.searchLevel, readKey_eq (h.mem_heap hmem), Option.bind_eq_bind,
            Option.bind_some, if_neg heq, hread]
  | cons x m ih =>
      obtain ⟨fuel, rfl⟩ := Nat.exists_eq_succ_of_ne_zero (Nat.ne_of_gt (Nat.zero_lt_of_lt hfuel))
      have hmem : l.getLastD s.head ∈ s.head :: L i := hL ▸ getLastD_mem_append s.head l (x :: m)
      have hx : x ∈ L i := by simp [hL]
      have hread := h.readLink hi hL
      rw [List.head?_cons] at hread
      by_cases heq : (s.node (l.getLastD s.head)).key = key
      · refine Or.inl ⟨_, hmem, heq, ?_⟩
        simp only [SklistR.searchLevel, readKey_eq (h.mem_heap hmem), Option.bind_eq_bind,
          Option.bind_some, if_pos heq]
      · have hstep : s.searchLevel key i down (fuel + 1) (l.getLastD s.head) =
            if key < (s.node x).key then down (l.getLastD s.head)
            else s.searchLevel key i down fuel x := by
          simp only [SklistR.searchLevel, readKey_eq (h.mem_heap hmem), Option.bind_eq_bind,
            Option.bind_some, if_neg heq, hread, readKey_eq (h.mem i x hx).1]
        by_cases hlt : key < (s.node x).key
        · rw [if_pos hlt] at hstep
          refine Or.inr ⟨l, x :: m, hL, ?_, ?_, hstep⟩
          · exact fun y hy => h.lt_of_getLastD_ne hL hlow heq hy
          · have hsorted := h.sorted.sublist (h.sublist_bottom i)
            rw [hL] at hsorted
            have hrest := (List.pairwise_append.1 hsorted).2.1
            intro y hy
            cases List.mem_cons.1 hy with
            | inl hyx => rwa [hyx]
            | inr hy => exact lt_of_lt_of_le hlt ((List.pairwise_cons.1 hrest).1 y hy)
        · rw [if_neg hlt] at hstep
          have hL' : L i = (l ++ [x]) ++ m := by simp [hL]
          have hlow' : ∀ y ∈ l ++ [x], (s.node y).key ≤ key := by
            intro y hy
            cases List.mem_append.1 hy with
            | inl hy => exact hlow y hy
            | inr hy =>
                rw [List.mem_singleton.1 hy]
                exact not_lt.1 hlt
          have hrest := ih hL' hlow' (Nat.lt_of_succ_lt_succ hfuel)
          rw [List.getLastD_concat] at hrest
          rw [hstep]
          exact hrest

/-- The nodes of a level list up to the head or a node whose key is not greater. -/
theorem Represents.exists_low (h : Represents s L) {node : NodeId}
    (hnode : node = s.head ∨ node ∈ L i ∧ (s.node node).key ≤ key) :
    ∃ l m, L i = l ++ m ∧ l.getLastD s.head = node ∧ ∀ y ∈ l, (s.node y).key ≤ key := by
  cases hnode with
  | inl heq => exact ⟨[], L i, rfl, heq.symm, by simp⟩
  | inr hnode =>
      obtain ⟨u, v, hsplit⟩ := List.append_of_mem hnode.1
      have hL : L i = (u ++ [node]) ++ v := by simp [hsplit]
      refine ⟨u ++ [node], v, hL, List.getLastD_concat, ?_⟩
      intro y hy
      have hle := h.key_le_getLastD hL hy
      rw [List.getLastD_concat] at hle
      exact hle.trans hnode.2

/-- The calls of `search_node` for the levels up to `i`. -/
theorem Represents.searchNode (h : Represents s L) (hi : i < s.maxLevel) (key : ℤ) {node : NodeId}
    (hnode : node = s.head ∨ node ∈ L i ∧ (s.node node).key ≤ key) :
    ∃ r, s.searchNode key (i + 1) node = some r ∧
      ((∃ x ∈ s.head :: L 0, r = some x ∧ (s.node x).key = key) ∨
        r = none ∧ ∀ x ∈ L 0, (s.node x).key ≠ key) := by
  induction i generalizing node with
  | zero =>
      obtain ⟨l, m, hL, rfl, hlow⟩ := h.exists_low hnode
      have hfuel : m.length < s.heap.length := by
        have hlen := h.length_lt 0
        rw [hL, List.length_append] at hlen
        omega
      rw [SklistR.searchNode]
      rcases h.searchLevel hi key (fun node => if 0 = 0 then some none else s.searchNode key 0 node)
          hL hlow hfuel with ⟨x, hx, hkey, heq⟩ | ⟨l', m', hsplit, hless, hgreater, heq⟩
      · exact ⟨some x, heq, Or.inl ⟨x, hx, rfl, hkey⟩⟩
      · refine ⟨none, heq, Or.inr ⟨rfl, ?_⟩⟩
        intro x hx
        rw [hsplit] at hx
        cases List.mem_append.1 hx with
        | inl hx => exact (hless x hx).ne
        | inr hx => exact (hgreater x hx).ne'
  | succ i ih =>
      obtain ⟨l, m, hL, rfl, hlow⟩ := h.exists_low hnode
      have hfuel : m.length < s.heap.length := by
        have hlen := h.length_lt (i + 1)
        rw [hL, List.length_append] at hlen
        omega
      rw [SklistR.searchNode]
      rcases h.searchLevel hi key
          (fun node => if i + 1 = 0 then some none else s.searchNode key (i + 1) node)
          hL hlow hfuel with ⟨x, hx, hkey, heq⟩ | ⟨l', m', hsplit, hless, -, heq⟩
      · refine ⟨some x, heq, Or.inl ⟨x, ?_, rfl, hkey⟩⟩
        exact ((h.sublist_bottom (i + 1)).cons_cons s.head).subset hx
      · have hlast : l'.getLastD s.head = s.head ∨
            l'.getLastD s.head ∈ L i ∧ (s.node (l'.getLastD s.head)).key ≤ key := by
          apply (List.mem_cons.1 (getLastD_mem_cons s.head l')).imp id
          intro hmem
          have hmem' : l'.getLastD s.head ∈ L (i + 1) := by
            rw [hsplit]
            exact List.mem_append_left m' hmem
          exact ⟨(h.nested i).subset hmem', (hless _ hmem).le⟩
        obtain ⟨r, hr, hresult⟩ := ih (Nat.lt_of_succ_lt hi) hlast
        exact ⟨r, heq.trans hr, hresult⟩

/-- A search in a list that has had a node ends, and it finds a node exactly when the bottom list
has one with the key or the key is that of the head. -/
theorem Represents.sklistSearch (h : Represents s L) (hlevel : 0 < s.level) (key : ℤ) :
    ∃ r, s.sklistSearch key = some r ∧
      (r.isSome = true ↔ key = -1 ∨ ∃ x ∈ L 0, s.hasKey key x = true) := by
  obtain ⟨n, hn⟩ := Nat.exists_eq_succ_of_ne_zero (Nat.ne_of_gt hlevel)
  have hlt : n < s.maxLevel := by
    have hle := h.levelLe
    omega
  rw [SklistR.sklistSearch, hn]
  by_cases hhead : key = -1
  · have hkey : (s.node s.head).key = key := h.headKey.trans hhead.symm
    obtain ⟨fuel, hfuel⟩ := Nat.exists_eq_succ_of_ne_zero
      (Nat.ne_of_gt (Nat.zero_lt_of_lt (h.length_lt 0)))
    refine ⟨some s.head, ?_, iff_of_true rfl (Or.inl hhead)⟩
    simp only [SklistR.searchNode, hfuel, SklistR.searchLevel, readKey_eq h.headMem,
      Option.bind_eq_bind, Option.bind_some, if_pos hkey]
  · obtain ⟨r, hr, hresult⟩ := h.searchNode hlt key (Or.inl rfl)
    refine ⟨r, hr, ?_⟩
    rcases hresult with ⟨x, hx, rfl, hkey⟩ | ⟨rfl, hnone⟩
    · refine iff_of_true rfl (Or.inr ⟨x, ?_, decide_eq_true hkey.symm⟩)
      apply List.mem_of_ne_of_mem _ hx
      rintro rfl
      exact hhead (hkey.symm.trans h.headKey)
    · apply iff_of_false Bool.false_ne_true
      rintro (heq | ⟨x, hx, hkey⟩)
      · exact hhead heq
      · exact hnone x hx (of_decide_eq_true hkey).symm

end SklistR

end Miscellany
