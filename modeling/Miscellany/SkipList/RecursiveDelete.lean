import Miscellany.SkipList.Delete
import Miscellany.SkipList.RecursiveLevels

/-!
# Deleting from the recursive skip list

As in `skiplist.c`, each level list loses its first node with the key (`eraseLists`), and
the one on the bottom list is freed. What differs is that `level` stays as it is, and that
`size` is decremented without a look at whether there was a node.
-/

namespace Miscellany

namespace SklistR

open Sklist (eraseLists eraseLists_succ_self update_eraseLists)

variable {s t : SklistR} {L : ℕ → List NodeId} {i : ℕ} {key : ℤ}

/-! ### One level -/

section Delete

variable {l m : List NodeId} {x : NodeId}

/-- A level list from which the node behind the prefix `l` is cut out, and freed if `gone` says
so; then it must be on no other level. -/
theorem Linked.cut (h : Linked s L) (hi : i < s.maxLevel) (hL : L i = l ++ x :: m)
    {gone : Option NodeId} (hfreed : Freed s t gone)
    (hfield : t.field = (s.setLink (l.getLastD s.head) i m.head?).field)
    (hgone : ∀ y ∈ gone, y = x ∧ ∀ j, j ≠ i → x ∉ L j) :
    Linked t (Function.update L i (l ++ m)) := by
  have hwalk := h.walk i hi
  have hnodup := h.nodup_map i
  have hnodup' := h.nodup i
  rw [hL] at hwalk hnodup hnodup'
  rw [List.map_append, List.map_cons] at hwalk hnodup
  obtain ⟨hx, hrest⟩ := nodup_splice_iff.1 hnodup'
  have hcut := walk_cut hwalk hnodup
  rw [getLastD_map_some, headD_map_some, ← field_setLink_self, ← hfield, ← List.map_append] at hcut
  apply h.update hfreed hcut
  · intro j hji
    rw [hfield, field_setLink_of_ne _ _ _ hji]
  · exact hrest
  · intro p hp
    apply h.mem i p
    rw [hL]
    exact List.perm_middle.mem_iff.2 (List.mem_cons_of_mem x hp)
  · intro y hy j
    obtain ⟨rfl, hother⟩ := hgone y hy
    by_cases hji : j = i
    · subst hji
      rw [Function.update_self]
      exact hx
    · rw [Function.update_of_ne hji, List.mem_cons, not_or]
      exact ⟨fun heq => hx (heq ▸ List.mem_cons_self), hother j hji⟩

/-- The end of `delete_node` in front of a node with the key. -/
theorem Linked.deleteLink_of_found (h : Linked s L) (hi : i < s.maxLevel)
    (hL : L i = l ++ x :: m) (hx : s.hasKey key x = true)
    (hgone : i = 0 → ∀ j, j ≠ 0 → x ∉ L j) :
    ∃ t, s.deleteLink key i (l.getLastD s.head) = some t ∧
      Freed s t (if i = 0 then some x else none) ∧ Linked t (Function.update L i (l ++ m)) := by
  have hmem : x ∈ L i := by simp [hL]
  have hread := h.readLink hi hL
  rw [List.head?_cons] at hread
  have hL' : L i = (l ++ [x]) ++ m := by simp [hL]
  have hreadRest := h.readLink hi hL'
  rw [List.getLastD_concat] at hreadRest
  have hlink : s.HasLink (l.getLastD s.head) i := by
    apply h.hasLink hi
    rw [hL]
    exact getLastD_mem_append s.head l (x :: m)
  have hkey : key = (s.node x).key := of_decide_eq_true hx
  have hset := freed_setLink s (l.getLastD s.head) i m.head?
  have heq : s.deleteLink key i (l.getLastD s.head) =
      if i = 0 then some ((s.setLink (l.getLastD s.head) i m.head?).destroyNode x)
      else some (s.setLink (l.getLastD s.head) i m.head?) := by
    simp only [SklistR.deleteLink, hread, Option.bind_eq_bind, Option.bind_some,
      readKey_eq (h.mem i x hmem).1, if_pos hkey, hreadRest, writeLink_eq hlink]
  by_cases hzero : i = 0
  · rw [if_pos hzero] at heq ⊢
    have hfreed := hset.trans (freed_destroyNode _ x)
    refine ⟨_, heq, hfreed, h.cut hi hL hfreed rfl ?_⟩
    intro y hy
    subst hzero
    exact ⟨(Option.some.inj hy).symm, hgone rfl⟩
  · rw [if_neg hzero] at heq ⊢
    exact ⟨_, heq, hset, h.cut hi hL hset rfl (by simp)⟩

end Delete

/-- The work of `delete_node` on one level, behind the calls that go to the right: the level list
loses its first match. -/
theorem Represents.deleteLink {s₀ : SklistR} (h : Represents s₀ L) (hi : i < s₀.maxLevel)
    (key : ℤ) {M : ℕ → List NodeId} (hM : M i = L i) (hfreed : Freed s₀ s none)
    (hlinked : Linked s M)
    (hgone : i = 0 → ∀ x, (L 0).find? (s₀.hasKey key) = some x → ∀ j, j ≠ 0 → x ∉ M j) :
    ∃ t, s.deleteLink key i (((L i).filter fun a => !s₀.notBelow key a).getLastD s.head) = some t ∧
      Freed s t (if i = 0 then (L 0).find? (s₀.hasKey key) else none) ∧
      Linked t (Function.update M i ((L i).eraseP (s₀.hasKey key))) := by
  have hi' : i < s.maxLevel := by rwa [hfreed.maxLevel]
  have hsplit := (h.upClosed_notBelow key i).filter_append_filter.symm
  set l := (L i).filter fun a => !s₀.notBelow key a with hl
  rcases h.eraseP_cases key i with ⟨hend, hnone⟩ | ⟨x, rest, hm, hx, hfind, herase⟩
  -- Without a match nothing is written.
  · have heq : s.deleteLink key i (l.getLastD s.head) = some s := by
      rcases hend with hm | ⟨x, rest, hm, hx⟩
      · rw [hm, ← hM] at hsplit
        have hread := hlinked.readLink hi' hsplit
        rw [List.head?_nil] at hread
        simp only [SklistR.deleteLink, hread, Option.bind_eq_bind, Option.bind_some]
      · rw [hm, ← hM] at hsplit
        have hread := hlinked.readLink hi' hsplit
        rw [List.head?_cons] at hread
        have hmem : x ∈ M i := by simp [hsplit]
        have hne : key ≠ (s.node x).key := by
          rw [hfreed.key]
          exact of_decide_eq_false hx
        simp only [SklistR.deleteLink, hread, Option.bind_eq_bind, Option.bind_some,
          readKey_eq (hlinked.mem i x hmem).1, if_neg hne]
    rw [List.eraseP_of_forall_not hnone, ← hM, Function.update_eq_self]
    refine ⟨s, heq, ?_, hlinked⟩
    split_ifs with hzero
    · subst hzero
      rw [List.find?_eq_none.2 hnone]
      exact Freed.refl s
    · exact Freed.refl s
  · rw [hm, ← hM] at hsplit
    have hx' : s.hasKey key x = true := by rwa [hfreed.hasKey]
    have hgone' : i = 0 → ∀ j, j ≠ 0 → x ∉ M j := by
      intro hzero
      subst hzero
      exact hgone rfl x hfind
    obtain ⟨t, ht, hfreed', hlinked'⟩ := hlinked.deleteLink_of_found hi' hsplit hx' hgone'
    rw [herase]
    refine ⟨t, ht, ?_, hlinked'⟩
    by_cases hzero : i = 0
    · subst hzero
      rw [hfind]
      exact hfreed'
    · rw [if_neg hzero] at hfreed' ⊢
      exact hfreed'

/-! ### All levels -/

/-- The work of `delete_node` on the level `i`, with the levels above treated. -/
theorem Represents.deleteRound {s₀ : SklistR} (h : Represents s₀ L) (hi : i < s₀.maxLevel)
    (key : ℤ) (hfreed : Freed s₀ s none)
    (hlinked : Linked s (eraseLists (s₀.hasKey key) L (i + 1))) {node : NodeId}
    (hnode : node = s₀.head ∨ node ∈ L i ∧ s₀.notBelow key node = false) :
    ∃ node' t, s.walkLevel (fun k => decide (key ≤ k)) i s.heap.length node = some node' ∧
      s.deleteLink key i node' = some t ∧
      (node' = s₀.head ∨ node' ∈ L i ∧ s₀.notBelow key node' = false) ∧
      Freed s₀ t (if i = 0 then (L 0).find? (s₀.hasKey key) else none) ∧
      Linked t (eraseLists (s₀.hasKey key) L i) := by
  have hself := eraseLists_succ_self (s₀.hasKey key) L i
  have hi' : i < s.maxLevel := by rwa [hfreed.maxLevel]
  have hheap : s.heap = s₀.heap := hfreed.heap
  have hkeys : (fun p => decide (key ≤ (s.node p).key)) = s₀.notBelow key := hfreed.notBelow key
  have hup : UpClosed (fun p => decide (key ≤ (s.node p).key))
      (eraseLists (s₀.hasKey key) L (i + 1) i) := by
    rw [hkeys, hself]
    exact h.upClosed_notBelow key i
  have hnode' : node = s.head ∨ node ∈ eraseLists (s₀.hasKey key) L (i + 1) i ∧
      decide (key ≤ (s.node node).key) = false := by
    rw [hself, hfreed.head, hfreed.key]
    exact hnode
  have hlen : (eraseLists (s₀.hasKey key) L (i + 1) i).length < s.heap.length := by
    rw [hself, hheap]
    exact h.length_lt i
  have hwalk := hlinked.walkLevel hi' (fun k => decide (key ≤ k)) hup hnode' hlen
  have hgone : i = 0 → ∀ x, (L 0).find? (s₀.hasKey key) = some x →
      ∀ j, j ≠ 0 → x ∉ eraseLists (s₀.hasKey key) L (i + 1) j := by
    intro hzero x hx j hj
    rw [eraseLists, if_neg (by omega)]
    exact notMem_eraseP_of_sublist (h.sublist_bottom j) (List.nodup_cons.1 (h.nodup 0)).2 hx
  obtain ⟨t, ht, hfreed', hlinked'⟩ := h.deleteLink hi key hself hfreed hlinked hgone
  rw [update_eraseLists] at hlinked'
  rw [hself, hfreed.head] at hwalk
  rw [hfreed.head] at ht
  have hstops : (fun p => !decide (key ≤ (s.node p).key)) = fun p => !s₀.notBelow key p := by
    rw [← hkeys]
  rw [hstops] at hwalk
  exact ⟨_, t, hwalk, ht, getLastD_filter_mem s₀.head (List.Sublist.refl (L i)),
    hfreed.trans hfreed', hlinked'⟩

/-- The calls of `delete_node` for the levels up to `i`, with the levels above treated. -/
theorem Represents.deleteNode {s₀ : SklistR} (h : Represents s₀ L) (hi : i < s₀.maxLevel)
    (key : ℤ) (hfreed : Freed s₀ s none)
    (hlinked : Linked s (eraseLists (s₀.hasKey key) L (i + 1))) {node : NodeId}
    (hnode : node = s₀.head ∨ node ∈ L i ∧ s₀.notBelow key node = false) :
    ∃ t, SklistR.deleteNode key (i + 1) node s = some t ∧
      Freed s₀ t ((L 0).find? (s₀.hasKey key)) ∧
      Linked t fun j => (L j).eraseP (s₀.hasKey key) := by
  induction i generalizing s node with
  | zero =>
      obtain ⟨node', t, hwalk, ht, -, hfreed', hlinked'⟩ :=
        h.deleteRound hi key hfreed hlinked hnode
      refine ⟨t, ?_, hfreed', hlinked'⟩
      simp only [SklistR.deleteNode, hwalk, Option.bind_eq_bind, Option.bind_some, ht, if_true]
  | succ i ih =>
      obtain ⟨node', u, hwalk, hu, hnode', hfreed', hlinked'⟩ :=
        h.deleteRound hi key hfreed hlinked hnode
      have hnode'' : node' = s₀.head ∨ node' ∈ L i ∧ s₀.notBelow key node' = false :=
        hnode'.imp_right fun hmem => ⟨(h.nested i).subset hmem.1, hmem.2⟩
      obtain ⟨t, ht, hrest⟩ := ih (Nat.lt_of_succ_lt hi) hfreed' hlinked' hnode''
      refine ⟨t, ?_, hrest⟩
      rw [SklistR.deleteNode]
      simp only [hwalk, Option.bind_eq_bind, Option.bind_some, hu]
      exact ht

/-! ### The new list -/

/-- The list that has lost the first match on each level, with the size set. -/
theorem Represents.of_freed (h : Represents s L) {q : NodeId → Bool} {x : NodeId}
    (hfind : (L 0).find? q = some x) (hfreed : Freed s t (some x))
    (hlinked : Linked t fun j => (L j).eraseP q) :
    Represents { t with size := s.size - 1 } fun j => (L j).eraseP q := by
  obtain ⟨u, v, hsplit, -, -, herase⟩ := find?_eq_some_split hfind
  have hlinked' : Linked { t with size := s.size - 1 } fun j => (L j).eraseP q := by
    apply hlinked.congr (t := { t with size := s.size - 1 }) rfl rfl
    · intro j a ha
      exact hlinked.mem_heap ha
    · intro j a _
      rfl
  refine ⟨hlinked', ?_, ?_, ?_, ?_, ?_, ?_, ?_⟩
  · change (t.node t.head).key = -1
    rw [hfreed.head, hfreed.key]
    exact h.headKey
  · intro j
    exact (h.nested j).eraseP
  · apply (h.sorted.sublist List.eraseP_sublist).imp
    intro a b hle
    change (t.node a).key ≤ (t.node b).key
    rw [hfreed.key, hfreed.key]
    exact hle
  · intro j hne
    change j < t.level
    rw [hfreed.listLevel]
    apply h.nonempty
    intro hnil
    rw [hnil] at hne
    exact hne rfl
  · change t.level ≤ t.maxLevel
    rw [hfreed.listLevel, hfreed.maxLevel]
    exact h.levelLe
  · change s.size - 1 = _
    rw [h.size, herase, hsplit]
    simp only [List.length_append, List.length_cons]
    push_cast
    omega
  · change t.heap.Perm (t.head :: _)
    have hperm := h.heap
    rw [hsplit] at hperm
    have hcut := (hperm.trans (perm_splice s.head x u v)).erase x
    rw [List.erase_cons_head] at hcut
    rw [hfreed.heap, hfreed.head, herase]
    exact hcut

/-- What `sklist_delete` does on a list that has had a node: every level list loses its first node
with the key, and the one on the bottom list is freed. The size falls in any case. -/
theorem Represents.sklistDelete (h : Represents s L) (hlevel : 0 < s.level) (key : ℤ) :
    ∃ t, s.sklistDelete key = some t ∧ t.size = s.size - 1 ∧ t.maxLevel = s.maxLevel ∧
      (∀ p, (t.node p).key = (s.node p).key) ∧
      ((∃ x ∈ L 0, s.hasKey key x = true) →
        Represents t fun j => (L j).eraseP (s.hasKey key)) := by
  obtain ⟨n, hn⟩ := Nat.exists_eq_succ_of_ne_zero (Nat.ne_of_gt hlevel)
  have hlt : n < s.maxLevel := by
    have hle := h.levelLe
    omega
  have hlists := Sklist.eraseLists_eq_self h.nonempty (s.hasKey key)
  rw [hn] at hlists
  have hlinked₀ : Linked s (eraseLists (s.hasKey key) L (n + 1)) := by
    rw [hlists]
    exact h.toLinked
  obtain ⟨t, ht, hfreed, hlinked⟩ := h.deleteNode hlt key (Freed.refl s) hlinked₀ (Or.inl rfl)
  have hcall : s.sklistDelete key = some { t with size := s.size - 1 } := by
    simp only [SklistR.sklistDelete, hn, ht, Option.bind_eq_bind, Option.bind_some, hfreed.size]
  refine ⟨{ t with size := s.size - 1 }, hcall, rfl, hfreed.maxLevel, hfreed.key, ?_⟩
  rintro ⟨y, hy, hkey⟩
  obtain ⟨x, hfind⟩ := Option.isSome_iff_exists.1 (List.find?_isSome.2 ⟨y, hy, hkey⟩)
  rw [hfind] at hfreed
  exact h.of_freed hfind hfreed hlinked

end SklistR

end Miscellany
