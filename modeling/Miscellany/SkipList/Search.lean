import Miscellany.SkipList.Delete

/-!
# Searching the skip list

The function `search_node` goes down the levels as the deletion does, and ends at the first
node with the key that it meets in front of it, on whatever level. That it finds a node
exactly when the bottom list has one is decided on the bottom level: there the nodes it has
not passed have a key that is not less.
-/

namespace Miscellany

namespace Sklist

variable {K O : Type}

/-- The loop of `search_node` over the levels below the first argument: the node with the key, if
one is met, and the node where the loop ends. -/
def searchLoop (s : Sklist K O) (getKey : O → K) (stop found : K → Bool) :
    ℕ → NodeId → Option (Option NodeId × NodeId)
  | 0, node => some (none, node)
  | i + 1, node => do
      let node ← s.walkLevel getKey stop i s.heap.length node
      let next ← s.readLink node i
      if next = s.head then
        searchLoop s getKey stop found i node
      else
        let nodeKey ← s.readKey getKey next
        if found nodeKey then some (some next, node) else searchLoop s getKey stop found i node

/-- `search_node`: the object returned and `*pos`. -/
def searchNode (s : Sklist K O) (key : Option K) : Option (Option O × Option NodeId) :=
  match key, s.getKey, s.cmpKey with
  | some key, some getKey, some cmpKey => do
      let r ← s.searchLoop getKey (fun k => cmpKey key k ≤ 0) (fun k => cmpKey key k = 0) s.level
        s.head
      match r.1 with
      | some next => some ((s.node next).obj, some next)
      | none => some (none, some r.2)
  | _, _, _ => some (none, none)

def sklistSearch (s : Sklist K O) (key : Option K) : Option (Option O) :=
  (s.searchNode key).map Prod.fst

def sklistSearchExt (s : Sklist K O) (key : Option K) : Option (Option O × Option NodeId) :=
  s.searchNode key

section Search

variable {s : Sklist K O} {L : ℕ → List NodeId} {i : ℕ} {cmp : K → K → ℤ} {key : O → K}

/-- The loop ends at the first match of some level list, or there is no match on any level it has
gone down; it then ends at the last node of the bottom list whose key is less. The field `level` may
be greater than the number `n` of the lists that are not empty. -/
theorem Represents.searchLoop (hcmp : Comparator cmp) {n : ℕ}
    (h : Represents { s with level := n } cmp key L) (k : K) (hi : i ≤ s.maxLevel) {node : NodeId}
    (hnode : ∀ j, i = j + 1 →
      node = s.head ∨ node ∈ L j ∧ s.notBelow cmp key k node = false) :
    ∃ r, s.searchLoop key (fun a => cmp k a ≤ 0) (fun a => cmp k a = 0) i node = some r ∧
      ((∃ x j, r.1 = some x ∧ j < i ∧ x ∈ L j ∧ s.hasKey cmp key k x = true) ∨
        r.1 = none ∧ (∀ j < i, ∀ x ∈ L j, s.hasKey cmp key k x = false) ∧
          r.2 = if i = 0 then node
            else ((L 0).filter fun a => !s.notBelow cmp key k a).getLastD s.head) := by
  induction i generalizing node with
  | zero => exact ⟨(none, node), rfl, Or.inr ⟨rfl, by simp, rfl⟩⟩
  | succ i ih =>
      set p := s.notBelow cmp key k with hp
      have hi' : i < s.maxLevel := hi
      have hlinked : Linked s L := h.toLinked.setLevel s.level
      have hup : UpClosed p (L i) := h.upClosed (hcmp.decide_le k) i
      set low := (L i).filter fun a => !p a with hlow
      have hwalk : s.walkLevel key (fun a => decide (cmp k a ≤ 0)) i s.heap.length node =
          some (low.getLastD s.head) :=
        hlinked.walkLevel hi' key (fun a => decide (cmp k a ≤ 0)) hup (hnode i rfl) (h.length_lt i)
      have hsplit : L i = low ++ (L i).filter p := hup.filter_append_filter.symm
      have hread := hlinked.readLink hi' hsplit
      -- The node where the inner loop has stopped is on the next level too.
      have hnext : ∀ j, i = j + 1 → low.getLastD s.head = s.head ∨
          low.getLastD s.head ∈ L j ∧ p (low.getLastD s.head) = false := by
        intro j hj
        subst hj
        exact getLastD_filter_mem s.head (h.nested j)
      rcases hup.eraseP_cases (fun a _ ha => hasKey_notBelow ha)
          (fun b rest hfilter hb => h.hasKey_first hcmp k i hfilter hb) with
        ⟨hend, hnone⟩ | ⟨x, rest, hm, hx, -, -⟩
      · obtain ⟨r, hr, hresult⟩ := ih (Nat.le_of_lt hi') hnext
        refine ⟨r, ?_, ?_⟩
        · rcases hend with hm | ⟨x, rest, hm, hx⟩
          · rw [hm, List.headD_nil] at hread
            simp only [Sklist.searchLoop, hwalk, Option.bind_eq_bind, Option.bind_some, hread,
              if_true, hr]
          · rw [hm, List.headD_cons] at hread
            have hmem : x ∈ L i := List.mem_of_mem_filter (hm ▸ List.mem_cons_self)
            obtain ⟨a, hkey, hsat⟩ := hlinked.readKey hmem key
            have hmiss : decide (cmp k a = 0) = false := (hsat _).symm.trans hx
            simp only [Sklist.searchLoop, hwalk, Option.bind_eq_bind, Option.bind_some, hread,
              if_neg (hlinked.ne_head hmem), hkey, hmiss, Bool.false_eq_true, if_false, hr]
        · rcases hresult with ⟨x, j, hx, hj, hmem, hkey⟩ | ⟨hmiss, hall, hlast⟩
          · exact Or.inl ⟨x, j, hx, Nat.lt_succ_of_lt hj, hmem, hkey⟩
          · refine Or.inr ⟨hmiss, ?_, ?_⟩
            · intro j hj x hx
              cases Nat.lt_succ_iff_lt_or_eq.1 hj with
              | inl hlt => exact hall j hlt x hx
              | inr heq =>
                  subst heq
                  exact Bool.eq_false_iff.2 (hnone x hx)
            · rw [hlast, if_neg (Nat.succ_ne_zero i)]
              split_ifs with hzero
              · subst hzero
                rfl
              · rfl
      · rw [hm, List.headD_cons] at hread
        have hmem : x ∈ L i := List.mem_of_mem_filter (hm ▸ List.mem_cons_self)
        obtain ⟨a, hkey, hsat⟩ := hlinked.readKey hmem key
        have hfound : decide (cmp k a = 0) = true := (hsat _).symm.trans hx
        refine ⟨(some x, low.getLastD s.head), ?_, Or.inl ⟨x, i, rfl, Nat.lt_succ_self i, hmem, hx⟩⟩
        simp only [Sklist.searchLoop, hwalk, Option.bind_eq_bind, Option.bind_some, hread,
          if_neg (hlinked.ne_head hmem), hkey, hfound, if_true]

/-- What a search answers: an object of the bottom list with the key and its node, or, if there is
none, the last node of the bottom list whose key is less. The field `level` may be greater than the
number `n` of the lists that are not empty. -/
theorem Represents.searchNode_raised (hcmp : Comparator cmp) {n : ℕ}
    (h : Represents { s with level := n } cmp key L) (hn : n ≤ s.level)
    (hmax : s.level ≤ s.maxLevel) (k : K) :
    (∃ x ∈ L 0, ∃ o, (s.node x).obj = some o ∧ s.hasKey cmp key k x = true ∧
        s.searchNode (some k) = some (some o, some x)) ∨
      (∀ x ∈ L 0, s.hasKey cmp key k x = false) ∧
        s.searchNode (some k) = some (none,
          some (((L 0).filter fun a => !s.notBelow cmp key k a).getLastD s.head)) := by
  have hget : s.getKey = some key := h.getKey
  have hset : s.cmpKey = some cmp := h.cmpKey
  have hcount : ∀ j, L j ≠ [] ↔ j < n := h.nonempty
  obtain ⟨r, hr, hresult⟩ := h.searchLoop hcmp k hmax (fun _ _ => Or.inl rfl)
  rcases hresult with ⟨x, j, hx, hj, hmem, hkey⟩ | ⟨hmiss, hall, hlast⟩
  · obtain ⟨o, ho⟩ := Option.isSome_iff_exists.1 (h.obj j x hmem)
    refine Or.inl ⟨x, (h.sublist_bottom j).subset hmem, o, ho, hkey, ?_⟩
    have ho' : (s.node x).obj = some o := ho
    simp only [searchNode, hget, hset, hr, Option.bind_eq_bind, Option.bind_some, hx, ho']
  · refine Or.inr ⟨?_, ?_⟩
    · intro x hx
      have hpos := (hcount 0).1 (List.ne_nil_of_mem hx)
      exact hall 0 (lt_of_lt_of_le hpos hn) x hx
    · have hend : r.2 = ((L 0).filter fun a => !s.notBelow cmp key k a).getLastD s.head := by
        rw [hlast]
        split_ifs with hzero
        · have hnil : L 0 = [] := by
            by_contra hne
            have hpos := (hcount 0).1 hne
            omega
          rw [hnil]
          rfl
        · rfl
      simp only [searchNode, hget, hset, hr, Option.bind_eq_bind, Option.bind_some, hmiss, hend]

/-- A search ends, and it finds an object exactly when the bottom list has a node with the key. -/
theorem Represents.sklistSearch (hcmp : Comparator cmp) (h : Represents s cmp key L) (k : K) :
    ∃ r, s.sklistSearch (some k) = some r ∧
      (r.isSome = true ↔ ∃ x ∈ L 0, s.hasKey cmp key k x = true) := by
  rcases h.searchNode_raised hcmp le_rfl h.levelLe k with
    ⟨x, hx, o, -, hkey, hsearch⟩ | ⟨hmiss, hsearch⟩
  · refine ⟨some o, ?_, iff_of_true rfl ⟨x, hx, hkey⟩⟩
    rw [Sklist.sklistSearch, hsearch, Option.map_some]
  · refine ⟨none, ?_, ?_⟩
    · rw [Sklist.sklistSearch, hsearch, Option.map_some]
    · apply iff_of_false Bool.false_ne_true
      rintro ⟨x, hx, hkey⟩
      rw [hmiss x hx] at hkey
      cases hkey

end Search

end Sklist

end Miscellany
