import Miscellany.SkipList.Insert
import Miscellany.SkipList.RecursiveLevels

/-!
# Inserting into the recursive skip list

Inserting changes the level lists of the recursive skip list in the same way as those of
`skiplist.c` (`insertLists`): on each level `insert_node` goes to the last node in front of
the place, changes two links, and goes down from there.
-/

namespace Miscellany

namespace SklistR

open Sklist (insertLists insertLists_sublist)

variable {s t : SklistR} {L : ℕ → List NodeId} {i : ℕ} {new : NodeId} {key : ℤ}

/-! ### One level -/

/-- Linking the new node into a level list, behind the prefix `l`. -/
theorem Linked.insertLink (h : Linked s L) (hi : i < s.maxLevel) {l m : List NodeId}
    (hL : L i = l ++ m) (hnew : new ∈ s.heap) (hfresh : new ∉ s.head :: L i)
    (hheight : i < (s.node new).level) :
    ∃ t, s.insertLink new i (l.getLastD s.head) = some t ∧ Freed s t none ∧
      Linked t (Function.update L i (l ++ new :: m)) := by
  have hmemNode : l.getLastD s.head ∈ s.head :: L i := by
    rw [hL]
    exact getLastD_mem_append s.head l m
  have hlinkNew : s.HasLink new i := ⟨hnew, hheight⟩
  have hlinkNode := h.hasLink hi hmemNode
  have hfirst := freed_setLink s new i m.head?
  have hfreed := hfirst.trans (freed_setLink _ (l.getLastD s.head) i (some new))
  have hwalk := h.walk i hi
  have hnodup := h.nodup_map i
  have hnodup' := h.nodup i
  rw [hL] at hwalk hnodup hnodup' hfresh
  rw [List.map_append] at hwalk hnodup
  have hfresh' : some new ∉ some s.head :: (l.map some ++ m.map some) := by
    rw [← List.map_append, ← List.map_cons, List.mem_map]
    rintro ⟨p, hp, heq⟩
    exact hfresh (Option.some.inj heq ▸ hp)
  have hsplice := walk_splice hwalk hnodup hfresh'
  rw [getLastD_map_some, headD_map_some, ← field_setLink_self, ← field_setLink_self,
    ← List.map_cons, ← List.map_append] at hsplice
  refine ⟨_, ?_, hfreed, h.update hfreed hsplice ?_ (nodup_splice_iff.2 ⟨hfresh, hnodup'⟩) ?_
    (by simp)⟩
  · simp only [SklistR.insertLink, if_pos hheight, h.readLink hi hL, Option.bind_eq_bind,
      Option.bind_some, writeLink_eq hlinkNew, writeLink_eq (hfirst.hasLink.2 hlinkNode)]
  · intro j hji
    rw [field_setLink_of_ne _ _ _ hji, field_setLink_of_ne _ _ _ hji]
  · intro p hp
    cases List.mem_cons.1 (List.perm_middle.mem_iff.1 hp) with
    | inl heq => exact heq ▸ hlinkNew
    | inr hp =>
        rw [← hL] at hp
        exact h.mem i p hp

/-- The work of `insert_node` on one level, behind the calls that go to the right. -/
theorem Linked.insertLink_filter (h : Linked s L) (hi : i < s.maxLevel) {p : NodeId → Bool}
    (hup : UpClosed p (L i)) (hnew : new ∈ s.heap) (hfresh : new ∉ s.head :: L i) :
    ∃ t, s.insertLink new i (((L i).filter fun a => !p a).getLastD s.head) = some t ∧
      Freed s t none ∧
      Linked t (Function.update L i (insertLists p new (s.node new).level L i)) := by
  by_cases hheight : i < (s.node new).level
  · rw [insertLists, if_pos hheight]
    exact h.insertLink hi hup.filter_append_filter.symm hnew hfresh hheight
  · refine ⟨s, by rw [SklistR.insertLink, if_neg hheight], Freed.refl s, ?_⟩
    rw [insertLists, if_neg hheight, Function.update_eq_self]
    exact h

/-! ### All levels -/

/-- The calls of `insert_node` for the levels below `i`, of which there is at least one. -/
theorem Linked.insertNode (h : Linked s L) (hpos : 0 < i) (hi : i ≤ s.maxLevel) (key : ℤ)
    (hnew : new ∈ s.heap) (hfresh : ∀ j < i, new ∉ s.head :: L j)
    (hnested : ∀ j, j + 1 < i → (L (j + 1)).Sublist (L j))
    (hup : ∀ j < i, UpClosed (fun p => decide (key < (s.node p).key)) (L j))
    (hlen : ∀ j < i, (L j).length < s.heap.length) {node : NodeId}
    (hnode : ∀ j, i = j + 1 →
      node = s.head ∨ node ∈ L j ∧ decide (key < (s.node node).key) = false) :
    ∃ t, SklistR.insertNode key new i node s = some t ∧ Freed s t none ∧
      Linked t fun j =>
        if j < i then
          insertLists (fun p => decide (key < (s.node p).key)) new (s.node new).level L j
        else L j := by
  induction i generalizing s L node with
  | zero => exact absurd hpos (lt_irrefl 0)
  | succ i ih =>
      set p : NodeId → Bool := fun a => decide (key < (s.node a).key) with hp
      set low := ((L i).filter fun a => !p a).getLastD s.head with hlow
      have hi' : i < s.maxLevel := hi
      have hwalk : s.walkLevel (fun k => decide (key < k)) i s.heap.length node = some low :=
        h.walkLevel hi' _ (hup i (Nat.lt_succ_self i)) (hnode i rfl) (hlen i (Nat.lt_succ_self i))
      obtain ⟨u, hu, hfreed, hlinked⟩ := h.insertLink_filter hi' (hup i (Nat.lt_succ_self i)) hnew
        (hfresh i (Nat.lt_succ_self i))
      rw [← hlow] at hu
      set M := Function.update L i (insertLists p new (s.node new).level L i) with hM
      have hsame : ∀ j, j < i → M j = L j := fun j hj => Function.update_of_ne (by omega) _ _
      have hkeys : (fun a => decide (key < (u.node a).key)) = p := by
        funext a
        rw [hfreed.key]
      have hheap : u.heap = s.heap := hfreed.heap
      have hlow' : ∀ j, i = j + 1 →
          low = u.head ∨ low ∈ M j ∧ decide (key < (u.node low).key) = false := by
        intro j hj
        rw [hfreed.head, hfreed.key, hsame j (by omega)]
        subst hj
        exact getLastD_filter_mem s.head (hnested j (by omega))
      have hrest : ∃ t, (if i = 0 then some u else SklistR.insertNode key new i low u) = some t ∧
          Freed u t none ∧
          Linked t fun j => if j < i then insertLists p new (s.node new).level M j else M j := by
        by_cases hzero : i = 0
        · subst hzero
          exact ⟨u, rfl, Freed.refl u, by simpa using hlinked⟩
        · rw [if_neg hzero]
          have hrest := ih hlinked (Nat.pos_of_ne_zero hzero) (by rw [hfreed.maxLevel]; omega)
            (by rw [hheap]; exact hnew)
            (fun j hj => by rw [hfreed.head, hsame j hj]; exact hfresh j (by omega))
            (fun j hj => by
              rw [hsame j (by omega), hsame (j + 1) (by omega)]
              exact hnested j (by omega))
            (fun j hj => by rw [hkeys, hsame j hj]; exact hup j (by omega))
            (fun j hj => by rw [hheap, hsame j hj]; exact hlen j (by omega))
            hlow'
          rw [hkeys, hfreed.height] at hrest
          exact hrest
      obtain ⟨t, ht, hlast, hfinal⟩ := hrest
      refine ⟨t, ?_, hfreed.trans hlast, ?_⟩
      · simp only [SklistR.insertNode, hwalk, Option.bind_eq_bind, Option.bind_some, hu]
        exact ht
      · convert hfinal using 2 with j
        rcases Nat.lt_trichotomy j i with hj | hj | hj
        · rw [if_pos (by omega), if_pos hj, insertLists, insertLists, hsame j hj]
        · subst hj
          rw [if_pos (by omega), if_neg (lt_irrefl j), hM, Function.update_self]
        · rw [if_neg (by omega), if_neg (by omega), hM, Function.update_of_ne (by omega)]

/-! ### The new list -/

/-- The list in which `insert_node` starts. -/
def withNode (s : SklistR) (new : NodeId) (key : ℤ) (height : ℕ) : SklistR :=
  { s with
    level := max s.level height
    node := Function.update s.node new { link := fun _ => none, level := height, key }
    heap := new :: s.heap }

theorem newNode_raiseLevel (hnew : new ∉ s.heap) (key : ℤ) (height : ℕ) :
    (s.raiseLevel height).newNode (some new) key height =
      some (new, s.withNode new key height) := by
  have hraise : s.raiseLevel height = { s with level := max s.level height } := by
    unfold raiseLevel
    split_ifs with hgt
    · rw [max_eq_right (by omega)]
    · rw [max_eq_left (by omega)]
  rw [hraise]
  simp only [newNode, if_neg hnew]
  rfl

theorem withNode_node_self (s : SklistR) (new : NodeId) (key : ℤ) (height : ℕ) :
    (s.withNode new key height).node new = { link := fun _ => none, level := height, key } :=
  Function.update_self _ _ _

theorem withNode_node_of_ne {p : NodeId} (hp : p ≠ new) (key : ℤ) (height : ℕ) :
    (s.withNode new key height).node p = s.node p :=
  Function.update_of_ne hp _ _

theorem Linked.ne_new (h : Linked s L) (hnew : new ∉ s.heap) {p : NodeId}
    (hp : p ∈ s.head :: L i) : p ≠ new := by
  intro heq
  exact hnew (heq ▸ h.mem_heap hp)

/-- The bottom list stays sorted. -/
theorem Represents.sorted_insertBefore (h : Represents s L) (hnew : new ∉ s.heap)
    (hkey : (t.node new).key = key) (hsame : ∀ p, p ≠ new → (t.node p).key = (s.node p).key) :
    (insertBefore (fun p => decide (key < (s.node p).key)) new (L 0)).Pairwise
      fun p q => (t.node p).key ≤ (t.node q).key := by
  set p : NodeId → Bool := fun a => decide (key < (s.node a).key) with hp
  have hup : UpClosed p (L 0) := h.upClosed_lt key 0
  have hkeep : ∀ a ∈ L 0, (t.node a).key = (s.node a).key := by
    intro a ha
    exact hsame a (h.ne_new hnew (List.mem_cons_of_mem s.head ha))
  have hsorted : ((L 0).filter (fun a => !p a) ++ (L 0).filter p).Pairwise
      fun a b => (t.node a).key ≤ (t.node b).key := by
    rw [hup.filter_append_filter]
    apply h.sorted.imp_of_mem
    intro a b ha hb hle
    rw [hkeep a ha, hkeep b hb]
    exact hle
  obtain ⟨hlow, hhigh, hcross⟩ := List.pairwise_append.1 hsorted
  rw [insertBefore, List.pairwise_append, List.pairwise_cons]
  refine ⟨hlow, ⟨?_, hhigh⟩, ?_⟩
  · intro b hb
    obtain ⟨hmem, hsat⟩ := List.mem_filter.1 hb
    rw [hkey, hkeep b hmem]
    exact (of_decide_eq_true hsat).le
  · intro a ha b hb
    cases List.mem_cons.1 hb with
    | inl heq =>
        obtain ⟨hmem, hsat⟩ := List.mem_filter.1 ha
        rw [Bool.not_eq_true', decide_eq_false_iff_not, not_lt] at hsat
        rw [heq, hkey, hkeep a hmem]
        exact hsat
    | inr hb => exact hcross a ha b hb

/-- The calls of `insert_node` from the head, on the list with the new node. -/
theorem Represents.insertNode (h : Represents s L) (key : ℤ) {height : ℕ} (hpos : 1 ≤ height)
    (hmax : height ≤ s.maxLevel) (hnew : new ∉ s.heap) :
    ∃ t, SklistR.insertNode key new (max s.level height) s.head (s.withNode new key height) =
        some t ∧
      Freed (s.withNode new key height) t none ∧
      Linked t (insertLists (fun p => decide (key < (s.node p).key)) new height L) := by
  set u := s.withNode new key height with hu
  set p : NodeId → Bool := fun a => decide (key < (s.node a).key) with hp
  have hnewNode := s.withNode_node_self new key height
  have hkeys : ∀ j, ∀ a ∈ L j, decide (key < (u.node a).key) = p a := by
    intro j a ha
    have hne := h.ne_new hnew (List.mem_cons_of_mem s.head ha)
    rw [hu, withNode_node_of_ne hne]
  have hlinkedU : Linked u L := by
    apply h.toLinked.congr (t := u) rfl rfl
    · intro j a ha
      exact List.mem_cons_of_mem new (h.mem_heap ha)
    · intro j a ha
      exact withNode_node_of_ne (h.ne_new hnew ha) key height
  have hupU : ∀ j < max s.level height,
      UpClosed (fun a => decide (key < (u.node a).key)) (L j) := by
    intro j _
    apply (h.upClosed_lt key j).imp_of_mem
    intro a b ha hb hab
    simp only [hkeys j a ha, hkeys j b hb]
    exact hab
  have hlenU : ∀ j < max s.level height, (L j).length < u.heap.length := by
    intro j _
    exact Nat.lt_succ_of_lt (h.length_lt j)
  obtain ⟨t, ht, hfreed, hlinked⟩ := hlinkedU.insertNode (lt_max_of_lt_right hpos)
    (max_le h.levelLe hmax) key List.mem_cons_self (fun j _ hmem => h.ne_new hnew hmem rfl)
    (fun j _ => h.nested j) hupU hlenU (fun _ _ => Or.inl rfl)
  refine ⟨t, ht, hfreed, ?_⟩
  -- Above its height the new node changes nothing.
  have hlists : (fun j => if j < max s.level height then
      insertLists (fun a => decide (key < (u.node a).key)) new (u.node new).level L j else L j) =
      insertLists p new height L := by
    funext j
    rw [hu, hnewNode, ← hu]
    by_cases hj : j < height
    · rw [if_pos (lt_max_of_lt_right hj), insertLists, insertLists, if_pos hj, if_pos hj,
        insertBefore_congr (hkeys j)]
    · rw [insertLists, insertLists, if_neg hj, if_neg hj, ite_self]
  rw [← hlists]
  exact hlinked

/-- What `sklist_insert` does: the new node is put, on each level below its height, behind the
nodes whose keys are not greater than its own and before the others. -/
theorem Represents.sklistInsert (h : Represents s L) (key : ℤ) {height : ℕ} (hpos : 1 ≤ height)
    (hmax : height ≤ s.maxLevel) (hnew : new ∉ s.heap) :
    ∃ t, s.sklistInsert key height (some new) = some t ∧
      Represents t (insertLists (fun p => decide (key < (s.node p).key)) new height L) ∧
      (t.node new).key = key ∧ (∀ p, p ≠ new → (t.node p).key = (s.node p).key) ∧
      t.maxLevel = s.maxLevel ∧ t.size = s.size + 1 := by
  set p : NodeId → Bool := fun a => decide (key < (s.node a).key) with hp
  have hup : ∀ j, UpClosed p (L j) := h.upClosed_lt key
  obtain ⟨t, ht, hfreed, hlinked⟩ := h.insertNode key hpos hmax hnew
  have hlinked' : Linked { t with size := t.size + 1 } (insertLists p new height L) := by
    apply hlinked.congr (t := { t with size := t.size + 1 }) rfl rfl
    · intro j a ha
      exact hlinked.mem_heap ha
    · intro j a _
      rfl
  have hkeyNew : (t.node new).key = key := by
    rw [hfreed.key, withNode_node_self]
  have hkeySame : ∀ a, a ≠ new → (t.node a).key = (s.node a).key := by
    intro a ha
    rw [hfreed.key, withNode_node_of_ne ha]
  have hbottom : insertLists p new height L 0 = insertBefore p new (L 0) := if_pos hpos
  have hlevel : t.level = max s.level height := hfreed.listLevel
  have hheap : t.heap = new :: s.heap := hfreed.heap
  have hhead : t.head = s.head := hfreed.head
  have hsize : t.size = s.size := hfreed.size
  refine ⟨{ t with size := t.size + 1 }, ?_, ?_, hkeyNew, hkeySame, hfreed.maxLevel, ?_⟩
  · simp only [SklistR.sklistInsert, newNode_raiseLevel hnew, Option.bind_eq_bind]
    change (SklistR.insertNode key new (max s.level height) s.head _).bind _ = _
    rw [ht]
    rfl
  · refine ⟨hlinked', ?_, ?_, ?_, ?_, ?_, ?_, ?_⟩
    · change (t.node t.head).key = -1
      rw [hhead, hkeySame s.head (h.ne_new hnew (i := 0) List.mem_cons_self)]
      exact h.headKey
    · intro j
      exact insertLists_sublist (h.nested j) (hup j)
    · rw [hbottom]
      exact h.sorted_insertBefore hnew hkeyNew hkeySame
    · intro j hne
      change j < t.level
      rw [hlevel, lt_max_iff]
      by_cases hj : j < height
      · exact Or.inr hj
      · rw [insertLists, if_neg hj] at hne
        exact Or.inl (h.nonempty j hne)
    · change t.level ≤ t.maxLevel
      rw [hlevel, hfreed.maxLevel]
      exact max_le h.levelLe hmax
    · change t.size + 1 = _
      rw [hsize, hbottom, ((hup 0).perm_insertBefore new).length_eq, List.length_cons, h.size]
      push_cast
      rfl
    · change t.heap.Perm (t.head :: _)
      rw [hbottom, hheap, hhead]
      have hperm := (h.heap.cons new).trans (List.Perm.swap s.head new (L 0))
      exact hperm.trans (((hup 0).perm_insertBefore new).symm.cons s.head)
  · change t.size + 1 = s.size + 1
    rw [hsize]

end SklistR

end Miscellany
