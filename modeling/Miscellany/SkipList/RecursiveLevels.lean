import Miscellany.SkipList.Recursive

/-!
# The level lists of the recursive skip list

A level list that ends with a null pointer is a walk from the head to null, so its nodes are
taken as pointers that are not null. As for `skiplist.c`, `Linked s L` ties the links to the
nodes `L i` of each level list, `Represents` adds what holds between calls, and `Freed` says
what else a call changes.
-/

namespace Miscellany

namespace SklistR

variable {s t u : SklistR} {L : ℕ → List NodeId} {i j : ℕ} {p : NodeId}

/-! ### Memory -/

/-- The links of level `i`, from pointer to pointer; null has none. -/
def field (s : SklistR) (i : ℕ) : Option NodeId → Option (Option NodeId) :=
  Option.map fun p => (s.node p).link i

theorem field_setLink_self (s : SklistR) (p : NodeId) (i : ℕ) (v : Option NodeId) :
    (s.setLink p i v).field i = Function.update (s.field i) (some p) (some v) := by
  funext q
  cases q with
  | none => rfl
  | some q =>
      by_cases hqp : q = p
      · subst hqp
        simp [field, setLink, setNode]
      · have hne : some q ≠ some p := fun h => hqp (Option.some.inj h)
        simp [field, setLink, setNode, Function.update_of_ne hqp, Function.update_of_ne hne]

theorem field_setLink_of_ne (s : SklistR) (p : NodeId) (v : Option NodeId) (hji : j ≠ i) :
    (s.setLink p i v).field j = s.field j := by
  funext q
  cases q with
  | none => rfl
  | some q =>
      by_cases hqp : q = p
      · subst hqp
        simp [field, setLink, setNode, Function.update_of_ne hji]
      · simp [field, setLink, setNode, Function.update_of_ne hqp]

/-- From `s` to `t` links are written, and the node `gone`, if any, is freed. -/
structure Freed (s t : SklistR) (gone : Option NodeId) : Prop where
  rest : t = { s with node := t.node, heap := t.heap }
  height : ∀ p, (t.node p).level = (s.node p).level
  key : ∀ p, (t.node p).key = (s.node p).key
  heap : t.heap = gone.elim s.heap fun p => s.heap.erase p

theorem Freed.refl (s : SklistR) : Freed s s none := ⟨rfl, fun _ => rfl, fun _ => rfl, rfl⟩

theorem Freed.trans {gone : Option NodeId} (hst : Freed s t none) (htu : Freed t u gone) :
    Freed s u gone := by
  have hheap : t.heap = s.heap := hst.heap
  constructor
  · rw [htu.rest, hst.rest]
  · intro p
    exact (htu.height p).trans (hst.height p)
  · intro p
    exact (htu.key p).trans (hst.key p)
  · rw [htu.heap, hheap]

theorem Freed.head {gone : Option NodeId} (h : Freed s t gone) : t.head = s.head := by rw [h.rest]

theorem Freed.maxLevel {gone : Option NodeId} (h : Freed s t gone) : t.maxLevel = s.maxLevel := by
  rw [h.rest]

theorem Freed.listLevel {gone : Option NodeId} (h : Freed s t gone) : t.level = s.level := by
  rw [h.rest]

theorem Freed.size {gone : Option NodeId} (h : Freed s t gone) : t.size = s.size := by
  rw [h.rest]

theorem Freed.hasLink (h : Freed s t none) : t.HasLink p i ↔ s.HasLink p i := by
  have hheap : t.heap = s.heap := h.heap
  rw [HasLink, HasLink, hheap, h.height]

theorem freed_setLink (s : SklistR) (p : NodeId) (i : ℕ) (v : Option NodeId) :
    Freed s (s.setLink p i v) none := by
  have hsame : ∀ q, ((s.setLink p i v).node q).level = (s.node q).level ∧
      ((s.setLink p i v).node q).key = (s.node q).key := by
    intro q
    by_cases hqp : q = p
    · subst hqp
      simp [setLink, setNode]
    · simp [setLink, setNode, Function.update_of_ne hqp]
  exact ⟨rfl, fun q => (hsame q).1, fun q => (hsame q).2, rfl⟩

theorem freed_destroyNode (s : SklistR) (p : NodeId) : Freed s (s.destroyNode p) (some p) :=
  ⟨rfl, fun _ => rfl, fun _ => rfl, rfl⟩

theorem readLink_eq (h : s.HasLink p i) : s.readLink p i = some ((s.node p).link i) := if_pos h

theorem writeLink_eq (h : s.HasLink p i) (v : Option NodeId) :
    s.writeLink p i v = some (s.setLink p i v) := if_pos h

theorem readKey_eq (h : p ∈ s.heap) : s.readKey p = some (s.node p).key := if_pos h

/-! ### Level lists -/

/-- The links of the skip list are those of the level lists `L`. -/
structure Linked (s : SklistR) (L : ℕ → List NodeId) : Prop where
  headMem : s.head ∈ s.heap
  headLevel : (s.node s.head).level = s.maxLevel
  walk : ∀ i < s.maxLevel, Walk (s.field i) (some s.head) ((L i).map some) none
  nodup : ∀ i, (s.head :: L i).Nodup
  mem : ∀ i, ∀ p ∈ L i, s.HasLink p i

theorem Linked.hasLink (h : Linked s L) (hi : i < s.maxLevel) (hp : p ∈ s.head :: L i) :
    s.HasLink p i := by
  cases List.mem_cons.1 hp with
  | inl heq =>
      subst heq
      exact ⟨h.headMem, by rwa [h.headLevel]⟩
  | inr hp => exact h.mem i p hp

theorem Linked.mem_heap (h : Linked s L) (hp : p ∈ s.head :: L i) : p ∈ s.heap := by
  cases List.mem_cons.1 hp with
  | inl heq => exact heq ▸ h.headMem
  | inr hp => exact (h.mem i p hp).1

/-- The pointers of a level list are distinct. -/
theorem Linked.nodup_map (h : Linked s L) (i : ℕ) : (some s.head :: (L i).map some).Nodup := by
  rw [← List.map_cons]
  exact (h.nodup i).map (Option.some_injective NodeId)

/-- The link behind a prefix of a level list. -/
theorem Linked.link_getLastD (h : Linked s L) (hi : i < s.maxLevel) {l m : List NodeId}
    (hL : L i = l ++ m) : (s.node (l.getLastD s.head)).link i = m.head? := by
  have hwalk := h.walk i hi
  rw [hL, List.map_append] at hwalk
  have hlink := walk_link_getLastD hwalk
  rw [getLastD_map_some, headD_map_some] at hlink
  exact Option.some.inj hlink

theorem Linked.readLink (h : Linked s L) (hi : i < s.maxLevel) {l m : List NodeId}
    (hL : L i = l ++ m) : s.readLink (l.getLastD s.head) i = some m.head? := by
  have hmem : l.getLastD s.head ∈ s.head :: L i := by
    rw [hL]
    exact getLastD_mem_append s.head l m
  rw [readLink_eq (h.hasLink hi hmem), h.link_getLastD hi hL]

/-- The calls on one level, from the last node of a prefix on. -/
theorem Linked.walkLevel_append (h : Linked s L) (hi : i < s.maxLevel) (stop : ℤ → Bool)
    {l m : List NodeId} (hL : L i = l ++ m) {fuel : ℕ} (hfuel : m.length < fuel) :
    s.walkLevel stop i fuel (l.getLastD s.head) =
      some ((l ++ m.takeWhile fun p => !stop (s.node p).key).getLastD s.head) := by
  induction m generalizing l fuel with
  | nil =>
      obtain ⟨fuel, rfl⟩ := Nat.exists_eq_succ_of_ne_zero (Nat.ne_of_gt (Nat.zero_lt_of_lt hfuel))
      have hread := h.readLink hi hL
      rw [List.head?_nil] at hread
      simp only [SklistR.walkLevel, hread, Option.bind_eq_bind, Option.bind_some,
        List.takeWhile_nil, List.append_nil]
  | cons x m ih =>
      obtain ⟨fuel, rfl⟩ := Nat.exists_eq_succ_of_ne_zero (Nat.ne_of_gt (Nat.zero_lt_of_lt hfuel))
      have hx : x ∈ L i := by simp [hL]
      have hkey := readKey_eq (h.mem i x hx).1
      have hread := h.readLink hi hL
      rw [List.head?_cons] at hread
      simp only [SklistR.walkLevel, hread, Option.bind_eq_bind, Option.bind_some, hkey]
      rw [List.takeWhile_cons]
      cases hk : stop (s.node x).key with
      | true => simp
      | false =>
          have hL' : L i = (l ++ [x]) ++ m := by simp [hL]
          have hfuel' : m.length < fuel := by
            rw [List.length_cons] at hfuel
            omega
          have hrest := ih hL' hfuel'
          simpa using hrest

/-- The calls on one level, from the head or from a node that does not make them stop: they end at
the last such node. -/
theorem Linked.walkLevel (h : Linked s L) (hi : i < s.maxLevel) (stop : ℤ → Bool)
    (hup : UpClosed (fun p => stop (s.node p).key) (L i)) {node : NodeId}
    (hnode : node = s.head ∨ node ∈ L i ∧ stop (s.node node).key = false) {fuel : ℕ}
    (hfuel : (L i).length < fuel) :
    s.walkLevel stop i fuel node =
      some (((L i).filter fun p => !stop (s.node p).key).getLastD s.head) := by
  rw [← hup.takeWhile_eq]
  cases hnode with
  | inl heq =>
      subst heq
      exact h.walkLevel_append hi stop (List.nil_append (L i)).symm hfuel
  | inr hnode =>
      obtain ⟨u, v, hsplit, hall⟩ := hup.exists_split hnode.1 hnode.2
      have hL : L i = (u ++ [node]) ++ v := by simp [hsplit]
      have hfuel' : v.length < fuel := by
        rw [hsplit, List.length_append, List.length_cons] at hfuel
        omega
      have hloop := h.walkLevel_append hi stop hL hfuel'
      rw [List.getLastD_concat] at hloop
      rw [hloop, hL, List.takeWhile_append_of_pos]
      intro y hy
      simp [hall y hy]

/-- Whether a list is linked depends on its nodes only. -/
theorem Linked.congr (h : Linked s L) (hhead : t.head = s.head) (hmax : t.maxLevel = s.maxLevel)
    (hheap : ∀ i, ∀ p ∈ s.head :: L i, p ∈ t.heap)
    (hnode : ∀ i, ∀ p ∈ s.head :: L i, t.node p = s.node p) : Linked t L := by
  constructor
  · rw [hhead]
    exact hheap 0 s.head List.mem_cons_self
  · rw [hhead, hmax, hnode 0 s.head List.mem_cons_self]
    exact h.headLevel
  · intro i hi
    rw [hhead]
    rw [hmax] at hi
    apply (walk_congr _).2 (h.walk i hi)
    intro q hq
    rw [← List.map_cons] at hq
    obtain ⟨p, hp, rfl⟩ := List.mem_map.1 hq
    rw [field, field, Option.map_some, Option.map_some, hnode i p hp]
  · intro i
    rw [hhead]
    exact h.nodup i
  · intro i p hp
    have hp' := List.mem_cons_of_mem s.head hp
    refine ⟨hheap i p hp', ?_⟩
    rw [hnode i p hp']
    exact (h.mem i p hp).2

/-- Rewriting one level: the level lists change at this level only. A node that is freed must be
on none of them any more. -/
theorem Linked.update {gone : Option NodeId} (h : Linked s L) (hfreed : Freed s t gone)
    {xs : List NodeId} (hself : Walk (t.field i) (some s.head) (xs.map some) none)
    (hother : ∀ j, j ≠ i → t.field j = s.field j) (hnodup : (s.head :: xs).Nodup)
    (hmem : ∀ p ∈ xs, s.HasLink p i)
    (hgone : ∀ x ∈ gone, ∀ j, x ∉ s.head :: Function.update L i xs j) :
    Linked t (Function.update L i xs) := by
  have hlists : ∀ j, (s.head :: Function.update L i xs j).Nodup ∧
      (∀ p ∈ Function.update L i xs j, s.HasLink p j) ∧
      (j < s.maxLevel →
        Walk (t.field j) (some s.head) ((Function.update L i xs j).map some) none) := by
    intro j
    by_cases hji : j = i
    · subst hji
      rw [Function.update_self]
      exact ⟨hnodup, hmem, fun _ => hself⟩
    · rw [Function.update_of_ne hji, hother j hji]
      exact ⟨h.nodup j, h.mem j, h.walk j⟩
  have hheap : ∀ j, ∀ p ∈ s.head :: Function.update L i xs j, p ∈ s.heap → p ∈ t.heap := by
    intro j p hp hmem
    rw [hfreed.heap]
    cases gone with
    | none => exact hmem
    | some x =>
        have hne : p ≠ x := by
          rintro rfl
          exact hgone p rfl j hp
        exact (List.mem_erase_of_ne hne).2 hmem
  constructor
  · rw [hfreed.head]
    exact hheap 0 s.head List.mem_cons_self h.headMem
  · rw [hfreed.head, hfreed.height, hfreed.maxLevel]
    exact h.headLevel
  · intro j hj
    rw [hfreed.maxLevel] at hj
    rw [hfreed.head]
    exact (hlists j).2.2 hj
  · intro j
    rw [hfreed.head]
    exact (hlists j).1
  · intro j p hp
    have hlink := (hlists j).2.1 p hp
    refine ⟨hheap j p (List.mem_cons_of_mem s.head hp) hlink.1, ?_⟩
    rw [hfreed.height]
    exact hlink.2

/-! ### The invariant -/

/-- The skip list has the level lists `L`. Unlike in `skiplist.c`, `level` does not fall, and the
head has a key of its own. -/
structure Represents (s : SklistR) (L : ℕ → List NodeId) : Prop extends Linked s L where
  headKey : (s.node s.head).key = -1
  nested : ∀ i, (L (i + 1)).Sublist (L i)
  sorted : (L 0).Pairwise fun p q => (s.node p).key ≤ (s.node q).key
  nonempty : ∀ i, L i ≠ [] → i < s.level
  levelLe : s.level ≤ s.maxLevel
  size : s.size = (L 0).length
  heap : s.heap.Perm (s.head :: L 0)

theorem Represents.sublist_bottom (h : Represents s L) (i : ℕ) : (L i).Sublist (L 0) := by
  induction i with
  | zero => exact List.Sublist.refl _
  | succ i ih => exact (h.nested i).trans ih

theorem Represents.length_lt (h : Represents s L) (i : ℕ) : (L i).length < s.heap.length := by
  have hlen := (h.sublist_bottom i).length_le
  rw [h.heap.length_eq, List.length_cons]
  omega

/-- A condition on keys that is closed under greater keys splits the level lists. -/
theorem Represents.upClosed (h : Represents s L) {stop : ℤ → Bool}
    (hstop : ∀ a b, stop a = true → a ≤ b → stop b = true) (i : ℕ) :
    UpClosed (fun p => stop (s.node p).key) (L i) := by
  have hbottom : UpClosed (fun p => stop (s.node p).key) (L 0) :=
    h.sorted.imp fun hle hsat => hstop _ _ hsat hle
  exact hbottom.sublist (h.sublist_bottom i)

theorem Represents.upClosed_lt (h : Represents s L) (key : ℤ) (i : ℕ) :
    UpClosed (fun p => decide (key < (s.node p).key)) (L i) := by
  have hstop : ∀ a b : ℤ, decide (key < a) = true → a ≤ b → decide (key < b) = true := by
    intro a b ha hab
    exact decide_eq_true (lt_of_lt_of_le (of_decide_eq_true ha) hab)
  exact h.upClosed hstop i

/-- The nodes whose key is not less than `key`. -/
def notBelow (s : SklistR) (key : ℤ) (p : NodeId) : Bool := decide (key ≤ (s.node p).key)

/-- The nodes whose key is `key`. -/
def hasKey (s : SklistR) (key : ℤ) (p : NodeId) : Bool := decide (key = (s.node p).key)

theorem Freed.notBelow {gone : Option NodeId} (h : Freed s t gone) (key : ℤ) :
    t.notBelow key = s.notBelow key := by
  funext p
  rw [SklistR.notBelow, SklistR.notBelow, h.key]

theorem Freed.hasKey {gone : Option NodeId} (h : Freed s t gone) (key : ℤ) :
    t.hasKey key = s.hasKey key := by
  funext p
  rw [SklistR.hasKey, SklistR.hasKey, h.key]

theorem Represents.upClosed_notBelow (h : Represents s L) (key : ℤ) (i : ℕ) :
    UpClosed (s.notBelow key) (L i) := by
  have hstop : ∀ a b : ℤ, decide (key ≤ a) = true → a ≤ b → decide (key ≤ b) = true := by
    intro a b ha hab
    exact decide_eq_true (le_trans (of_decide_eq_true ha) hab)
  exact h.upClosed hstop i

/-- Behind a node with a greater key no node has the key. -/
theorem Represents.hasKey_first (h : Represents s L) (key : ℤ) (i : ℕ) {b : NodeId}
    {rest : List NodeId} (hfilter : (L i).filter (s.notBelow key) = b :: rest)
    (hb : s.hasKey key b = false) : ∀ a ∈ rest, s.hasKey key a = false := by
  intro a ha
  have hsorted : (b :: rest).Pairwise fun p q => (s.node p).key ≤ (s.node q).key := by
    rw [← hfilter]
    exact h.sorted.sublist (List.filter_sublist.trans (h.sublist_bottom i))
  have hbelow : s.notBelow key b = true := by
    have hmem : b ∈ (L i).filter (s.notBelow key) := by
      rw [hfilter]
      exact List.mem_cons_self
    exact (List.mem_filter.1 hmem).2
  have hle : (s.node b).key ≤ (s.node a).key := (List.pairwise_cons.1 hsorted).1 a ha
  have hkey : key ≤ (s.node b).key := of_decide_eq_true hbelow
  have hne : key ≠ (s.node b).key := of_decide_eq_false hb
  apply decide_eq_false
  omega

/-- On a level list, a node with the key is the first one that is not below it. -/
theorem Represents.eraseP_cases (h : Represents s L) (key : ℤ) (i : ℕ) :
    (((L i).filter (s.notBelow key) = [] ∨
        ∃ b rest, (L i).filter (s.notBelow key) = b :: rest ∧ s.hasKey key b = false) ∧
      ∀ a ∈ L i, ¬ s.hasKey key a = true) ∨
      ∃ b rest, (L i).filter (s.notBelow key) = b :: rest ∧ s.hasKey key b = true ∧
        (L i).find? (s.hasKey key) = some b ∧
        (L i).eraseP (s.hasKey key) = (L i).filter (fun a => !s.notBelow key a) ++ rest := by
  apply (h.upClosed_notBelow key i).eraseP_cases
  · intro a _ ha
    have heq : key = (s.node a).key := of_decide_eq_true ha
    exact decide_eq_true heq.le
  · intro b rest hfilter hb
    exact h.hasKey_first key i hfilter hb

/-! ### The keys of a level -/

/-- The keys behind the last node of a prefix. -/
theorem Linked.keysBehind (h : Linked s L) (hi : i < s.maxLevel) {l m : List NodeId}
    (hL : L i = l ++ m) {fuel : ℕ} (hfuel : m.length < fuel) :
    s.keysBehind i fuel (l.getLastD s.head) = some (m.map fun p => (s.node p).key) := by
  induction m generalizing l fuel with
  | nil =>
      obtain ⟨fuel, rfl⟩ := Nat.exists_eq_succ_of_ne_zero (Nat.ne_of_gt (Nat.zero_lt_of_lt hfuel))
      have hread := h.readLink hi hL
      rw [List.head?_nil] at hread
      simp only [SklistR.keysBehind, hread, Option.bind_eq_bind, Option.bind_some, List.map_nil]
  | cons x m ih =>
      obtain ⟨fuel, rfl⟩ := Nat.exists_eq_succ_of_ne_zero (Nat.ne_of_gt (Nat.zero_lt_of_lt hfuel))
      have hx : x ∈ L i := by simp [hL]
      have hread := h.readLink hi hL
      rw [List.head?_cons] at hread
      have hL' : L i = (l ++ [x]) ++ m := by simp [hL]
      have hrest := ih hL' (Nat.lt_of_succ_lt_succ hfuel)
      rw [List.getLastD_concat] at hrest
      simp only [SklistR.keysBehind, hread, Option.bind_eq_bind, Option.bind_some,
        readKey_eq (h.mem i x hx).1, hrest, List.map_cons]

theorem Represents.levelKeys (h : Represents s L) (hi : i < s.maxLevel) :
    s.levelKeys i = some ((L i).map fun p => (s.node p).key) :=
  h.keysBehind hi (List.nil_append (L i)).symm (h.length_lt i)

/-! ### A new list -/

/-- What `sklist_init` makes. -/
theorem represents_sklistInit {maxLevel : ℤ} {mallocList : Bool} {head : Option NodeId}
    (hs : sklistInit maxLevel mallocList head = some s) :
    Represents s (fun _ => []) ∧ s.maxLevel = maxLevel.toNat ∧ s.level = 0 := by
  unfold SklistR.sklistInit at hs
  split_ifs at hs
  cases head with
  | none => cases hs
  | some p =>
      obtain rfl := Option.some.inj hs
      refine ⟨⟨⟨List.mem_singleton_self p, rfl, ?_, ?_, ?_⟩, rfl, ?_, ?_, ?_, ?_, rfl, ?_⟩,
        rfl, rfl⟩
      · intro i _
        rfl
      · intro i
        exact List.nodup_singleton p
      · intro i q hq
        cases hq
      · intro i
        exact List.Sublist.refl []
      · exact List.Pairwise.nil
      · intro i hne
        exact absurd rfl hne
      · exact Nat.zero_le _
      · exact List.Perm.refl _

end SklistR

end Miscellany
