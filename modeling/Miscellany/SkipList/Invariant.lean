import Miscellany.Library.SortedList
import Miscellany.Library.Walk
import Miscellany.SkipList.Basic

/-!
# The representation invariant of the skip list

`Linked s L` ties the links of a skip list to the sequence `L i` of the nodes of each
level list. It says nothing about how the levels are related, so it also describes the
list while an operation has treated some levels and not yet the others. `Represents`
adds what holds between calls: the levels are nested, the bottom one is sorted, and the
counters and the memory agree with it.

The inner loop of the three operations stops at the last node whose key does not make it
stop (`Linked.walkLevel`).
-/

namespace Miscellany

namespace Sklist

variable {K O : Type} {s t : Sklist K O} {L : ℕ → List NodeId} {i : ℕ} {p : NodeId}

/-! ### Memory -/

/-- The links of level `i`. -/
def linkAt (s : Sklist K O) (i : ℕ) (p : NodeId) : Option NodeId := (s.node p).link i

def prevAt (s : Sklist K O) (p : NodeId) : Option NodeId := (s.node p).prev

/-- From `s` to `t` only fields `link` and `prev` of nodes are written. -/
structure LinksOnly (s t : Sklist K O) : Prop where
  rest : t = { s with node := t.node }
  level : ∀ p, (t.node p).level = (s.node p).level
  obj : ∀ p, (t.node p).obj = (s.node p).obj

theorem LinksOnly.refl (s : Sklist K O) : LinksOnly s s := ⟨rfl, fun _ => rfl, fun _ => rfl⟩

theorem LinksOnly.trans {u : Sklist K O} (hst : LinksOnly s t) (htu : LinksOnly t u) :
    LinksOnly s u := by
  refine ⟨?_, fun p => (htu.level p).trans (hst.level p), fun p => (htu.obj p).trans (hst.obj p)⟩
  rw [htu.rest, hst.rest]

theorem LinksOnly.head (h : LinksOnly s t) : t.head = s.head := by rw [h.rest]

theorem LinksOnly.heap (h : LinksOnly s t) : t.heap = s.heap := by rw [h.rest]

theorem LinksOnly.maxLevel (h : LinksOnly s t) : t.maxLevel = s.maxLevel := by rw [h.rest]

theorem LinksOnly.listLevel (h : LinksOnly s t) : t.level = s.level := by rw [h.rest]

theorem LinksOnly.hasLink (h : LinksOnly s t) : t.HasLink p i ↔ s.HasLink p i := by
  rw [HasLink, HasLink, h.heap, h.level]

theorem linksOnly_setNode (s : Sklist K O) (p : NodeId) {f : Sknode O → Sknode O}
    (hlevel : ∀ n, (f n).level = n.level) (hobj : ∀ n, (f n).obj = n.obj) :
    LinksOnly s (s.setNode p f) := by
  refine ⟨rfl, fun q => ?_, fun q => ?_⟩
  all_goals
    by_cases hqp : q = p
    · subst hqp
      simp [setNode, hlevel, hobj]
    · simp [setNode, Function.update_of_ne hqp]

theorem linksOnly_setLink (s : Sklist K O) (p : NodeId) (i : ℕ) (v : NodeId) :
    LinksOnly s (s.setLink p i v) :=
  linksOnly_setNode s p (fun _ => rfl) fun _ => rfl

theorem linksOnly_setPrev (s : Sklist K O) (p v : NodeId) : LinksOnly s (s.setPrev p v) :=
  linksOnly_setNode s p (fun _ => rfl) fun _ => rfl

theorem linkAt_setLink_self (s : Sklist K O) (p : NodeId) (i : ℕ) (v : NodeId) :
    (s.setLink p i v).linkAt i = Function.update (s.linkAt i) p (some v) := by
  funext q
  by_cases hqp : q = p
  · subst hqp
    simp [linkAt, setLink, setNode]
  · simp [linkAt, setLink, setNode, Function.update_of_ne hqp]

theorem linkAt_setLink_of_ne (s : Sklist K O) (p : NodeId) (v : NodeId) {i j : ℕ} (hji : j ≠ i) :
    (s.setLink p i v).linkAt j = s.linkAt j := by
  funext q
  by_cases hqp : q = p
  · subst hqp
    simp [linkAt, setLink, setNode, Function.update_of_ne hji]
  · simp [linkAt, setLink, setNode, Function.update_of_ne hqp]

theorem prevAt_setLink (s : Sklist K O) (p : NodeId) (i : ℕ) (v : NodeId) :
    (s.setLink p i v).prevAt = s.prevAt := by
  funext q
  by_cases hqp : q = p
  · subst hqp
    simp [prevAt, setLink, setNode]
  · simp [prevAt, setLink, setNode, Function.update_of_ne hqp]

theorem linkAt_setPrev (s : Sklist K O) (p v : NodeId) (i : ℕ) :
    (s.setPrev p v).linkAt i = s.linkAt i := by
  funext q
  by_cases hqp : q = p
  · subst hqp
    simp [linkAt, setPrev, setNode]
  · simp [linkAt, setPrev, setNode, Function.update_of_ne hqp]

theorem prevAt_setPrev (s : Sklist K O) (p v : NodeId) :
    (s.setPrev p v).prevAt = Function.update s.prevAt p (some v) := by
  funext q
  by_cases hqp : q = p
  · subst hqp
    simp [prevAt, setPrev, setNode]
  · simp [prevAt, setPrev, setNode, Function.update_of_ne hqp]

theorem readLink_eq (h : s.HasLink p i) : s.readLink p i = s.linkAt i p := if_pos h

theorem writeLink_eq (h : s.HasLink p i) (v : NodeId) :
    s.writeLink p i v = some (s.setLink p i v) := if_pos h

theorem writePrev_eq (h : p ∈ s.heap) (v : NodeId) : s.writePrev p v = some (s.setPrev p v) :=
  if_pos h

/-! ### Freeing a node -/

/-- From `s` to `t` links are written, the node `gone`, if any, is freed and its object
destroyed. -/
structure Freed (s t : Sklist K O) (gone : Option NodeId) : Prop where
  rest : t = { s with
    node := t.node, level := t.level, heap := t.heap, size := t.size, destroyed := t.destroyed }
  height : ∀ p, (t.node p).level = (s.node p).level
  obj : ∀ p, (t.node p).obj = (s.node p).obj
  heap : t.heap = gone.elim s.heap fun p => s.heap.erase p
  size : t.size = gone.elim s.size fun _ => s.size - 1
  destroyed : t.destroyed =
    s.destroyed ++ if s.destroy then (gone.bind fun p => (s.node p).obj).toList else []

theorem Freed.refl (s : Sklist K O) : Freed s s none :=
  ⟨rfl, fun _ => rfl, fun _ => rfl, rfl, rfl, by simp⟩

theorem Freed.trans {u : Sklist K O} {gone : Option NodeId} (hst : Freed s t none)
    (htu : Freed t u gone) : Freed s u gone := by
  have hheap : t.heap = s.heap := hst.heap
  have hsize : t.size = s.size := hst.size
  have hdestroyed : t.destroyed = s.destroyed := by simpa using hst.destroyed
  have hdestroy : t.destroy = s.destroy := by rw [hst.rest]
  refine ⟨?_, fun p => (htu.height p).trans (hst.height p),
    fun p => (htu.obj p).trans (hst.obj p), ?_, ?_, ?_⟩
  · rw [htu.rest, hst.rest]
  · rw [htu.heap, hheap]
  · rw [htu.size, hsize]
  · rw [htu.destroyed, hdestroyed, hdestroy]
    simp only [hst.obj]

theorem Freed.head {gone : Option NodeId} (h : Freed s t gone) : t.head = s.head := by rw [h.rest]

theorem Freed.maxLevel {gone : Option NodeId} (h : Freed s t gone) : t.maxLevel = s.maxLevel := by
  rw [h.rest]

theorem Freed.mem_heap {gone : Option NodeId} (h : Freed s t gone) (hp : ∀ x ∈ gone, p ≠ x)
    (hmem : p ∈ s.heap) : p ∈ t.heap := by
  rw [h.heap]
  cases gone with
  | none => exact hmem
  | some x => exact (List.mem_erase_of_ne (hp x rfl)).2 hmem

theorem LinksOnly.freed (h : LinksOnly s t) (n : ℕ) : Freed s { t with level := n } none := by
  refine ⟨?_, h.level, h.obj, h.heap, ?_, ?_⟩
  · rw [h.rest]
  · rw [h.rest]
    rfl
  · rw [h.rest]
    simp

/-! ### Level lists -/

/-- The links of the skip list are those of the level lists `L`. -/
structure Linked (s : Sklist K O) (L : ℕ → List NodeId) : Prop where
  headMem : s.head ∈ s.heap
  headLevel : (s.node s.head).level = s.maxLevel
  walk : ∀ i < s.maxLevel, Walk (s.linkAt i) s.head (L i) s.head
  nodup : ∀ i, (s.head :: L i).Nodup
  mem : ∀ i, ∀ p ∈ L i, s.HasLink p i
  obj : ∀ i, ∀ p ∈ L i, (s.node p).obj.isSome
  prev : Walk s.prevAt s.head (L 0).reverse s.head

theorem Linked.hasLink (h : Linked s L) (hi : i < s.maxLevel) (hp : p ∈ s.head :: L i) :
    s.HasLink p i := by
  rcases List.mem_cons.1 hp with rfl | hp
  · exact ⟨h.headMem, by rw [h.headLevel]; exact hi⟩
  · exact h.mem i p hp

/-- Reading the link behind a prefix of a level list. -/
theorem Linked.readLink (h : Linked s L) (hi : i < s.maxLevel) {l m : List NodeId}
    (hL : L i = l ++ m) : s.readLink (l.getLastD s.head) i = some (m.headD s.head) := by
  have hwalk := h.walk i hi
  have hmem : l.getLastD s.head ∈ s.head :: L i := by
    rw [hL]
    exact getLastD_mem_append s.head l m
  rw [hL] at hwalk
  rw [readLink_eq (h.hasLink hi hmem)]
  exact walk_link_getLastD hwalk

theorem Linked.mem_heap (h : Linked s L) (hp : p ∈ s.head :: L i) : p ∈ s.heap := by
  rcases List.mem_cons.1 hp with rfl | hp
  · exact h.headMem
  · exact (h.mem i p hp).1

theorem Linked.ne_head (h : Linked s L) (hp : p ∈ L i) : p ≠ s.head := by
  rintro rfl
  exact (List.nodup_cons.1 (h.nodup i)).1 hp

/-- The object of the node has a key that satisfies `stop`. -/
def keySatisfies (s : Sklist K O) (getKey : O → K) (stop : K → Bool) (p : NodeId) : Bool :=
  ((s.node p).obj.map getKey).any stop

theorem keySatisfies_eq {o : O} (ho : (s.node p).obj = some o) (getKey : O → K)
    (stop : K → Bool) : s.keySatisfies getKey stop p = stop (getKey o) := by
  rw [keySatisfies, ho]
  rfl

theorem LinksOnly.keySatisfies (h : LinksOnly s t) (getKey : O → K) (stop : K → Bool) :
    t.keySatisfies getKey stop = s.keySatisfies getKey stop := by
  funext p
  rw [Sklist.keySatisfies, Sklist.keySatisfies, h.obj]

theorem Freed.keySatisfies {gone : Option NodeId} (h : Freed s t gone) (getKey : O → K)
    (stop : K → Bool) : t.keySatisfies getKey stop = s.keySatisfies getKey stop := by
  funext p
  rw [Sklist.keySatisfies, Sklist.keySatisfies, h.obj]

/-- The key of a linked node. -/
theorem Linked.readKey (h : Linked s L) (hp : p ∈ L i) (getKey : O → K) :
    ∃ k, s.readKey getKey p = some k ∧ ∀ stop, s.keySatisfies getKey stop p = stop k := by
  obtain ⟨o, ho⟩ := Option.isSome_iff_exists.1 (h.obj i p hp)
  refine ⟨getKey o, ?_, keySatisfies_eq ho getKey⟩
  rw [Sklist.readKey, if_pos (h.mem i p hp).1, ho, Option.map_some]

/-- The inner loop, from the last node of a prefix on. -/
theorem Linked.walkLevel_append (h : Linked s L) (hi : i < s.maxLevel) (getKey : O → K)
    (stop : K → Bool) {l m : List NodeId} (hL : L i = l ++ m) {fuel : ℕ}
    (hfuel : m.length < fuel) :
    s.walkLevel getKey stop i fuel (l.getLastD s.head) =
      some ((l ++ m.takeWhile fun p => !s.keySatisfies getKey stop p).getLastD s.head) := by
  induction m generalizing l fuel with
  | nil =>
      obtain ⟨fuel, rfl⟩ := Nat.exists_eq_succ_of_ne_zero (Nat.ne_of_gt (Nat.zero_lt_of_lt hfuel))
      have hread := h.readLink hi hL
      rw [List.headD_nil] at hread
      simp only [Sklist.walkLevel, hread, Option.bind_eq_bind, Option.bind_some, if_true,
        List.takeWhile_nil, List.append_nil]
  | cons x m ih =>
      obtain ⟨fuel, rfl⟩ := Nat.exists_eq_succ_of_ne_zero (Nat.ne_of_gt (Nat.zero_lt_of_lt hfuel))
      have hx : x ∈ L i := by simp [hL]
      obtain ⟨k, hkey, hstop⟩ := h.readKey hx getKey
      have hread := h.readLink hi hL
      rw [List.headD_cons] at hread
      simp only [Sklist.walkLevel, hread, Option.bind_eq_bind, Option.bind_some,
        if_neg (h.ne_head hx), hkey]
      rw [List.takeWhile_cons, hstop]
      cases hk : stop k with
      | true => simp
      | false =>
          have hL' : L i = (l ++ [x]) ++ m := by simp [hL]
          have hfuel' : m.length < fuel := by
            rw [List.length_cons] at hfuel
            omega
          have hrest := ih hL' hfuel'
          simpa using hrest

/-- The inner loop, from the head or from a node that does not make it stop: it ends at the last
such node. -/
theorem Linked.walkLevel (h : Linked s L) (hi : i < s.maxLevel) (getKey : O → K) (stop : K → Bool)
    (hup : UpClosed (s.keySatisfies getKey stop) (L i)) {node : NodeId}
    (hnode : node = s.head ∨ node ∈ L i ∧ s.keySatisfies getKey stop node = false) {fuel : ℕ}
    (hfuel : (L i).length < fuel) :
    s.walkLevel getKey stop i fuel node =
      some (((L i).filter fun p => !s.keySatisfies getKey stop p).getLastD s.head) := by
  rw [← hup.takeWhile_eq]
  rcases hnode with rfl | ⟨hmem, hstop⟩
  · exact h.walkLevel_append hi getKey stop (List.nil_append (L i)).symm hfuel
  · obtain ⟨u, v, hsplit, hall⟩ := hup.exists_split hmem hstop
    have hL : L i = (u ++ [node]) ++ v := by simp [hsplit]
    have hfuel' : v.length < fuel := by
      rw [hsplit, List.length_append, List.length_cons] at hfuel
      omega
    have hloop := h.walkLevel_append hi getKey stop hL hfuel'
    rw [List.getLastD_concat] at hloop
    rw [hloop, hL, List.takeWhile_append_of_pos]
    intro y hy
    simp [hall y hy]

/-- Whether a list is linked depends on its nodes only. -/
theorem Linked.congr (h : Linked s L) (hhead : t.head = s.head) (hmax : t.maxLevel = s.maxLevel)
    (hheap : ∀ i, ∀ p ∈ s.head :: L i, p ∈ t.heap)
    (hnode : ∀ i, ∀ p ∈ s.head :: L i, t.node p = s.node p) : Linked t L := by
  have hbottom : ∀ p ∈ s.head :: (L 0).reverse, t.node p = s.node p := by
    intro p hp
    rw [List.mem_cons, List.mem_reverse, ← List.mem_cons] at hp
    exact hnode 0 p hp
  refine ⟨?_, ?_, fun i hi => ?_, fun i => ?_, fun i p hp => ?_, fun i p hp => ?_, ?_⟩
  · rw [hhead]
    exact hheap 0 _ (by simp)
  · rw [hhead, hmax, hnode 0 _ (by simp)]
    exact h.headLevel
  · rw [hhead]
    refine (walk_congr fun p hp => ?_).2 (h.walk i (hmax ▸ hi))
    rw [linkAt, linkAt, hnode i p hp]
  · rw [hhead]
    exact h.nodup i
  · have hp' := List.mem_cons_of_mem s.head hp
    refine ⟨hheap i p hp', ?_⟩
    rw [hnode i p hp']
    exact (h.mem i p hp).2
  · rw [hnode i p (List.mem_cons_of_mem s.head hp)]
    exact h.obj i p hp
  · rw [hhead]
    refine (walk_congr fun p hp => ?_).2 h.prev
    rw [prevAt, prevAt, hbottom p hp]

/-- The field `level` is none of the links. -/
theorem Linked.setLevel (h : Linked s L) (n : ℕ) : Linked { s with level := n } L :=
  h.congr rfl rfl (fun _ _ hp => h.mem_heap hp) fun _ _ _ => rfl

/-- Rewriting one level: the level lists change at this level only. A node that is freed must be
on none of them any more. -/
theorem Linked.update {gone : Option NodeId} (h : Linked s L) (hfreed : Freed s t gone)
    {xs : List NodeId} (hself : Walk (t.linkAt i) s.head xs s.head)
    (hother : ∀ j, j ≠ i → t.linkAt j = s.linkAt j) (hnodup : (s.head :: xs).Nodup)
    (hmem : ∀ p ∈ xs, s.HasLink p i ∧ (s.node p).obj.isSome)
    (hprev : Walk t.prevAt s.head (Function.update L i xs 0).reverse s.head)
    (hgone : ∀ x ∈ gone, ∀ j, x ∉ s.head :: Function.update L i xs j) :
    Linked t (Function.update L i xs) := by
  have hmem' : ∀ j, ∀ p ∈ Function.update L i xs j, s.HasLink p j ∧ (s.node p).obj.isSome := by
    intro j p hp
    by_cases hji : j = i
    · subst hji
      rw [Function.update_self] at hp
      exact hmem p hp
    · rw [Function.update_of_ne hji] at hp
      exact ⟨h.mem j p hp, h.obj j p hp⟩
  have hkept : ∀ j, ∀ p ∈ s.head :: Function.update L i xs j, ∀ x ∈ gone, p ≠ x := by
    rintro j p hp x hx rfl
    exact hgone p hx j hp
  refine ⟨?_, ?_, fun j hj => ?_, fun j => ?_, fun j p hp => ⟨?_, ?_⟩, fun j p hp => ?_, ?_⟩
  · rw [hfreed.head]
    exact hfreed.mem_heap (hkept 0 s.head List.mem_cons_self) h.headMem
  · rw [hfreed.head, hfreed.height, hfreed.maxLevel]
    exact h.headLevel
  · rw [hfreed.maxLevel] at hj
    rw [hfreed.head]
    by_cases hji : j = i
    · subst hji
      rw [Function.update_self]
      exact hself
    · rw [Function.update_of_ne hji, hother j hji]
      exact h.walk j hj
  · rw [hfreed.head]
    by_cases hji : j = i
    · subst hji
      rw [Function.update_self]
      exact hnodup
    · rw [Function.update_of_ne hji]
      exact h.nodup j
  · exact hfreed.mem_heap (hkept j p (List.mem_cons_of_mem _ hp)) (hmem' j p hp).1.1
  · rw [hfreed.height]
    exact (hmem' j p hp).1.2
  · rw [hfreed.obj]
    exact (hmem' j p hp).2
  · rw [hfreed.head]
    exact hprev

/-! ### The invariant -/

/-- The key of `p` is not greater than that of `q`. -/
def KeyLe (s : Sklist K O) (cmp : K → K → ℤ) (key : O → K) (p q : NodeId) : Prop :=
  ∀ a b, (s.node p).obj = some a → (s.node q).obj = some b → cmp (key a) (key b) ≤ 0

/-- The skip list, with the given functions, has the level lists `L`. -/
structure Represents (s : Sklist K O) (cmp : K → K → ℤ) (key : O → K) (L : ℕ → List NodeId) :
    Prop extends Linked s L where
  cmpKey : s.cmpKey = some cmp
  getKey : s.getKey = some key
  nested : ∀ i, (L (i + 1)).Sublist (L i)
  sorted : (L 0).Pairwise (s.KeyLe cmp key)
  nonempty : ∀ i, L i ≠ [] ↔ i < s.level
  levelLe : s.level ≤ s.maxLevel
  size : s.size = (L 0).length
  heap : s.heap.Perm (s.head :: L 0)

theorem sublist_of_nested {i j : ℕ} (hij : i ≤ j)
    (h : ∀ k, k + 1 ≤ j → (L (k + 1)).Sublist (L k)) : (L j).Sublist (L i) := by
  induction j, hij using Nat.le_induction with
  | base => exact List.Sublist.refl _
  | succ j hij ih =>
      exact (h j le_rfl).trans (ih fun k hk => h k (Nat.le_succ_of_le hk))

theorem Represents.sublist_bottom {cmp : K → K → ℤ} {key : O → K}
    (h : Represents s cmp key L) (i : ℕ) : (L i).Sublist (L 0) :=
  sublist_of_nested (Nat.zero_le i) fun k _ => h.nested k

theorem Represents.length_lt {cmp : K → K → ℤ} {key : O → K} (h : Represents s cmp key L)
    (i : ℕ) : (L i).length < s.heap.length := by
  have hlen := (h.sublist_bottom i).length_le
  rw [h.heap.length_eq, List.length_cons]
  omega

/-- In a sorted list the nodes of which the key satisfies a predicate that is closed under
greater keys come last. -/
theorem Represents.upClosed {cmp : K → K → ℤ} {key : O → K} (h : Represents s cmp key L)
    {stop : K → Bool} (hstop : ∀ a b, stop a = true → cmp a b ≤ 0 → stop b = true) (i : ℕ) :
    UpClosed (s.keySatisfies key stop) (L i) := by
  have hbottom : UpClosed (s.keySatisfies key stop) (L 0) := by
    refine List.Pairwise.imp_of_mem (fun {a b} ha hb hle => ?_) h.sorted
    obtain ⟨oa, hoa⟩ := Option.isSome_iff_exists.1 (h.obj 0 a ha)
    obtain ⟨ob, hob⟩ := Option.isSome_iff_exists.1 (h.obj 0 b hb)
    rw [keySatisfies_eq hoa, keySatisfies_eq hob]
    exact fun hsat => hstop _ _ hsat (hle oa ob hoa hob)
  exact hbottom.sublist (h.sublist_bottom i)

end Sklist

end Miscellany
