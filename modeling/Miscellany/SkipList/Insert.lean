import Mathlib.Order.MinMax
import Miscellany.SkipList.Invariant

/-!
# Inserting into the skip list

One round of the loop of `sklist_insert` links the new node into the list of one level,
if the node is high enough (`Linked.insertLink`). The loop goes down the levels, and on
each of them it continues from where it stopped on the level above: this node is on the
lower level too, because the levels not yet treated are nested (`Linked.insertLoop`).
-/

namespace Miscellany

namespace Sklist

variable {K O : Type} {s t : Sklist K O} {L : ℕ → List NodeId} {i : ℕ} {new : NodeId}

/-! ### One level -/

/-- Linking the new node into a level list, behind the prefix `l`. -/
theorem Linked.insertLink (h : Linked s L) (hi : i < s.maxLevel) {l m : List NodeId}
    (hL : L i = l ++ m) (hnew : new ∈ s.heap) (hobj : (s.node new).obj.isSome)
    (hfresh : new ∉ s.head :: L i) (hheight : i < (s.node new).level) :
    ∃ t, s.insertLink new i (l.getLastD s.head) = some t ∧ LinksOnly s t ∧
      Linked t (Function.update L i (l ++ new :: m)) := by
  set node := l.getLastD s.head with hnode
  set next := m.headD s.head with hnext
  have hmemNode : node ∈ s.head :: L i := by
    rw [hL]
    exact getLastD_mem_append s.head l m
  have hmemNext : next ∈ s.head :: L i := by
    rw [hL]
    exact headD_mem_append s.head l m
  have hnodeNew : new ≠ node := fun heq => hfresh (heq ▸ hmemNode)
  have hlinkNew : s.HasLink new i := ⟨hnew, hheight⟩
  have hlinkNode := h.hasLink hi hmemNode
  have hread : s.readLink node i = some next := h.readLink hi hL
  set u := (s.setLink new i next).setLink node i new with hu
  have honly : LinksOnly s u :=
    (linksOnly_setLink s new i next).trans (linksOnly_setLink _ node i new)
  have hwrite : (s.setLink new i next).writeLink node i new = some u :=
    writeLink_eq ((linksOnly_setLink s new i next).hasLink.2 hlinkNode) new
  have hself : u.linkAt i =
      Function.update (Function.update (s.linkAt i) new (some next)) node (some new) := by
    rw [hu, linkAt_setLink_self, linkAt_setLink_self]
  have hother : ∀ j, j ≠ i → u.linkAt j = s.linkAt j := by
    intro j hji
    rw [hu, linkAt_setLink_of_ne _ _ _ hji, linkAt_setLink_of_ne _ _ _ hji]
  have hprev : u.prevAt = s.prevAt := by
    rw [hu, prevAt_setLink, prevAt_setLink]
  have hwalk := h.walk i hi
  have hnodup := h.nodup i
  rw [hL] at hwalk hnodup hfresh
  have hsplice := walk_splice hwalk hnodup hfresh
  rw [← hnode, ← hnext, ← hself] at hsplice
  have hmem : ∀ p ∈ l ++ new :: m, s.HasLink p i ∧ (s.node p).obj.isSome := by
    intro p hp
    rcases List.mem_cons.1 (List.perm_middle.mem_iff.1 hp) with rfl | hp
    · exact ⟨hlinkNew, hobj⟩
    · rw [← hL] at hp
      exact ⟨h.mem i p hp, h.obj i p hp⟩
  simp only [Sklist.insertLink, if_pos hheight, hread, Option.bind_eq_bind, Option.bind_some,
    writeLink_eq hlinkNew, hwrite]
  by_cases hzero : i = 0
  · subst hzero
    have hmemNew : new ∈ u.heap := by
      rw [honly.heap]
      exact hnew
    have hv := linksOnly_setPrev u new node
    have hreadNew : (u.setPrev new node).readLink new 0 = some next := by
      rw [readLink_eq (hv.hasLink.2 (honly.hasLink.2 hlinkNew)), linkAt_setPrev, hself,
        Function.update_of_ne hnodeNew, Function.update_self]
    have hnextHeap : next ∈ (u.setPrev new node).heap := by
      rw [hv.heap, honly.heap]
      exact h.mem_heap hmemNext
    simp only [if_true, writePrev_eq hmemNew, Option.bind_some, hreadNew, writePrev_eq hnextHeap]
    have honly' : LinksOnly s ((u.setPrev new node).setPrev next new) :=
      (honly.trans hv).trans (linksOnly_setPrev _ next new)
    have hfreed : Freed s ((u.setPrev new node).setPrev next new) none := honly'.freed _
    refine ⟨_, rfl, honly', h.update hfreed ?_ (fun j hj => ?_)
      (nodup_splice_iff.2 ⟨hfresh, hnodup⟩) hmem ?_ (by simp)⟩
    · rw [linkAt_setPrev, linkAt_setPrev]
      exact hsplice
    · rw [linkAt_setPrev, linkAt_setPrev]
      exact hother j hj
    -- Read backwards, the new node is spliced in behind the nodes that follow it.
    · have hback := h.prev
      rw [hL, List.reverse_append] at hback
      have hnodup' : (s.head :: (m.reverse ++ l.reverse)).Nodup := by
        rw [← List.reverse_append, List.nodup_cons, List.nodup_reverse, List.mem_reverse]
        exact List.nodup_cons.1 hnodup
      have hfresh' : new ∉ s.head :: (m.reverse ++ l.reverse) := by
        rw [← List.reverse_append, List.mem_cons, List.mem_reverse, ← List.mem_cons]
        exact hfresh
      have hsplice' := walk_splice hback hnodup' hfresh'
      rw [headD_reverse, getLastD_reverse, ← hnode, ← hnext, ← hprev, ← prevAt_setPrev,
        ← prevAt_setPrev] at hsplice'
      rw [Function.update_self, List.reverse_append, List.reverse_cons, List.append_assoc,
        List.singleton_append]
      exact hsplice'
  · simp only [if_neg hzero]
    have hfreed : Freed s u none := honly.freed u.level
    refine ⟨u, rfl, honly, h.update hfreed hsplice hother
      (nodup_splice_iff.2 ⟨hfresh, hnodup⟩) hmem ?_ (by simp)⟩
    rw [Function.update_of_ne (Ne.symm hzero), hprev]
    exact h.prev

/-! ### All levels -/

/-- The level lists after the new node, of the given height, has been put in front of the nodes
that satisfy `p`. -/
def insertLists (p : NodeId → Bool) (new : NodeId) (height : ℕ) (L : ℕ → List NodeId) (j : ℕ) :
    List NodeId :=
  if j < height then insertBefore p new (L j) else L j

/-- One round of the loop, behind the inner loop. -/
theorem Linked.insertLink_filter (h : Linked s L) (hi : i < s.maxLevel) {p : NodeId → Bool}
    (hup : UpClosed p (L i)) (hnew : new ∈ s.heap) (hobj : (s.node new).obj.isSome)
    (hfresh : new ∉ s.head :: L i) :
    ∃ t, s.insertLink new i (((L i).filter fun a => !p a).getLastD s.head) = some t ∧
      LinksOnly s t ∧
      Linked t (Function.update L i (insertLists p new (s.node new).level L i)) := by
  by_cases hheight : i < (s.node new).level
  · rw [insertLists, if_pos hheight]
    exact h.insertLink hi hup.filter_append_filter.symm hnew hobj hfresh hheight
  · refine ⟨s, by rw [Sklist.insertLink, if_neg hheight], LinksOnly.refl s, ?_⟩
    rw [insertLists, if_neg hheight, Function.update_eq_self]
    exact h

/-- The loop of `sklist_insert` over the levels below `i`. -/
theorem Linked.insertLoop (h : Linked s L) (hi : i ≤ s.maxLevel) (getKey : O → K)
    (stop : K → Bool) (hnew : new ∈ s.heap) (hobj : (s.node new).obj.isSome)
    (hfresh : ∀ j < i, new ∉ s.head :: L j)
    (hnested : ∀ j, j + 1 < i → (L (j + 1)).Sublist (L j))
    (hup : ∀ j < i, UpClosed (s.keySatisfies getKey stop) (L j))
    (hlen : ∀ j < i, (L j).length < s.heap.length) {node : NodeId}
    (hnode : ∀ j, i = j + 1 →
      node = s.head ∨ node ∈ L j ∧ s.keySatisfies getKey stop node = false) :
    ∃ t, Sklist.insertLoop getKey stop new i node s = some t ∧ LinksOnly s t ∧
      Linked t fun j =>
        if j < i then insertLists (s.keySatisfies getKey stop) new (s.node new).level L j
        else L j := by
  induction i generalizing s L node with
  | zero => exact ⟨s, rfl, LinksOnly.refl s, by simpa using h⟩
  | succ i ih =>
      set p := s.keySatisfies getKey stop with hp
      have hi' : i < s.maxLevel := hi
      have hwalk := h.walkLevel hi' getKey stop (hup i (by omega)) (hnode i rfl) (hlen i (by omega))
      rw [← hp] at hwalk
      obtain ⟨u, hu, honly, hlinked⟩ :=
        h.insertLink_filter hi' (hup i (by omega)) hnew hobj (hfresh i (by omega))
      set M := Function.update L i (insertLists p new (s.node new).level L i) with hM
      have hsame : ∀ j, j < i → M j = L j := fun j hj => Function.update_of_ne (by omega) _ _
      have hkeys : u.keySatisfies getKey stop = p := honly.keySatisfies getKey stop
      have hlevel : (u.node new).level = (s.node new).level := honly.level new
      -- The node where the inner loop has stopped is on the next level too.
      have hnode' : ∀ j, i = j + 1 → ((L i).filter fun a => !p a).getLastD s.head = u.head ∨
          ((L i).filter fun a => !p a).getLastD s.head ∈ M j ∧
            u.keySatisfies getKey stop (((L i).filter fun a => !p a).getLastD s.head) = false := by
        intro j hj
        rw [honly.head, hkeys, hsame j (by omega)]
        subst hj
        exact getLastD_filter_mem s.head (hnested j (by omega))
      obtain ⟨t, ht, hlast, hfinal⟩ := ih hlinked (by rw [honly.maxLevel]; omega)
        (by rw [honly.heap]; exact hnew) (by rw [honly.obj]; exact hobj)
        (fun j hj => by rw [honly.head, hsame j hj]; exact hfresh j (by omega))
        (fun j hj => by
          rw [hsame j (by omega), hsame (j + 1) (by omega)]
          exact hnested j (by omega))
        (fun j hj => by rw [hkeys, hsame j hj]; exact hup j (by omega))
        (fun j hj => by rw [honly.heap, hsame j hj]; exact hlen j (by omega)) hnode'
      refine ⟨t, ?_, honly.trans hlast, ?_⟩
      · simp only [Sklist.insertLoop, hwalk, Option.bind_eq_bind, Option.bind_some, hu]
        exact ht
      · rw [hkeys, hlevel] at hfinal
        convert hfinal using 2 with j
        rcases Nat.lt_trichotomy j i with hj | hj | hj
        · rw [if_pos (by omega), if_pos hj, insertLists, insertLists, hsame j hj]
        · subst hj
          rw [if_pos (by omega), if_neg (lt_irrefl j), hM, Function.update_self]
        · rw [if_neg (by omega), if_neg (by omega), hM, Function.update_of_ne (by omega)]

/-! ### The new list -/

variable {cmp : K → K → ℤ} {key : O → K} {height : ℕ} {o : O}

theorem raiseLevel_eq (s : Sklist K O) (height : ℕ) :
    s.raiseLevel height = { s with level := max s.level height } := by
  unfold raiseLevel
  split_ifs with hgt
  · rw [max_eq_right (by omega)]
  · rw [max_eq_left (by omega)]

/-- The list in which the loop of `sklist_insert` starts. -/
def withNode (s : Sklist K O) (new : NodeId) (o : O) (height : ℕ) : Sklist K O :=
  { s with
    level := max s.level height
    node := Function.update s.node new
      { link := fun _ => none, prev := none, level := height, obj := some o }
    heap := new :: s.heap }

theorem newNode_raiseLevel (hnew : new ∉ s.heap) (o : O) (height : ℕ) :
    (s.raiseLevel height).newNode (some new) (some o) height =
      some (new, s.withNode new o height) := by
  rw [raiseLevel_eq]
  simp only [newNode, if_neg hnew]
  rfl

theorem withNode_node_self (s : Sklist K O) (new : NodeId) (o : O) (height : ℕ) :
    (s.withNode new o height).node new =
      { link := fun _ => none, prev := none, level := height, obj := some o } :=
  Function.update_self _ _ _

theorem withNode_node_of_ne {p : NodeId} (hp : p ≠ new) (o : O) (height : ℕ) :
    (s.withNode new o height).node p = s.node p :=
  Function.update_of_ne hp _ _

theorem Represents.ne_new (h : Represents s cmp key L) (hnew : new ∉ s.heap) {p : NodeId}
    (hp : p ∈ s.head :: L i) : p ≠ new := by
  rintro rfl
  exact hnew (h.mem_heap hp)

theorem Represents.linked_withNode (h : Represents s cmp key L) (hnew : new ∉ s.heap) (o : O)
    (height : ℕ) : Linked (s.withNode new o height) L :=
  h.toLinked.congr rfl rfl (fun _ _ hp => List.mem_cons_of_mem new (h.mem_heap hp))
    fun _ _ hp => withNode_node_of_ne (h.ne_new hnew hp) o height

theorem keySatisfies_withNode (stop : K → Bool) {p : NodeId} (hp : p ≠ new) (o : O)
    (height : ℕ) :
    (s.withNode new o height).keySatisfies key stop p = s.keySatisfies key stop p := by
  rw [keySatisfies, keySatisfies, withNode_node_of_ne hp]

/-- The bottom list stays sorted. -/
theorem Represents.sorted_insertBefore (hcmp : Comparator cmp) (h : Represents s cmp key L)
    (hnew : new ∉ s.heap) {t : Sklist K O} (hobj : (t.node new).obj = some o)
    (hsame : ∀ p, p ≠ new → (t.node p).obj = (s.node p).obj) :
    (insertBefore (s.keySatisfies key fun k => cmp (key o) k < 0) new (L 0)).Pairwise
      (t.KeyLe cmp key) := by
  set p := s.keySatisfies key fun k => decide (cmp (key o) k < 0) with hp
  have hup : UpClosed p (L 0) := h.upClosed (hcmp.decide_lt (key o)) 0
  have hne : ∀ a ∈ L 0, a ≠ new := fun a ha => h.ne_new hnew (List.mem_cons_of_mem _ ha)
  have hkeep : ((L 0).filter (fun a => !p a) ++ (L 0).filter p).Pairwise (t.KeyLe cmp key) := by
    rw [hup.filter_append_filter]
    refine h.sorted.imp_of_mem fun {a b} ha hb hle => ?_
    rw [KeyLe, hsame a (hne a ha), hsame b (hne b hb)]
    exact hle
  obtain ⟨hlow, hhigh, hcross⟩ := List.pairwise_append.1 hkeep
  rw [insertBefore, List.pairwise_append, List.pairwise_cons]
  refine ⟨hlow, ⟨fun b hb => ?_, hhigh⟩, fun a ha b hb => ?_⟩
  · obtain ⟨hb, hsat⟩ := List.mem_filter.1 hb
    intro x y hx hy
    obtain rfl : o = x := Option.some.inj (hobj.symm.trans hx)
    rw [hsame b (hne b hb)] at hy
    rw [hp, keySatisfies_eq hy, decide_eq_true_iff] at hsat
    exact hsat.le
  · rcases List.mem_cons.1 hb with rfl | hb
    · obtain ⟨ha, hsat⟩ := List.mem_filter.1 ha
      intro x y hx hy
      obtain rfl : o = y := Option.some.inj (hobj.symm.trans hy)
      rw [hsame a (hne a ha)] at hx
      rw [hp, keySatisfies_eq hx, Bool.not_eq_true', decide_eq_false_iff_not, not_lt] at hsat
      exact (hcmp.nonneg_iff _ _).1 hsat
    · exact hcross a ha b hb

/-- The nested levels stay nested. -/
theorem insertLists_sublist {p : NodeId → Bool} (hnested : (L (i + 1)).Sublist (L i))
    (hup : UpClosed p (L i)) :
    (insertLists p new height L (i + 1)).Sublist (insertLists p new height L i) := by
  unfold insertLists
  split_ifs
  · exact insertBefore_sublist p new hnested
  · omega
  · exact hnested.trans (hup.sublist_insertBefore new)
  · exact hnested

/-- The loop of `sklist_insert`, on the list with the new node. The field `level` may be greater
than the number `n` of the lists that are not empty. -/
theorem Represents.insertLoop (hcmp : Comparator cmp) {n : ℕ}
    (h : Represents { s with level := n } cmp key L) (o : O) (hlevel : s.level ≤ s.maxLevel)
    (hmax : height ≤ s.maxLevel) (hnew : new ∉ s.heap) :
    ∃ t, Sklist.insertLoop key (fun k => cmp (key o) k < 0) new (max s.level height) s.head
        (s.withNode new o height) = some t ∧
      LinksOnly (s.withNode new o height) t ∧
      Linked t (insertLists (s.keySatisfies key fun k => cmp (key o) k < 0) new height L) := by
  set u := s.withNode new o height with hu
  set stop : K → Bool := fun k => decide (cmp (key o) k < 0) with hstop
  set p := s.keySatisfies key stop with hp
  have hup : ∀ j, UpClosed p (L j) := h.upClosed (hcmp.decide_lt (key o))
  have hnewNode := s.withNode_node_self new o height
  have hne : ∀ j, ∀ a ∈ L j, a ≠ new := fun j a ha => h.ne_new hnew (List.mem_cons_of_mem _ ha)
  have hkeys : ∀ j, ∀ a ∈ L j, u.keySatisfies key stop a = p a := fun j a ha =>
    keySatisfies_withNode stop (hne j a ha) o height
  have hlinkedU : Linked u L := (h.linked_withNode hnew o height).setLevel (max s.level height)
  obtain ⟨t, ht, honly, hlinked⟩ := hlinkedU.insertLoop (max_le hlevel hmax) key stop
    List.mem_cons_self (by rw [hnewNode]; rfl)
    (fun j _ hmem => h.ne_new hnew hmem rfl) (fun j _ => h.nested j)
    (fun j _ => (hup j).imp_of_mem fun {a b} ha hb hab => by
      rw [hkeys j a ha, hkeys j b hb]
      exact hab)
    (fun j _ => lt_trans (h.length_lt j) (Nat.lt_succ_self _))
    (fun _ _ => Or.inl rfl)
  refine ⟨t, ht, honly, ?_⟩
  -- Above its height the new node changes nothing.
  have hlists : (fun j => if j < max s.level height then
      insertLists (u.keySatisfies key stop) new (u.node new).level L j else L j) =
      insertLists p new height L := by
    funext j
    rw [hu, hnewNode, ← hu]
    by_cases hj : j < height
    · rw [if_pos (by omega), insertLists, insertLists, if_pos hj, if_pos hj,
        insertBefore_congr (hkeys j)]
    · rw [insertLists, insertLists, if_neg hj, if_neg hj, ite_self]
  rw [← hlists]
  exact hlinked

/-- What `sklist_insert` does: the new node is put, on each level below its height, behind the
nodes whose keys are not greater than its own and before the others. The field `level` may be
greater than the number `n` of the lists that are not empty. -/
theorem Represents.sklistInsert_raised (hcmp : Comparator cmp) {n : ℕ}
    (h : Represents { s with level := n } cmp key L) (o : O) (hlevel : s.level ≤ s.maxLevel)
    (hpos : 1 ≤ height) (hmax : height ≤ s.maxLevel) (hnew : new ∉ s.heap) :
    ∃ t, s.sklistInsert (some o) height (some new) = some (0, t) ∧
      t.level = max s.level height ∧
      Represents { t with level := max n height } cmp key
        (insertLists (s.keySatisfies key fun k => cmp (key o) k < 0) new height L) ∧
      LinksOnly (s.withNode new o height) { t with size := s.size } := by
  set p := s.keySatisfies key fun k => decide (cmp (key o) k < 0) with hp
  have hup : ∀ j, UpClosed p (L j) := h.upClosed (hcmp.decide_lt (key o))
  have hget : s.getKey = some key := h.getKey
  have hset : s.cmpKey = some cmp := h.cmpKey
  have hle : n ≤ s.maxLevel := h.levelLe
  obtain ⟨t, ht, honly, hlinked⟩ := h.insertLoop hcmp o hlevel hmax hnew
  have hobjNew : (t.node new).obj = some o := by
    rw [honly.obj, withNode_node_self]
  have hobjSame : ∀ q, q ≠ new → (t.node q).obj = (s.node q).obj := by
    intro q hq
    rw [honly.obj, withNode_node_of_ne hq]
  have hbottom : insertLists p new height L 0 = insertBefore p new (L 0) := if_pos (by omega)
  have hsize : t.size = s.size := by rw [honly.rest]; rfl
  refine ⟨{ t with size := t.size + 1 }, ?_, honly.listLevel, ⟨?_, ?_, ?_, fun j => ?_, ?_,
    fun j => ?_, ?_, ?_, ?_⟩, ?_⟩
  · simp only [Sklist.sklistInsert, hget, hset, newNode_raiseLevel hnew, Option.bind_eq_bind]
    change (Sklist.insertLoop key _ new (max s.level height) s.head _).bind _ = _
    rw [ht]
    rfl
  · exact hlinked.congr rfl rfl (fun _ _ hq => hlinked.mem_heap hq) fun _ _ _ => rfl
  · rw [honly.rest]
    exact h.cmpKey
  · rw [honly.rest]
    exact h.getKey
  · exact insertLists_sublist (h.nested j) (hup j)
  · rw [hbottom]
    exact h.sorted_insertBefore hcmp hnew hobjNew hobjSame
  · have hcount : L j ≠ [] ↔ j < n := h.nonempty j
    change _ ↔ j < max n height
    rw [insertLists, lt_max_iff]
    by_cases hj : j < height
    · simp [hj, insertBefore]
    · rw [if_neg hj, hcount]
      simp [hj]
  · change max n height ≤ t.maxLevel
    rw [honly.maxLevel]
    exact max_le hle hmax
  · have hlen : s.size = (L 0).length := h.size
    change t.size + 1 = _
    rw [hbottom, ((hup 0).perm_insertBefore new).length_eq, List.length_cons, hsize, hlen]
    push_cast
    rfl
  · change t.heap.Perm (t.head :: _)
    rw [hbottom, honly.heap, honly.head]
    have hperm := (h.heap.cons new).trans (List.Perm.swap s.head new (L 0))
    exact hperm.trans (((hup 0).perm_insertBefore new).symm.cons s.head)
  · refine ⟨?_, honly.level, honly.obj⟩
    change { t with size := s.size } = { s.withNode new o height with node := t.node }
    rw [← hsize]
    exact honly.rest

/-- `sklist_insert` where `level` is the number of the lists that are not empty. -/
theorem Represents.sklistInsert (hcmp : Comparator cmp) (h : Represents s cmp key L) (o : O)
    (hpos : 1 ≤ height) (hmax : height ≤ s.maxLevel) (hnew : new ∉ s.heap) :
    ∃ t, s.sklistInsert (some o) height (some new) = some (0, t) ∧
      Represents t cmp key
        (insertLists (s.keySatisfies key fun k => cmp (key o) k < 0) new height L) ∧
      (t.node new).obj = some o ∧ (∀ p, p ≠ new → (t.node p).obj = (s.node p).obj) ∧
      t.maxLevel = s.maxLevel ∧ t.destroy = s.destroy ∧ t.destroyed = s.destroyed := by
  obtain ⟨t, ht, hlevel, hrep, honly⟩ := h.sklistInsert_raised hcmp o h.levelLe hpos hmax hnew
  rw [← hlevel] at hrep
  refine ⟨t, ht, hrep, ?_, fun q hq => ?_, honly.maxLevel, ?_, ?_⟩
  · exact (honly.obj new).trans (by rw [withNode_node_self])
  · exact (honly.obj q).trans (by rw [withNode_node_of_ne hq])
  · have hdestroy := congrArg Sklist.destroy honly.rest
    exact hdestroy
  · have hdestroyed := congrArg Sklist.destroyed honly.rest
    exact hdestroyed

end Sklist

end Miscellany
