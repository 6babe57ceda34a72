import Miscellany.SkipList.Towers

/-!
# Freeing the skip list

The function `sklist_free` goes along the bottom list and deletes the key of each node it
stands on, having read the next node before. A deletion frees the first node with the key.
The loop always stands on the first node of the bottom list, so this is the node it stands
on, whatever happens on the upper levels, and the next node is not touched.
-/

namespace Miscellany

namespace Sklist

variable {K O : Type}

/-- A round of the loop of `sklist_free`: the node it stands on, and the list before and after the
deletion. -/
structure FreeRound (K O : Type) where
  before : Sklist K O
  node : NodeId
  after : Sklist K O

/-- The loop of `sklist_free` from `node` on. -/
def freeLoop : ℕ → NodeId → Sklist K O → Option (List (FreeRound K O) × Sklist K O)
  | 0, _, _ => none
  | fuel + 1, node, s =>
      if node = s.head then
        some ([], s)
      else do
        let next ← s.readLink node 0
        let getKey ← s.getKey
        let key ← s.readKey getKey node
        let r ← s.sklistDelete (some key)
        let rest ← freeLoop fuel next r.2
        some ({ before := s, node, after := r.2 } :: rest.1, rest.2)

structure FreeResult (K O : Type) where
  rounds : List (FreeRound K O)
  /-- The list behind the loop. -/
  drained : Sklist K O
  /-- The memory when the head is released. -/
  released : Sklist K O

/-- `sklist_free` for a list that is not null. -/
def sklistFree (s : Sklist K O) : Option (FreeResult K O) := do
  let node ← s.readLink s.head 0
  let r ← freeLoop s.heap.length node s
  some { rounds := r.1, drained := r.2, released := r.2.destroyNode r.2.head }

/-- The round removes and frees the node the loop stands on, and destroys its object. -/
structure FreeRound.Exact (r : FreeRound K O) : Prop where
  foreach : ∃ rest, r.before.sklistForeach = some (r.node :: rest) ∧
    r.after.sklistForeach = some rest
  heap : r.before.heap.Perm (r.node :: r.after.heap)
  destroyed : ∃ o, (r.before.node r.node).obj = some o ∧
    r.after.destroyed = r.before.destroyed ++ [o]

variable {s t : Sklist K O} {L : ℕ → List NodeId} {cmp : K → K → ℤ} {key : O → K}

theorem Loose.getKey (h : Loose s cmp key L) : s.getKey = some key := by
  obtain ⟨n, -, hrep⟩ := h.represents
  exact hrep.getKey

/-- The deletion of the key of the first node of the bottom list. -/
theorem Loose.sklistDelete_first (hcmp : Comparator cmp) (h : Loose s cmp key L)
    (hdestroy : s.destroy = true) {x : NodeId} {l : List NodeId} (hL : L 0 = x :: l) :
    ∃ o t M, (s.node x).obj = some o ∧ s.sklistDelete (some (key o)) = some (0, t) ∧
      Loose t cmp key M ∧ M 0 = l ∧ t.head = s.head ∧ t.maxLevel = s.maxLevel ∧
      t.destroy = true ∧ (∀ p, (t.node p).obj = (s.node p).obj) ∧
      s.heap.Perm (x :: t.heap) ∧ t.destroyed = s.destroyed ++ [o] := by
  have hx : x ∈ L 0 := by rw [hL]; exact List.mem_cons_self
  obtain ⟨o, ho⟩ := Option.isSome_iff_exists.1 (h.linked.obj 0 x hx)
  obtain ⟨t, hcall, hloose, hfreed⟩ := h.sklistDelete hcmp (key o)
  have hself : cmp (key o) (key o) = 0 := by
    have hneg := hcmp.neg_iff (key o) (key o)
    omega
  have hhas : s.hasKey cmp key (key o) x = true := by
    rw [hasKey, keySatisfies_eq ho, decide_eq_true_iff]
    exact hself
  have hfind : (L 0).find? (s.hasKey cmp key (key o)) = some x := by
    rw [hL, List.find?_cons_of_pos hhas]
  rw [hfind] at hfreed
  refine ⟨o, t, _, ho, hcall, hloose, ?_, hfreed.head, hfreed.maxLevel, ?_, hfreed.obj, ?_, ?_⟩
  · rw [hL, List.eraseP_cons_of_pos hhas]
  · rw [hfreed.rest]
    exact hdestroy
  · have hheap : t.heap = s.heap.erase x := hfreed.heap
    rw [hheap]
    exact List.perm_cons_erase (h.linked.mem_heap (List.mem_cons_of_mem s.head hx))
  · rw [hfreed.destroyed, if_pos hdestroy, Option.bind_some, ho]
    rfl

/-- The loop of `sklist_free`, from the first node of the bottom list on. -/
theorem Loose.freeLoop (hcmp : Comparator cmp) (h : Loose s cmp key L)
    (hdestroy : s.destroy = true) {nodes : List NodeId} (hL : L 0 = nodes) {fuel : ℕ}
    (hfuel : nodes.length < fuel) :
    ∃ rounds t M, Sklist.freeLoop fuel (nodes.headD s.head) s = some (rounds, t) ∧
      rounds.map FreeRound.node = nodes ∧ (∀ r ∈ rounds, r.Exact) ∧ Loose t cmp key M ∧
      M 0 = [] ∧ t.maxLevel = s.maxLevel ∧ t.destroyed = s.destroyed ++ s.objs nodes := by
  induction nodes generalizing s L fuel with
  | nil =>
      obtain ⟨fuel, rfl⟩ := Nat.exists_eq_succ_of_ne_zero (Nat.ne_of_gt (Nat.zero_lt_of_lt hfuel))
      refine ⟨[], s, L, ?_, rfl, nofun, h, hL, rfl, ?_⟩
      · rw [Sklist.freeLoop, List.headD_nil, if_pos rfl]
      · rw [objs, List.filterMap_nil, List.append_nil]
  | cons x l ih =>
      obtain ⟨fuel, rfl⟩ := Nat.exists_eq_succ_of_ne_zero (Nat.ne_of_gt (Nat.zero_lt_of_lt hfuel))
      obtain ⟨o, t, M, ho, hcall, hloose, hM, hhead, hmax, hdestroy', hobj, hheap, hdestroyed⟩ :=
        h.sklistDelete_first hcmp hdestroy hL
      obtain ⟨rounds, u, N, hloop, hnodes, hexact, hlast, hN, hmax', hall⟩ :=
        ih hloose hdestroy' hM (Nat.lt_of_succ_lt_succ hfuel)
      have hx : x ∈ L 0 := by rw [hL]; exact List.mem_cons_self
      have hread : s.readLink x 0 = some (l.headD s.head) := h.linked.readLink h.pos (l := [x]) hL
      have hkey : s.readKey key x = some (key o) := by
        rw [readKey, if_pos (h.linked.mem 0 x hx).1, ho, Option.map_some]
      have hround : FreeRound.Exact { before := s, node := x, after := t } :=
        ⟨⟨l, hL ▸ h.sklistForeach, hM ▸ hloose.sklistForeach⟩, hheap, o, ho, hdestroyed⟩
      rw [hhead] at hloop
      refine ⟨{ before := s, node := x, after := t } :: rounds, u, N, ?_, ?_, ?_, hlast, hN,
        hmax'.trans hmax, ?_⟩
      · simp only [Sklist.freeLoop, List.headD_cons, if_neg (h.linked.ne_head hx), hread,
          h.getKey, hkey, hcall, Option.bind_eq_bind, Option.bind_some, hloop]
      · rw [List.map_cons, hnodes]
      · intro r hr
        rcases List.mem_cons.1 hr with rfl | hr
        · exact hround
        · exact hexact r hr
      · rw [hall, hdestroyed, objs_congr fun p _ => hobj p, objs, objs, List.filterMap_cons, ho,
          List.append_assoc, List.singleton_append]

/-- In every list, `sklist_free` ends. Each round removes the node it stands on, the rounds go along
the bottom list, and `destroy` is called on its objects, once for each and in this order. When the
head is released, the list is empty on all levels; its release destroys nothing and frees the last
node. -/
theorem sklistFree_destroys (hcmp : Comparator cmp) (h : Reach cmp key (fun _ _ => True) s)
    (hdestroy : s.destroy = true) :
    ∃ nodes r, s.sklistForeach = some nodes ∧ s.sklistFree = some r ∧
      r.rounds.map FreeRound.node = nodes ∧ (∀ round ∈ r.rounds, round.Exact) ∧
      (s.objs nodes).length = nodes.length ∧
      r.drained.destroyed = s.destroyed ++ s.objs nodes ∧ r.drained.size = 0 ∧
      (∀ i < s.maxLevel, r.drained.levelNodes i = some []) ∧
      r.released.destroyed = r.drained.destroyed ∧ r.released.heap = [] := by
  obtain ⟨L, hloose⟩ := h.loose hcmp
  obtain ⟨rounds, t, M, hloop, hnodes, hexact, hlast, hM, hmax, hdestroyed⟩ :=
    hloose.freeLoop hcmp hdestroy rfl (hloose.length_lt 0)
  have hread : s.readLink s.head 0 = some ((L 0).headD s.head) :=
    hloose.linked.readLink hloose.pos (l := []) rfl
  have hheap : t.heap = [t.head] := by
    apply List.perm_singleton.1
    have hperm := hlast.heap
    rw [hM] at hperm
    exact hperm
  refine ⟨L 0, ⟨rounds, t, t.destroyNode t.head⟩, hloose.sklistForeach, ?_, hnodes, hexact, ?_,
    hdestroyed, ?_, ?_, ?_, ?_⟩
  · simp only [sklistFree, hread, hloop, Option.bind_eq_bind, Option.bind_some]
  · exact List.filterMap_length_eq_length.2 (hloose.linked.obj 0)
  · rw [hlast.size, hM]
    rfl
  · intro i hi
    have hnil : M i = [] := by
      have hsub := hlast.sublist_bottom i
      rw [hM] at hsub
      exact List.sublist_nil.1 hsub
    rw [← hnil]
    exact hlast.levelNodes (hmax ▸ hi)
  · simp only [destroyNode, hlast.headObj, Option.toList_none, ite_self, List.append_nil]
  · simp only [destroyNode, hheap, List.erase_cons_head]

theorem sklistFree_destroys_twoEqual :
    ∃ s r, twoEqual 1 2 = some s ∧ s.sklistFree = some r ∧
      r.rounds.map FreeRound.node = [1, 2] ∧ r.released.destroyed = [(1, 0), (1, 1)] := by
  have hlist : (twoEqual 1 2).map (fun s => (s.destroy, s.destroyed)) = some (true, []) := by
    decide +kernel
  have hnodes : (twoEqual 1 2).bind Sklist.sklistForeach = some [1, 2] := by decide +kernel
  have hobjs : (twoEqual 1 2).map (fun s => s.objs [1, 2]) = some [(1, 0), (1, 1)] := by
    decide +kernel
  obtain ⟨s, hs, hlist⟩ := Option.map_eq_some_iff.1 hlist
  rw [hs, Option.bind_some] at hnodes
  rw [hs, Option.map_some, Option.some.injEq] at hobjs
  rw [Prod.mk.injEq] at hlist
  have hreach := reach_twoEqual le_rfl (by decide) (by decide) le_rfl hs fun _ _ => True
  obtain ⟨nodes, r, hforeach, hfree, hrounds, -, -, hdestroyed, -, -, hreleased, -⟩ :=
    sklistFree_destroys comparator_sub hreach hlist.1
  rw [hnodes, Option.some.injEq] at hforeach
  subst hforeach
  refine ⟨s, r, hs, hfree, hrounds, ?_⟩
  rw [hreleased, hdestroyed, hlist.2, hobjs]
  rfl

end Sklist

end Miscellany
