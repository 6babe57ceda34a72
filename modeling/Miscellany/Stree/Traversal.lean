import Mathlib.Data.Int.Order.Basic
import Miscellany.Stree.Build

/-!
# The tree that is built, and its traversals

The positions of a described tree fit together (`Placed.layout`), so `build` links every node
as in the tree: the children of a node are the chain of siblings from its first child on
(`Represents`). The stack of `depth_traversal` holds the roots of a forest whose nodes, in
preorder, are what is left to visit. The queue of `breadth_traversal` holds the rest of one
level and then a part of the next.
-/

namespace Miscellany

open OrderedTree

variable {K D : Type} [LinearOrder K]

namespace Placed

variable {h : StreeHelper K D} {T : OrderedTree K} {data : K → D}

/-- The position that the helper has for a key, which is empty if it has none. -/
def pos (h : StreeHelper K D) (k : K) : StreeNodePos K := h.nodePos[k]?.getD .init

theorem pos_child (hp : Placed h T data) {t : OrderedTree K} (ht : t ∈ T.family) {u v : List K}
    {k : K} (hsplit : t.children.map key = u ++ k :: v) :
    pos h k = { parent := some t.key, left := u.getLast?, right := v.head? } := by
  rw [pos, hp.child t ht u k v hsplit, Option.getD_some]

/-- A key is somewhere among the children of a node or has an empty position. -/
theorem pos_cases (hp : Placed h T data) (k : K) :
    (∃ t ∈ T.family, ∃ u v, t.children.map key = u ++ k :: v) ∨
      (∀ t ∈ T.family, k ∉ t.children.map key) ∧ pos h k = .init := by
  by_cases hk : ∃ t ∈ T.family, k ∈ t.children.map key
  · obtain ⟨t, ht, hmem⟩ := hk
    exact Or.inl ⟨t, ht, List.append_of_mem hmem⟩
  · have hother : ∀ t ∈ T.family, k ∉ t.children.map key := fun t ht hmem => hk ⟨t, ht, hmem⟩
    refine Or.inr ⟨hother, ?_⟩
    rw [pos]
    cases hpos : h.nodePos[k]? with
    | none => rfl
    | some x => exact hp.other k hother x hpos

theorem left_iff (hp : Placed h T data) (a b : K) :
    (pos h b).left = some a ↔ (pos h a).right = some b := by
  constructor
  · intro hleft
    rcases hp.pos_cases b with ⟨t, ht, u, v, hsplit⟩ | ⟨-, hinit⟩
    · rw [hp.pos_child ht hsplit] at hleft
      obtain ⟨w, rfl⟩ := List.getLast?_eq_some_iff.1 hleft
      have hsplit' : t.children.map key = w ++ a :: b :: v := by
        rw [hsplit, List.append_assoc, List.singleton_append]
      rw [hp.pos_child ht hsplit', List.head?_cons]
    · rw [hinit] at hleft
      cases hleft
  · intro hright
    rcases hp.pos_cases a with ⟨t, ht, u, v, hsplit⟩ | ⟨-, hinit⟩
    · rw [hp.pos_child ht hsplit] at hright
      obtain ⟨w, rfl⟩ := List.head?_eq_some_iff.1 hright
      have hsplit' : t.children.map key = (u ++ [a]) ++ b :: w := by
        rw [hsplit, List.append_assoc, List.singleton_append]
      rw [hp.pos_child ht hsplit', List.getLast?_concat]
    · rw [hinit] at hright
      cases hright

theorem layout (hp : Placed h T data) (hT : T.keys.Nodup) :
    Stree.Layout T.keys (pos h) := by
  constructor
  · exact hp.left_iff
  · intro a ha b hb hparent hlefta hleftb
    have hkeys : ∀ k ∈ T.keys, (∀ t ∈ T.family, k ∉ t.children.map key) → k = T.key := by
      intro k hk hother
      rcases List.mem_cons.1 (T.keys_perm.mem_iff.1 hk) with heq | hmem
      · exact heq
      · obtain ⟨t, ht, hmem⟩ := List.mem_flatMap.1 hmem
        exact absurd hmem (hother t ht)
    rcases hp.pos_cases a with ⟨t, ht, u, v, hsplit⟩ | ⟨hother, hinit⟩
    · rcases hp.pos_cases b with ⟨t', ht', u', v', hsplit'⟩ | ⟨-, hinit'⟩
      · rw [hp.pos_child ht hsplit] at hparent hlefta
        rw [hp.pos_child ht' hsplit'] at hparent hleftb
        obtain rfl := List.inj_on_of_nodup_map hT ht ht' (Option.some.inj hparent)
        obtain rfl := List.getLast?_eq_none_iff.1 hlefta
        obtain rfl := List.getLast?_eq_none_iff.1 hleftb
        rw [hsplit] at hsplit'
        exact (List.cons.inj hsplit').1
      · rw [hp.pos_child ht hsplit, hinit'] at hparent
        cases hparent
    · rcases hp.pos_cases b with ⟨t', ht', u', v', hsplit'⟩ | ⟨hother', -⟩
      · rw [hp.pos_child ht' hsplit', hinit] at hparent
        cases hparent
      · rw [hkeys a ha hother, hkeys b hb hother']
  · intro a hparent
    rcases hp.pos_cases a with ⟨t, ht, u, v, hsplit⟩ | ⟨-, hinit⟩
    · rw [hp.pos_child ht hsplit] at hparent
      cases hparent
    · rw [hinit]
      exact ⟨rfl, rfl⟩

end Placed

namespace Stree

/-! ### The tree that is built -/

/-- The keys are the chain of links from the given one on, down to a null pointer. -/
def Siblings (next : K → Option K) : Option K → List K → Prop
  | first, [] => first = none
  | first, k :: ks => first = some k ∧ Siblings next (next k) ks

omit [LinearOrder K] in
theorem siblings_of_next {next : K → Option K} {ks : List K}
    (hnext : ∀ u k v, ks = u ++ k :: v → next k = v.head?) : Siblings next ks.head? ks := by
  induction ks with
  | nil => rfl
  | cons k ks ih =>
      refine ⟨rfl, ?_⟩
      rw [hnext [] k ks rfl]
      apply ih
      intro u a v hsplit
      apply hnext (k :: u)
      rw [hsplit, List.cons_append]

/-- The tree in memory is the given one. -/
structure Represents (s : Stree K D) (T : OrderedTree K) (data : K → D) : Prop where
  root : s.root = some T.key
  mem : ∀ k ∈ T.keys, k ∈ s.nodes
  data : ∀ k ∈ T.keys, s.field StreeNode.data k = some (data k)
  parent : ∀ t ∈ T.family, ∀ c ∈ t.children, s.field StreeNode.parent c.key = some t.key
  children : ∀ t ∈ T.family,
    Siblings (s.field StreeNode.rightSibling) (s.field StreeNode.leftChild t.key)
      (t.children.map key)

end Stree

namespace Placed

variable {h : StreeHelper K D} {T : OrderedTree K} {data : K → D} {s : Stree K D} {done : List K}

/-- Every key has a position. -/
theorem nodePos_eq (hp : Placed h T data) {k : K} (hk : k ∈ T.keys) :
    h.nodePos[k]? = some (pos h k) := by
  rcases List.mem_cons.1 (T.keys_perm.mem_iff.1 hk) with rfl | hmem
  · rw [pos, hp.root, Option.getD_some]
  · obtain ⟨t, ht, hmem⟩ := List.mem_flatMap.1 hmem
    obtain ⟨u, v, hsplit⟩ := List.append_of_mem hmem
    rw [pos, hp.child t ht u k v hsplit, Option.getD_some]

/-- The first child of a node is the only one that is linked from it. -/
theorem leftChild_eq (hp : Placed h T data) (hT : T.keys.Nodup)
    (hbuilt : Stree.Built (pos h) data done s) (hdone : ∀ k, k ∈ done ↔ k ∈ T.keys)
    {t : OrderedTree K} (ht : t ∈ T.family) :
    s.field StreeNode.leftChild t.key = (t.children.map key).head? := by
  apply Option.ext
  intro c
  rw [hbuilt.leftChild]
  constructor
  · rintro ⟨-, hparent, hleft⟩
    rcases hp.pos_cases c with ⟨t', ht', u, v, hsplit⟩ | ⟨-, hinit⟩
    · rw [hp.pos_child ht' hsplit] at hparent hleft
      obtain rfl := List.inj_on_of_nodup_map hT ht' ht (Option.some.inj hparent)
      obtain rfl := List.getLast?_eq_none_iff.1 hleft
      rw [hsplit]
      rfl
    · rw [hinit] at hparent
      cases hparent
  · intro hhead
    obtain ⟨v, hsplit⟩ := List.head?_eq_some_iff.1 hhead
    have hpos := hp.pos_child (u := []) ht hsplit
    refine ⟨(hdone c).2 ?_, ?_, ?_⟩
    · have hmem : c ∈ t.children.map key := by
        rw [hsplit]
        exact List.mem_cons_self
      obtain ⟨a, ha, rfl⟩ := List.mem_map.1 hmem
      exact key_mem_keys (children_mem_family ht ha)
    · rw [hpos]
    · rw [hpos]
      rfl

/-- With all nodes added, the tree in memory is the one that is described. -/
theorem represents (hp : Placed h T data) (hT : T.keys.Nodup)
    (hbuilt : Stree.Built (pos h) data done s) (hdone : ∀ k, k ∈ done ↔ k ∈ T.keys) :
    s.Represents T data := by
  constructor
  · apply hbuilt.root T.key ((hdone T.key).2 (key_mem_keys T.self_mem_family))
    rw [pos, hp.root]
    rfl
  · intro k hk
    exact hbuilt.mem k ((hdone k).2 hk)
  · intro k hk
    exact hbuilt.data k ((hdone k).2 hk)
  · intro t ht c hc
    obtain ⟨u, v, hsplit⟩ := List.append_of_mem (List.mem_map_of_mem (f := key) hc)
    have hkey := (hdone c.key).2 (key_mem_keys (children_mem_family ht hc))
    apply (hbuilt.parent c.key t.key).2
    rw [hp.pos_child ht hsplit]
    exact ⟨hkey, rfl⟩
  · intro t ht
    rw [hp.leftChild_eq hT hbuilt hdone ht]
    apply Stree.siblings_of_next
    intro u k v hsplit
    have hmem : k ∈ t.children.map key := by
      rw [hsplit]
      exact List.mem_append_right u List.mem_cons_self
    obtain ⟨c, hc, rfl⟩ := List.mem_map.1 hmem
    have hkey := (hdone c.key).2 (key_mem_keys (children_mem_family ht hc))
    apply Option.ext
    intro r
    rw [hbuilt.rightSibling, and_iff_right (Or.inl hkey), hp.pos_child ht hsplit]

/-- The entries that `build` goes through. -/
theorem entries (hp : Placed h T data) :
    (∀ e ∈ h.nodeData.toList, e.1 ∈ T.keys ∧ e.2 = data e.1) ∧
      (h.nodeData.toList.map Prod.fst).Nodup ∧
      ∀ k, k ∈ h.nodeData.toList.map Prod.fst ↔ k ∈ T.keys := by
  have hentries : ∀ e ∈ h.nodeData.toList, e.1 ∈ T.keys ∧ e.2 = data e.1 := by
    intro e he
    exact (hp.nodeData e.1 e.2).1 (Std.TreeMap.mem_toList_iff_getElem?_eq_some.1 he)
  refine ⟨hentries, ?_, ?_⟩
  · rw [Std.TreeMap.map_fst_toList_eq_keys]
    exact Std.TreeMap.nodup_keys
  · intro k
    rw [List.mem_map]
    constructor
    · rintro ⟨e, he, rfl⟩
      exact (hentries e he).1
    · intro hk
      have hget : h.nodeData[k]? = some (data k) := (hp.nodeData k (data k)).2 ⟨hk, rfl⟩
      exact ⟨(k, data k), Std.TreeMap.mem_toList_iff_getElem?_eq_some.2 hget, rfl⟩

/-- `build` adds all nodes. -/
theorem exists_built (hp : Placed h T data) (hT : T.keys.Nodup) (root : Option K) :
    ∃ s done, (Stree.init root).build h = some s ∧ (∀ k, k ∈ done ↔ k ∈ T.keys) ∧
      Stree.Built (pos h) data done s := by
  obtain ⟨hentries, hnodup, hkeys⟩ := hp.entries
  obtain ⟨s, hs, hbuilt⟩ := (Stree.built_init (pos h) data root).foldlM (hp.layout hT) hentries
    (fun k hk => hp.nodePos_eq hk) (fun x hx => nomatch hx) hnodup fun k _ hk => nomatch hk
  refine ⟨s, _, hs, ?_, hbuilt⟩
  intro k
  rw [List.append_nil, List.mem_reverse, hkeys]

/-- `build` makes the tree that is described, whatever `root` was before. -/
theorem build (hp : Placed h T data) (hT : T.keys.Nodup) (root : Option K) :
    ∃ s, (Stree.init root).build h = some s ∧ s.Represents T data := by
  obtain ⟨s, done, hs, hdone, hbuilt⟩ := hp.exists_built hT root
  exact ⟨s, hs, hp.represents hT hbuilt hdone⟩

end Placed

namespace Stree

variable {s : Stree K D} {T : OrderedTree K} {data : K → D}

/-! ### The children of a node -/

theorem unload_eq {α : Type} (vec stack : List α) : unload vec stack = vec.reverse ++ stack := by
  induction vec generalizing stack with
  | nil => rfl
  | cons x vec ih => rw [unload, ih, List.reverse_cons, List.append_assoc, List.singleton_append]

/-- The fields of a node that is there. -/
theorem exists_node {k : K} (hk : k ∈ s.nodes) :
    ∃ n, s.nodes[k]? = some n ∧ ∀ f : StreeNode K D → Option K, s.field f k = f n := by
  obtain ⟨n, hn⟩ := Option.isSome_iff_exists.1 (Std.TreeMap.mem_iff_isSome_getElem?.1 hk)
  refine ⟨n, hn, fun f => ?_⟩
  rw [field, hn, Option.bind_some]

/-- The loop over the children pushes them in order. -/
theorem childLoop_eq (push : ℕ × K → List (ℕ × K) → List (ℕ × K)) (d : ℕ) {first : Option K}
    {ks : List K} (hks : Siblings (s.field StreeNode.rightSibling) first ks)
    (hmem : ∀ k ∈ ks, k ∈ s.nodes) {fuel : ℕ} (hfuel : ks.length < fuel) (vec : List (ℕ × K)) :
    s.childLoop push d fuel first vec = some (ks.foldl (fun vec k => push (d, k) vec) vec) := by
  induction ks generalizing first fuel vec with
  | nil =>
      obtain ⟨fuel, rfl⟩ := Nat.exists_eq_succ_of_ne_zero (Nat.ne_of_gt (Nat.zero_lt_of_lt hfuel))
      have hnone : first = none := hks
      rw [hnone]
      rfl
  | cons k ks ih =>
      obtain ⟨fuel, rfl⟩ := Nat.exists_eq_succ_of_ne_zero (Nat.ne_of_gt (Nat.zero_lt_of_lt hfuel))
      obtain ⟨hfirst, hrest⟩ := hks
      obtain ⟨n, hn, hfield⟩ := exists_node (hmem k List.mem_cons_self)
      rw [hfield] at hrest
      have hloop := ih hrest (fun a ha => hmem a (List.mem_cons_of_mem k ha))
        (Nat.lt_of_succ_lt_succ hfuel) (push (d, k) vec)
      rw [hfirst, childLoop, hn]
      exact hloop

/-- Keys that are there are not more than the nodes. -/
theorem length_le_size {ks : List K} (hnodup : ks.Nodup) (hks : ∀ k ∈ ks, k ∈ s.nodes) :
    ks.length ≤ s.nodes.size := by
  rw [← Std.TreeMap.length_keys]
  have hsub : ks ⊆ s.nodes.keys := fun k hk => Std.TreeMap.mem_keys.2 (hks k hk)
  exact (List.subperm_of_subset hnodup hsub).length_le

theorem Represents.size_le (h : s.Represents T data) (hT : T.keys.Nodup) :
    T.size ≤ s.nodes.size := by
  have hle := length_le_size hT h.mem
  rw [keys, List.length_map] at hle
  exact hle

/-- Reading the children of a node. -/
theorem Represents.childLoop (h : s.Represents T data) (hT : T.keys.Nodup) {t : OrderedTree K}
    (ht : t ∈ T.family) (push : ℕ × K → List (ℕ × K) → List (ℕ × K)) (d : ℕ)
    (vec : List (ℕ × K)) :
    ∃ n, s.nodes[t.key]? = some n ∧
      s.childLoop push d (s.nodes.size + 1) n.leftChild vec =
        some ((t.children.map key).foldl (fun vec k => push (d, k) vec) vec) := by
  obtain ⟨n, hn, hfield⟩ := exists_node (h.mem t.key (key_mem_keys ht))
  have hnodup : (t.children.map key).Nodup := by
    have hall := (List.nodup_cons.1 (T.keys_perm.nodup_iff.1 hT)).2
    exact (List.nodup_flatMap.1 hall).1 t ht
  have hmem : ∀ k ∈ t.children.map key, k ∈ s.nodes := by
    intro k hk
    obtain ⟨c, hc, rfl⟩ := List.mem_map.1 hk
    exact h.mem c.key (key_mem_keys (children_mem_family ht hc))
  have hks := h.children t ht
  rw [hfield StreeNode.leftChild] at hks
  exact ⟨n, hn, childLoop_eq push d hks hmem (Nat.lt_succ_of_le (length_le_size hnodup hmem)) vec⟩

/-! ### The two loops -/

omit [LinearOrder K] in
/-- The children of a node with their depth. -/
theorem map_entry_children (t : OrderedTree K) (d : ℕ) :
    (t.children.map fun c => (d, c)).map entry = (t.children.map key).map fun k => (d, k) := by
  rw [List.map_map, List.map_map]
  rfl

/-- The loop of `depth_traversal`, where the stack holds the roots of a forest. -/
theorem Represents.depthLoop (h : s.Represents T data) (hT : T.keys.Nodup)
    {ts : List (ℕ × OrderedTree K)} (hts : ∀ x ∈ ts, x.2 ∈ T.family) {fuel : ℕ}
    (hfuel : (OrderedTree.nodes ts).length < fuel) (result : List (ℕ × K)) :
    s.depthLoop fuel (ts.map entry) result =
      some (result ++ (OrderedTree.nodes ts).map entry) := by
  induction fuel generalizing ts result with
  | zero => exact absurd hfuel (Nat.not_lt_zero _)
  | succ fuel ih =>
      cases ts with
      | nil =>
          rw [OrderedTree.nodes, List.flatMap_nil, List.map_nil, List.append_nil]
          rfl
      | cons x ts =>
          obtain ⟨d, t⟩ := x
          have ht : t ∈ T.family := hts (d, t) List.mem_cons_self
          obtain ⟨n, hn, hloop⟩ := h.childLoop hT ht List.cons (d + 1) []
          have hstack : unload ((t.children.map key).foldl (fun vec k => (d + 1, k) :: vec) [])
              (ts.map entry) = (t.children.map (fun c => (d + 1, c)) ++ ts).map entry := by
            rw [List.foldl_flip_cons_eq_append, List.append_nil, unload_eq, List.reverse_reverse,
              List.map_append, map_entry_children]
          have hts' : ∀ x ∈ t.children.map (fun c => (d + 1, c)) ++ ts, x.2 ∈ T.family := by
            intro x hx
            rcases List.mem_append.1 hx with hx | hx
            · obtain ⟨c, hc, rfl⟩ := List.mem_map.1 hx
              exact children_mem_family ht hc
            · exact hts x (List.mem_cons_of_mem _ hx)
          rw [nodes_cons, List.length_cons] at hfuel
          have hrest := ih hts' (Nat.lt_of_succ_lt_succ hfuel) (result ++ [entry (d, t)])
          rw [nodes_cons, List.map_cons, List.map_cons, List.append_cons, ← hrest, ← hstack]
          simp only [Stree.depthLoop, entry, hn, hloop, Option.bind_eq_bind, Option.bind_some]

/-- The queue of `breadth_traversal`: the rest of a level and a part of the next one. -/
def queue (d : ℕ) (ts us : List (OrderedTree K)) : List (ℕ × K) :=
  (ts.map fun t => (d, t.key)) ++ us.map fun t => (d + 1, t.key)

/-- The loop of `breadth_traversal`, where the queue holds the rest of a level and the part of the
next one that is known. -/
theorem Represents.breadthLoop (h : s.Represents T data) (hT : T.keys.Nodup) {d n : ℕ}
    {ts us : List (OrderedTree K)} (hts : ∀ t ∈ ts ++ us, t ∈ T.family)
    (hn : level n (us ++ ts.flatMap OrderedTree.children) = []) {fuel : ℕ}
    (hfuel : (levelsFrom d n ts us).length < fuel) (result : List (ℕ × K)) :
    s.breadthLoop fuel (queue d ts us) result =
      some (result ++ (levelsFrom d n ts us).map entry) := by
  induction fuel generalizing d n ts us result with
  | zero => exact absurd hfuel (Nat.not_lt_zero _)
  | succ fuel ih =>
      -- The next node is taken from the level that is not finished.
      have hpop : ∀ {d n : ℕ} {t : OrderedTree K} {ts us : List (OrderedTree K)},
          (∀ x ∈ t :: ts ++ us, x ∈ T.family) →
          level n (us ++ (t :: ts).flatMap OrderedTree.children) = [] →
          (levelsFrom d n (t :: ts) us).length < fuel + 1 →
          s.breadthLoop (fuel + 1) (queue d (t :: ts) us) result =
            some (result ++ (levelsFrom d n (t :: ts) us).map entry) := by
        intro d n t ts us hts hn hfuel
        have ht : t ∈ T.family := hts t List.mem_cons_self
        obtain ⟨m, hm, hloop⟩ :=
          h.childLoop hT ht (fun x que => que ++ [x]) (d + 1) (queue d ts us)
        have hque : (t.children.map key).foldl (fun que k => que ++ [(d + 1, k)])
            (queue d ts us) = queue d ts (us ++ t.children) := by
          rw [List.foldl_append_eq_append, queue, queue, List.map_append, List.append_assoc,
            List.map_map, ← List.flatMap_def, List.map_eq_flatMap (l := t.children)]
          rfl
        have hts' : ∀ x ∈ ts ++ (us ++ t.children), x ∈ T.family := by
          intro x hx
          rw [← List.append_assoc, List.mem_append] at hx
          rcases hx with hx | hx
          · exact hts x (List.mem_cons_of_mem t hx)
          · exact children_mem_family ht hx
        rw [List.flatMap_cons, ← List.append_assoc] at hn
        rw [levelsFrom_cons, List.length_cons] at hfuel
        have hrest := ih hts' hn (Nat.lt_of_succ_lt_succ hfuel) (result ++ [entry (d, t)])
        rw [levelsFrom_cons, List.map_cons, List.append_cons, ← hrest, ← hque]
        change s.breadthLoop (fuel + 1) ((d, t.key) :: queue d ts us) result = _
        simp only [Stree.breadthLoop, hm, hloop, Option.bind_eq_bind, Option.bind_some]
        rfl
      cases ts with
      | cons t ts => exact hpop hts hn hfuel
      | nil =>
          cases us with
          | nil =>
              have hnil : levelsFrom d n ([] : List (OrderedTree K)) [] = [] := levels_nil (d + 1) n
              rw [hnil, List.map_nil, List.append_nil]
              rfl
          | cons u us =>
              cases n with
              | zero => cases hn
              | succ n =>
                  have hnext : queue d [] (u :: us) = queue (d + 1) (u :: us) [] := by
                    rw [queue, queue, List.map_nil, List.map_nil, List.nil_append, List.append_nil]
                  rw [List.flatMap_nil, List.append_nil, level] at hn
                  rw [levelsFrom_nil] at hfuel ⊢
                  rw [hnext]
                  apply hpop _ hn hfuel
                  intro x hx
                  rw [List.append_nil] at hx
                  exact hts x hx

/-! ### Results -/

theorem Represents.depthTraversal (h : s.Represents T data) (hT : T.keys.Nodup) :
    s.depthTraversal = some T.preorder := by
  have hnodes : OrderedTree.nodes [(0, T)] = T.subtrees 0 := List.flatMap_singleton _ _
  have hfuel : (OrderedTree.nodes [(0, T)]).length < s.nodes.size + 1 := by
    rw [hnodes, T.length_subtrees 0]
    exact Nat.lt_succ_of_le (h.size_le hT)
  have hts : ∀ x ∈ [(0, T)], x.2 ∈ T.family := by
    intro x hx
    rw [List.mem_singleton.1 hx]
    exact T.self_mem_family
  have hloop := h.depthLoop hT hts hfuel []
  rw [hnodes] at hloop
  rw [Stree.depthTraversal, h.root]
  exact hloop

theorem Represents.breadthTraversal (h : s.Represents T data) (hT : T.keys.Nodup) :
    s.breadthTraversal = some T.levelOrder := by
  have hlength : (levels 0 T.size [T]).length = T.size := by
    rw [(levels_perm T.level_size 0).length_eq, List.flatMap_singleton, T.length_subtrees]
  have hfuel : (levels 0 T.size [T]).length < s.nodes.size + 1 := by
    rw [hlength]
    exact Nat.lt_succ_of_le (h.size_le hT)
  have hts : ∀ t ∈ [T] ++ [], t ∈ T.family := by
    intro t ht
    rw [List.append_nil, List.mem_singleton] at ht
    rw [ht]
    exact T.self_mem_family
  have hn := T.level_size
  rw [levelOrder]
  -- The root is the first level.
  cases hsize : T.size with
  | zero =>
      rw [hsize] at hn
      cases hn
  | succ n =>
      have hstart : levels 0 (n + 1) [T] = levelsFrom 0 n [T] [] := levels_succ 0 n [T]
      rw [hsize] at hn
      rw [hsize, hstart] at hfuel
      have hloop := h.breadthLoop hT hts hn hfuel []
      rw [Stree.breadthTraversal, h.root, hstart]
      exact hloop

/-- A tree that is described by calls in any order is built. Traversing it in depth gives its
preorder and traversing it in breadth its level order, with the depths. Each node occurs once, has
its own key and data, and each child points to its parent. -/
theorem build_described {calls : List (HelperCall K D)} (hcalls : Describes calls T data)
    (hT : T.keys.Nodup) (hedge : T.children ≠ []) (root : Option K) :
    ∃ s, (init root).build (StreeHelper.init.callAll calls) = some s ∧
      s.depthTraversal = some T.preorder ∧ s.breadthTraversal = some T.levelOrder ∧
      (T.preorder.map Prod.snd).Nodup ∧ (T.levelOrder.map Prod.snd).Nodup ∧
      (∀ k ∈ T.keys, ∃ n, s.nodes[k]? = some n ∧ n.key = k ∧ n.data = some (data k)) ∧
      ∀ t ∈ T.family, ∀ c ∈ t.children,
        ∃ n, s.nodes[c.key]? = some n ∧ n.parent = some t.key := by
  obtain ⟨s, hs, hrep⟩ := (hcalls.placed hT hedge).build hT root
  have hpre : (T.preorder.map Prod.snd).Nodup := by
    rw [map_snd_preorder]
    exact hT
  refine ⟨s, hs, hrep.depthTraversal hT, hrep.breadthTraversal hT, hpre, ?_, ?_, ?_⟩
  · exact (T.levelOrder_perm.map Prod.snd).nodup_iff.2 hpre
  · intro k hk
    obtain ⟨n, hn⟩ := Option.isSome_iff_exists.1
      (Std.TreeMap.mem_iff_isSome_getElem?.1 (hrep.mem k hk))
    have hdata := hrep.data k hk
    rw [field, hn, Option.bind_some] at hdata
    exact ⟨n, hn, (keyed_init root).foldlM hs k n hn, hdata⟩
  · intro t ht c hc
    have hkey : c.key ∈ T.keys := key_mem_keys (children_mem_family ht hc)
    obtain ⟨n, hn, hfield⟩ := exists_node (hrep.mem c.key hkey)
    have hparent := hrep.parent t ht c hc
    rw [hfield] at hparent
    exact ⟨n, hn, hparent⟩

/-! ### The tree of `main.cpp` -/

def mainTree : OrderedTree ℤ :=
  .node 0
    [.node 1 [],
      .node 2 [.node 3 [], .node 4 []],
      .node 5
        [.node 6 [], .node 7 [],
          .node 8
            [.node 9 [], .node 10 [], .node 11 [.node 12 [], .node 13 [], .node 14 []]]],
      .node 15 []]

def mainData (k : ℤ) : String :=
  ["pgrlink", "link init", "link analyze", "load aa files", "link model", "link check",
    "load ao files", "sn check", "pm chech", "Extraction_TypeNameLink", "Extraction_TagNameLink",
    "Extraction_ObjectLink", "GetAppearNodeInfotomap", "CheckNouseObj",
    "CheckObjectUsedinParallelFunction", "link display"].getD k.toNat ""

/-- The calls that `main` makes. -/
def mainCalls : List (HelperCall ℤ String) :=
  ([0, 1, 2, 3, 4, 5, 6, 7, 8, 9, 10, 11, 12, 13, 14, 15].map fun k => .addNode k (mainData k)) ++
    [.addPosInfo 0 [1, 2, 5, 15], .addPosInfo 2 [3, 4], .addPosInfo 5 [6, 7, 8],
      .addPosInfo 8 [9, 10, 11], .addPosInfo 11 [12, 13, 14]]

theorem build_described_mainTree :
    ∃ s, (init none).build (StreeHelper.init.callAll mainCalls) = some s ∧
      s.depthTraversal = some [(0, 0), (1, 1), (1, 2), (2, 3), (2, 4), (1, 5), (2, 6), (2, 7),
        (2, 8), (3, 9), (3, 10), (3, 11), (4, 12), (4, 13), (4, 14), (1, 15)] ∧
      s.breadthTraversal = some [(0, 0), (1, 1), (1, 2), (1, 5), (1, 15), (2, 3), (2, 4), (2, 6),
        (2, 7), (2, 8), (3, 9), (3, 10), (3, 11), (4, 12), (4, 13), (4, 14)] ∧
      ∃ n, s.nodes[(12 : ℤ)]? = some n ∧ n.data = some "GetAppearNodeInfotomap" := by
  have hcalls : Describes mainCalls mainTree mainData := List.Perm.refl _
  have hkeys : mainTree.keys.Nodup := by decide +kernel
  obtain ⟨s, hs, hdepth, hbreadth, -, -, hnodes, -⟩ :=
    build_described hcalls hkeys (List.cons_ne_nil _ _) none
  obtain ⟨n, hn, -, hdata⟩ := hnodes 12 (by decide +kernel)
  exact ⟨s, hs, hdepth, hbreadth, n, hn, hdata⟩

end Stree

end Miscellany
