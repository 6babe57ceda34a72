import Miscellany.Stree.Traversal

/-!
# Building a tree again

A second `build` with the same helper finds the nodes linked. A node that has a sibling is linked
as it was, because the position says which link is written (`Joined`). For an only child
`add_child` looks for the rightmost child of the parent. The first time there is none, but now it
finds the child itself and makes it its own right sibling (`rightmostChild_eq_self`), so that no
loop over the children comes to its end.

So the links are as before exactly when no node of the tree has an only child.
-/

namespace Miscellany

open OrderedTree

variable {K D : Type} [LinearOrder K]

/-- The position of a child without siblings. -/
def StreeNodePos.Alone (pos : StreeNodePos K) : Prop :=
  pos.parent ≠ none ∧ pos.left = none ∧ pos.right = none

instance (pos : StreeNodePos K) : Decidable pos.Alone :=
  inferInstanceAs (Decidable (pos.parent ≠ none ∧ pos.left = none ∧ pos.right = none))

namespace Stree

variable {s t : Stree K D} {pos : K → StreeNodePos K} {data : K → D} {keys done again : List K}
variable {k : K}

/-- Building again leaves all nodes as they are, and the traversals come to their ends. -/
def Idempotent (helper : StreeHelper K D) (root : Option K) : Prop :=
  ∃ s t, (init root).build helper = some s ∧ s.build helper = some t ∧
    t.root = s.root ∧ (∀ k : K, t.nodes[k]? = s.nodes[k]?) ∧
    t.depthTraversal.isSome ∧ t.breadthTraversal.isSome

/-- From the built tree `s` the nodes `again` have been added once more. -/
structure Rebuilt (pos : K → StreeNodePos K) (s : Stree K D) (again : List K) (t : Stree K D) :
    Prop where
  root : t.root = s.root
  mem : ∀ x, x ∈ t.nodes ↔ x ∈ s.nodes
  data : t.field StreeNode.data = s.field StreeNode.data
  parent : t.field StreeNode.parent = s.field StreeNode.parent
  leftChild : t.field StreeNode.leftChild = s.field StreeNode.leftChild
  rightSibling : ∀ x, t.field StreeNode.rightSibling x =
    if x ∈ again ∧ (pos x).Alone then some x else s.field StreeNode.rightSibling x

theorem rebuilt_nil (pos : K → StreeNodePos K) (s : Stree K D) : Rebuilt pos s [] s := by
  constructor
  · rfl
  · exact fun _ => Iff.rfl
  · rfl
  · rfl
  · rfl
  · intro x
    rw [if_neg (fun h => List.not_mem_nil h.1)]

theorem Rebuilt.mem_prepare (hs : Built pos data done s) (ht : Rebuilt pos s again t)
    (hk : k ∈ done)
    (hnear : ∀ x, some x = (pos k).right ∨ some x = (pos k).left ∨ some x = (pos k).parent →
      x ∈ s.nodes) (x : K) :
    x ∈ (t.prepare (pos k) k (data k)).nodes ↔ x ∈ s.nodes := by
  rw [Stree.mem_prepare, ht.mem]
  constructor
  · rintro (hx | hx | hx | rfl | hx)
    · exact hnear x (Or.inl hx)
    · exact hnear x (Or.inr (Or.inl hx))
    · exact hnear x (Or.inr (Or.inr hx))
    · exact hs.mem x hk
    · exact hx
  · exact fun hx => Or.inr (Or.inr (Or.inr (Or.inr hx)))

theorem Rebuilt.data_prepare (hs : Built pos data done s) (ht : Rebuilt pos s again t)
    (hk : k ∈ done) :
    (t.prepare (pos k) k (data k)).field StreeNode.data = s.field StreeNode.data := by
  rw [Stree.data_prepare, ht.data, ← hs.data k hk, Function.update_eq_self]

/-! ### A node with siblings -/

/-- The links and the data of a built tree are those that `add_node` writes. -/
theorem Rebuilt.joined (hlayout : Layout keys pos) (hs : Built pos data done s)
    (ht : Rebuilt pos s again t) {u : Stree K D} (hk : k ∈ done)
    (hnear : ∀ x, some x = (pos k).right ∨ some x = (pos k).left ∨ some x = (pos k).parent →
      x ∈ s.nodes)
    (halone : ¬ (pos k).Alone)
    (hu : Joined (t.prepare (pos k) k (data k)) u (pos k) k) : Rebuilt pos s (k :: again) u := by
  constructor
  · rw [hu.root, root_prepare, ht.root]
    split_ifs with hparent
    · exact (hs.root k hk hparent).symm
    · rfl
  · intro x
    rw [hu.mem]
    exact Rebuilt.mem_prepare hs ht hk hnear x
  · rw [hu.data]
    exact Rebuilt.data_prepare hs ht hk
  · funext x
    rw [hu.parent, field_prepare (fun _ => rfl) fun _ _ => rfl, ht.parent]
    split_ifs with hx
    · obtain ⟨rfl, hparent⟩ := hx
      obtain ⟨p, hp⟩ := Option.ne_none_iff_exists'.1 hparent
      rw [hp, (hs.parent x p).2 ⟨hk, hp⟩]
    · rfl
  · funext x
    rw [hu.leftChild, field_prepare (fun _ => rfl) fun _ _ => rfl, ht.leftChild]
    split_ifs with hx
    · exact ((hs.leftChild x k).2 ⟨hk, hx⟩).symm
    · rfl
  · intro x
    have hagain : x ∈ k :: again ∧ (pos x).Alone ↔ x ∈ again ∧ (pos x).Alone := by
      rw [List.mem_cons]
      constructor
      · rintro ⟨rfl | hx, hpos⟩
        · exact absurd hpos halone
        · exact ⟨hx, hpos⟩
      · exact fun hx => ⟨Or.inr hx.1, hx.2⟩
    have hnext : ∀ r, (pos x).right = some r → x ∈ done ∨ r ∈ done →
        some r = if x ∈ again ∧ (pos x).Alone then some x
          else s.field StreeNode.rightSibling x := by
      intro r hr hmem
      rw [if_neg (fun hx => by rw [hx.2.2.2] at hr; cases hr)]
      exact ((hs.rightSibling x r).2 ⟨hmem, hr⟩).symm
    rw [hu.rightSibling, field_prepare (fun _ => rfl) fun _ _ => rfl, ht.rightSibling]
    simp only [hagain]
    by_cases hx : x = k ∧ (pos k).right ≠ none
    · rw [if_pos hx]
      obtain ⟨rfl, hright⟩ := hx
      obtain ⟨r, hr⟩ := Option.ne_none_iff_exists'.1 hright
      rw [hr]
      exact hnext r hr (Or.inl hk)
    · rw [if_neg hx]
      by_cases hleft : (pos k).left = some x
      · rw [if_pos hleft]
        exact hnext k ((hlayout.left_iff x k).1 hleft) (Or.inr hk)
      · rw [if_neg hleft]

/-! ### An only child -/

/-- The only child is the rightmost one. -/
theorem rightmostChild_eq_self {p : K} (hp : p ∈ s.nodes) (hk : k ∈ s.nodes)
    (hleft : s.field StreeNode.leftChild p = some k)
    (hright : s.field StreeNode.rightSibling k = none) : s.rightmostChild p = some (some k) := by
  obtain ⟨n, hn, hfield⟩ := exists_node hp
  obtain ⟨m, hm, hfield'⟩ := exists_node hk
  rw [hfield] at hleft
  rw [hfield'] at hright
  rw [rightmostChild, hn]
  simp only [Option.bind_eq_bind, Option.bind_some, hleft, rightmostLoop, hm, hright]

/-- It is then linked as if it were on its own left. -/
theorem addChild_eq_of_rightmostChild {p : K} (h : s.rightmostChild p = some (some k)) :
    s.addChild (some p) none none k = s.addChild (some p) (some k) none k := by
  simp only [addChild, h, Option.bind_eq_bind, Option.bind_some]

theorem addChild_self {p : K} (hp : p ∈ s.nodes) (hk : k ∈ s.nodes) :
    ∃ t, s.addChild (some p) (some k) none k = some t ∧
      Joined s t { parent := some p, left := some k, right := none } k := by
  have hmem : ∀ x, some x = some k ∨ some x = some p → x ∈ s.nodes := by
    rintro x (hx | hx)
    · rw [Option.some.inj hx]
      exact hk
    · rw [Option.some.inj hx]
      exact hp
  let pos : StreeNodePos K := { parent := some p, left := some k, right := none }
  have hroot : pos.parent = none → pos.left = none ∧ pos.right = none := fun h => nomatch h
  exact addChild_eq hk hmem hroot fun _ _ h => nomatch h

/-- The links of a child without siblings. -/
theorem Built.alone (hs : Built pos data done s) (hk : k ∈ done) (halone : (pos k).Alone) :
    ∃ p, (pos k).parent = some p ∧ s.field StreeNode.parent k = some p ∧
      s.field StreeNode.leftChild p = some k ∧ s.field StreeNode.rightSibling k = none := by
  obtain ⟨hparent, hleft, hright⟩ := halone
  obtain ⟨p, hp⟩ := Option.ne_none_iff_exists'.1 hparent
  refine ⟨p, hp, (hs.parent k p).2 ⟨hk, hp⟩, (hs.leftChild p k).2 ⟨hk, hp, hleft⟩, ?_⟩
  cases hr : s.field StreeNode.rightSibling k with
  | none => rfl
  | some r =>
      have hsome := ((hs.rightSibling k r).1 hr).2
      rw [hright] at hsome
      cases hsome

/-- The child becomes its own right sibling, and nothing else changes. -/
theorem Rebuilt.addNode_alone (hs : Built pos data done s) (ht : Rebuilt pos s again t)
    (hk : k ∈ done)
    (hnear : ∀ x, some x = (pos k).right ∨ some x = (pos k).left ∨ some x = (pos k).parent →
      x ∈ s.nodes)
    (halone : (pos k).Alone) (hnew : k ∉ again) :
    ∃ u, t.addNode (pos k) k (data k) = some u ∧ Rebuilt pos s (k :: again) u := by
  obtain ⟨p, hp, hparent, hfirst, hnull⟩ := hs.alone hk halone
  have hmem := Rebuilt.mem_prepare hs ht hk hnear
  have hkmem : k ∈ (t.prepare (pos k) k (data k)).nodes := (hmem k).2 (hs.mem k hk)
  have hpmem : p ∈ (t.prepare (pos k) k (data k)).nodes :=
    (hmem p).2 (hnear p (Or.inr (Or.inr hp.symm)))
  have hleft : (t.prepare (pos k) k (data k)).field StreeNode.leftChild p = some k := by
    rw [field_prepare (fun _ => rfl) fun _ _ => rfl, ht.leftChild, hfirst]
  have hright : (t.prepare (pos k) k (data k)).field StreeNode.rightSibling k = none := by
    rw [field_prepare (fun _ => rfl) fun _ _ => rfl, ht.rightSibling,
      if_neg (fun hx => hnew hx.1), hnull]
  have hrightmost := rightmostChild_eq_self hpmem hkmem hleft hright
  obtain ⟨u, hu, hjoined⟩ := addChild_self hpmem hkmem
  refine ⟨u, ?_, ?_⟩
  · rw [addNode_eq_addChild, hp, halone.2.1, halone.2.2,
      addChild_eq_of_rightmostChild hrightmost]
    exact hu
  · constructor
    · rw [hjoined.root, root_prepare, ht.root, if_neg (Option.some_ne_none p)]
    · intro x
      rw [hjoined.mem]
      exact hmem x
    · rw [hjoined.data]
      exact Rebuilt.data_prepare hs ht hk
    · funext x
      rw [hjoined.parent, field_prepare (fun _ => rfl) fun _ _ => rfl, ht.parent]
      split_ifs with hx
      · rw [hx.1, hparent]
      · rfl
    · funext x
      rw [hjoined.leftChild, field_prepare (fun _ => rfl) fun _ _ => rfl, ht.leftChild,
        if_neg (fun hx => nomatch hx.2)]
    · intro x
      rw [hjoined.rightSibling, field_prepare (fun _ => rfl) fun _ _ => rfl, ht.rightSibling,
        if_neg (fun hx => hx.2 rfl)]
      by_cases hxk : x = k
      · subst hxk
        rw [if_pos rfl, if_pos ⟨List.mem_cons_self, halone⟩]
      · rw [if_neg (fun hx => hxk (Option.some.inj hx).symm)]
        simp only [List.mem_cons, hxk, false_or]

/-! ### All nodes -/

/-- One round of the second `build`. -/
theorem Rebuilt.addNode (hlayout : Layout keys pos) (hs : Built pos data done s)
    (ht : Rebuilt pos s again t) (hk : k ∈ done)
    (hnear : ∀ x, some x = (pos k).right ∨ some x = (pos k).left ∨ some x = (pos k).parent →
      x ∈ s.nodes)
    (hnew : k ∉ again) :
    ∃ u, t.addNode (pos k) k (data k) = some u ∧ Rebuilt pos s (k :: again) u := by
  by_cases halone : (pos k).Alone
  · exact ht.addNode_alone hs hk hnear halone hnew
  · have hfirst : ∀ p, (pos k).parent = some p → (pos k).left = none → (pos k).right = none →
        t.field StreeNode.leftChild p = none := by
      intro p hparent hleft hright
      have hsome : (pos k).parent ≠ none := by
        rw [hparent]
        exact Option.some_ne_none p
      exact absurd ⟨hsome, hleft, hright⟩ halone
    obtain ⟨u, hu, hjoined⟩ := addNode_joined (data k) (hlayout.root k) hfirst
    exact ⟨u, hu, ht.joined hlayout hs hk hnear halone hjoined⟩

/-- The loop of the second `build`. -/
theorem Rebuilt.foldlM (hlayout : Layout keys pos) (hs : Built pos data done s)
    (ht : Rebuilt pos s again t) {helper : StreeHelper K D} {entries : List (K × D)}
    (hentries : ∀ e ∈ entries, e.1 ∈ done ∧ e.2 = data e.1)
    (hpos : ∀ k ∈ done, helper.nodePos[k]? = some (pos k))
    (hnear : ∀ k ∈ done, ∀ x, some x = (pos k).right ∨ some x = (pos k).left ∨
      some x = (pos k).parent → x ∈ s.nodes)
    (hnodup : (entries.map Prod.fst).Nodup) (hnew : ∀ k ∈ entries.map Prod.fst, k ∉ again) :
    ∃ u, entries.foldlM (buildStep helper) t = some u ∧
      Rebuilt pos s ((entries.map Prod.fst).reverse ++ again) u := by
  induction entries generalizing t again with
  | nil => exact ⟨t, rfl, ht⟩
  | cons e entries ih =>
      obtain ⟨hkey, hdata⟩ := hentries e List.mem_cons_self
      rw [List.map_cons, List.nodup_cons] at hnodup
      have hfresh : e.1 ∉ again := hnew e.1 List.mem_cons_self
      obtain ⟨v, hv, hrebuilt⟩ := ht.addNode hlayout hs hkey (hnear e.1 hkey) hfresh
      have hnew' : ∀ k ∈ entries.map Prod.fst, k ∉ e.1 :: again := by
        intro k hk hmem
        rcases List.mem_cons.1 hmem with rfl | hmem
        · exact hnodup.1 hk
        · exact hnew k (List.mem_cons_of_mem e.1 hk) hmem
      obtain ⟨u, hu, hlast⟩ := ih hrebuilt (fun a ha => hentries a (List.mem_cons_of_mem e ha))
        hnodup.2 hnew'
      refine ⟨u, ?_, ?_⟩
      · have hstep : buildStep helper t e = some v := by
          rw [buildStep, hpos e.1 hkey, hdata]
          exact hv
        rw [List.foldlM_cons, hstep]
        exact hu
      · rw [List.map_cons, List.reverse_cons, List.append_assoc, List.singleton_append]
        exact hlast

/-! ### The same tree -/

theorem Represents.congr {T : OrderedTree K} (h : s.Represents T data) (hroot : t.root = s.root)
    (hnodes : ∀ k : K, t.nodes[k]? = s.nodes[k]?) : t.Represents T data := by
  have hfield : ∀ {β : Type} (f : StreeNode K D → Option β), t.field f = s.field f := by
    intro β f
    funext x
    rw [field, field, hnodes]
  constructor
  · rw [hroot]
    exact h.root
  · intro k hk
    rw [Std.TreeMap.mem_iff_isSome_getElem?, hnodes, ← Std.TreeMap.mem_iff_isSome_getElem?]
    exact h.mem k hk
  · rw [hfield]
    exact h.data
  · rw [hfield]
    exact h.parent
  · rw [hfield, hfield]
    exact h.children

/-- Two nodes with the same fields are the same. -/
theorem getElem?_eq_of_field (hs : Keyed s) (ht : Keyed t) (hmem : ∀ x, x ∈ t.nodes ↔ x ∈ s.nodes)
    (hdata : t.field StreeNode.data = s.field StreeNode.data)
    (hparent : t.field StreeNode.parent = s.field StreeNode.parent)
    (hleft : t.field StreeNode.leftChild = s.field StreeNode.leftChild)
    (hright : t.field StreeNode.rightSibling = s.field StreeNode.rightSibling) (k : K) :
    t.nodes[k]? = s.nodes[k]? := by
  cases hn : s.nodes[k]? with
  | none =>
      rw [← Option.not_isSome_iff_eq_none, ← Std.TreeMap.mem_iff_isSome_getElem?] at hn ⊢
      rwa [hmem]
  | some n =>
      have hk : k ∈ t.nodes := by
        rw [hmem, Std.TreeMap.mem_iff_isSome_getElem?, hn]
        rfl
      obtain ⟨m, hm⟩ := Option.isSome_iff_exists.1 (Std.TreeMap.mem_iff_isSome_getElem?.1 hk)
      have hfield : ∀ {β : Type} (f : StreeNode K D → Option β), t.field f = s.field f →
          f m = f n := by
        intro β f hf
        have hfk := congrFun hf k
        rwa [field, field, hm, hn, Option.bind_some, Option.bind_some] at hfk
      have hkey : m.key = n.key := (ht k m hm).trans (hs k n hn).symm
      rw [hm, Option.some.injEq]
      cases m
      cases n
      rw [StreeNode.mk.injEq]
      exact ⟨hkey, hfield _ hdata, hfield _ hparent, hfield _ hleft, hfield _ hright⟩

end Stree

namespace Placed

variable {h : StreeHelper K D} {T : OrderedTree K} {data : K → D} {k : K}

/-- The neighbours of a node are nodes. -/
theorem neighbour_mem (hp : Placed h T data) (x : K)
    (hx : some x = (pos h k).right ∨ some x = (pos h k).left ∨ some x = (pos h k).parent) :
    x ∈ T.keys := by
  rcases hp.pos_cases k with ⟨t, ht, u, v, hsplit⟩ | ⟨-, hinit⟩
  · have hchild : ∀ a ∈ t.children.map key, a ∈ T.keys := by
      intro a ha
      obtain ⟨c, hc, rfl⟩ := List.mem_map.1 ha
      exact key_mem_keys (children_mem_family ht hc)
    rw [hsplit] at hchild
    rw [hp.pos_child ht hsplit] at hx
    rcases hx with hx | hx | hx
    · apply hchild x
      exact List.mem_append_right u (List.mem_cons_of_mem k (List.mem_of_mem_head? hx.symm))
    · apply hchild x
      exact List.mem_append_left _ (List.mem_of_getLast? hx.symm)
    · rw [Option.some.inj hx]
      exact key_mem_keys ht
  · rw [hinit] at hx
    rcases hx with hx | hx | hx
    · cases hx
    · cases hx
    · cases hx

/-- A child without siblings is the only child of a node. -/
theorem exists_alone_iff (hp : Placed h T data) :
    (∃ k ∈ T.keys, (pos h k).Alone) ↔ ∃ t ∈ T.family, t.children.length = 1 := by
  constructor
  · rintro ⟨k, -, hparent, hleft, hright⟩
    rcases hp.pos_cases k with ⟨t, ht, u, v, hsplit⟩ | ⟨-, hinit⟩
    · rw [hp.pos_child ht hsplit] at hleft hright
      obtain rfl := List.getLast?_eq_none_iff.1 hleft
      obtain rfl := List.head?_eq_none_iff.1 hright
      refine ⟨t, ht, ?_⟩
      rw [← List.length_map (f := key), hsplit]
      rfl
    · rw [hinit] at hparent
      exact absurd rfl hparent
  · rintro ⟨t, ht, hlength⟩
    obtain ⟨c, hc⟩ := List.length_eq_one_iff.1 hlength
    have hsplit : t.children.map key = [] ++ c.key :: [] := by
      rw [hc]
      rfl
    have hcmem : c ∈ t.children := by
      rw [hc]
      exact List.mem_cons_self
    refine ⟨c.key, key_mem_keys (children_mem_family ht hcmem), ?_⟩
    rw [hp.pos_child ht hsplit]
    exact ⟨Option.some_ne_none _, rfl, rfl⟩

/-- The second `build` comes to its end. -/
theorem exists_rebuilt (hp : Placed h T data) (hT : T.keys.Nodup) (root : Option K) :
    ∃ s t done again, (Stree.init root).build h = some s ∧ s.build h = some t ∧
      (∀ k, k ∈ done ↔ k ∈ T.keys) ∧ (∀ k, k ∈ again ↔ k ∈ T.keys) ∧
      Stree.Built (pos h) data done s ∧ Stree.Rebuilt (pos h) s again t := by
  obtain ⟨s, done, hs, hdone, hbuilt⟩ := hp.exists_built hT root
  obtain ⟨hentries, hnodup, hkeys⟩ := hp.entries
  have hnear : ∀ k ∈ done, ∀ x, some x = (pos h k).right ∨ some x = (pos h k).left ∨
      some x = (pos h k).parent → x ∈ s.nodes := by
    intro k _ x hx
    exact hbuilt.mem x ((hdone x).2 (hp.neighbour_mem x hx))
  obtain ⟨t, ht, hrebuilt⟩ := (Stree.rebuilt_nil (pos h) s).foldlM (hp.layout hT) hbuilt
    (fun e he => ⟨(hdone e.1).2 (hentries e he).1, (hentries e he).2⟩)
    (fun k hk => hp.nodePos_eq ((hdone k).1 hk)) hnear hnodup fun k _ hk => nomatch hk
  refine ⟨s, t, done, _, hs, ht, hdone, ?_, hbuilt, hrebuilt⟩
  intro k
  rw [List.append_nil, List.mem_reverse, hkeys]

end Placed

namespace Stree

variable {T : OrderedTree K} {data : K → D}

/-- A second `build` with the same helper leaves every link and all data, and the traversals come
to their ends, exactly when no node of the tree has an only child. -/
theorem idempotent_iff {calls : List (HelperCall K D)} (hcalls : Describes calls T data)
    (hT : T.keys.Nodup) (hedge : T.children ≠ []) (root : Option K) :
    Idempotent (StreeHelper.init.callAll calls) root ↔
      ∀ t ∈ T.family, t.children.length ≠ 1 := by
  have hp := hcalls.placed hT hedge
  have hiff := hp.exists_alone_iff
  obtain ⟨s, t, done, again, hs, ht, hdone, hagain, hbuilt, hrebuilt⟩ := hp.exists_rebuilt hT root
  constructor
  · rintro ⟨s', t', hs', ht', -, hnodes, -, -⟩ a ha hone
    obtain rfl := Option.some.inj (hs.symm.trans hs')
    obtain rfl := Option.some.inj (ht.symm.trans ht')
    obtain ⟨k, hk, halone⟩ := hiff.2 ⟨a, ha, hone⟩
    have hself := hrebuilt.rightSibling k
    rw [if_pos ⟨(hagain k).2 hk, halone⟩, field, hnodes] at hself
    obtain ⟨p, -, -, -, hnull⟩ := hbuilt.alone ((hdone k).2 hk) halone
    rw [field, hself] at hnull
    cases hnull
  · intro hone
    have halone : ∀ k ∈ again, ¬ (Placed.pos (StreeHelper.init.callAll calls) k).Alone := by
      intro k hk halone
      obtain ⟨a, ha, hlength⟩ := hiff.1 ⟨k, (hagain k).1 hk, halone⟩
      exact hone a ha hlength
    have hright : t.field StreeNode.rightSibling = s.field StreeNode.rightSibling := by
      funext x
      rw [hrebuilt.rightSibling, if_neg (fun hx => halone x hx.1 hx.2)]
    have hskeyed : Keyed s := (keyed_init root).foldlM hs
    have hnodes := getElem?_eq_of_field hskeyed (hskeyed.foldlM ht) hrebuilt.mem hrebuilt.data
      hrebuilt.parent hrebuilt.leftChild hright
    have hrep := (hp.represents hT hbuilt hdone).congr hrebuilt.root hnodes
    refine ⟨s, t, hs, ht, hrebuilt.root, hnodes, ?_, ?_⟩
    · rw [hrep.depthTraversal hT]
      rfl
    · rw [hrep.breadthTraversal hT]
      rfl

/-- Building the tree of `main.cpp` again. -/
theorem idempotent_mainTree : Idempotent (StreeHelper.init.callAll mainCalls) none := by
  have hcalls : Describes mainCalls mainTree mainData := List.Perm.refl _
  have hkeys : mainTree.keys.Nodup := by decide +kernel
  have hone : ∀ t ∈ mainTree.family, t.children.length ≠ 1 := by decide +kernel
  exact (idempotent_iff hcalls hkeys (List.cons_ne_nil _ _) none).2 hone

/-- The calls for a root with an only child. -/
def onlyChildCalls : List (HelperCall ℤ String) :=
  [.addNode 0 "root", .addNode 1 "child", .addPosInfo 0 [1]]

/-- After the second `build` the traversals do not come to their ends. -/
theorem not_idempotent_onlyChild :
    Describes onlyChildCalls (.node 0 [.node 1 []]) (fun k => if k = 0 then "root" else "child") ∧
      ¬ Idempotent (StreeHelper.init.callAll onlyChildCalls) none := by
  refine ⟨List.Perm.refl _, ?_⟩
  rintro ⟨s, t, hs, ht, -, -, hdepth, -⟩
  have hnone : ((init none).build (StreeHelper.init.callAll onlyChildCalls) >>= fun s =>
      s.build (StreeHelper.init.callAll onlyChildCalls) >>= depthTraversal) = none := by
    decide +kernel
  simp only [hs, ht, Option.bind_eq_bind, Option.bind_some] at hnone
  rw [hnone] at hdepth
  cases hdepth

end Stree

end Miscellany
