import Mathlib.Logic.Function.Basic
import Miscellany.Stree.Positions

/-!
# Building the tree

The nodes are linked one at a time, in the order of their keys. A call of `add_node` sets the
parent of the node, links it with its two siblings, and makes it the first child if there is
none on its left (`addNode_joined`). Whatever has been linked is right, and a link is there as
soon as one of the nodes that it is written for is (`Built`); the order does not matter.
-/

namespace Miscellany

variable {K D : Type} [LinearOrder K]

namespace Stree

variable {s t : Stree K D} {k x : K} {β : Type}

/-! ### Fields of nodes -/

/-- A field of a node, which is null if the node is not there. -/
def field (s : Stree K D) (f : StreeNode K D → Option β) (x : K) : Option β := s.nodes[x]?.bind f

theorem getElem?_modify (s : Stree K D) (k x : K) (g : StreeNode K D → StreeNode K D) :
    (s.modify k g).nodes[x]? = if k = x then s.nodes[k]?.map g else s.nodes[x]? := by
  rw [modify, Std.TreeMap.getElem?_modify]
  simp only [Std.LawfulEqCmp.compare_eq_iff_eq]

/-- A write to another field. -/
theorem field_modify_of_eq {f : StreeNode K D → Option β} {g : StreeNode K D → StreeNode K D}
    (hg : ∀ n, f (g n) = f n) (s : Stree K D) (k : K) : (s.modify k g).field f = s.field f := by
  funext x
  rw [field, field, getElem?_modify]
  split_ifs with hkx
  · subst hkx
    cases s.nodes[k]? with
    | none => rfl
    | some n => exact hg n
  · rfl

/-- A write to the field. -/
theorem field_modify_self {f : StreeNode K D → Option β} {g : StreeNode K D → StreeNode K D}
    {v : β} (hg : ∀ n, f (g n) = some v) (hk : k ∈ s.nodes) :
    (s.modify k g).field f = Function.update (s.field f) k (some v) := by
  obtain ⟨n, hn⟩ := Option.isSome_iff_exists.1 (Std.TreeMap.mem_iff_isSome_getElem?.1 hk)
  funext x
  rw [field, getElem?_modify]
  split_ifs with hkx
  · subst hkx
    rw [hn, Option.map_some, Option.bind_some, hg, Function.update_self]
  · rw [Function.update_of_ne (Ne.symm hkx)]
    rfl

theorem mem_modify (s : Stree K D) (k : K) (g : StreeNode K D → StreeNode K D) :
    x ∈ (s.modify k g).nodes ↔ x ∈ s.nodes := by
  rw [modify, Std.TreeMap.mem_modify]

/-- A new node has null fields. -/
theorem field_getNode {f : StreeNode K D → Option β} (hf : ∀ k, f (.init k) = none)
    (s : Stree K D) (k : K) : (s.getNode k).field f = s.field f := by
  funext x
  unfold getNode
  rw [Std.TreeMap.contains_eq_isSome_getElem?]
  split_ifs with hk
  · rfl
  · rw [field, field, StreeHelper.getElem?_insert]
    split_ifs with hkx
    · rw [Option.not_isSome_iff_eq_none] at hk
      rw [← hkx, hk]
      exact hf k
    · rfl

theorem mem_getNode (s : Stree K D) (k : K) : x ∈ (s.getNode k).nodes ↔ x = k ∨ x ∈ s.nodes := by
  unfold getNode
  split_ifs with hk
  · constructor
    · exact Or.inr
    · rintro (rfl | hx)
      · exact hk
      · exact hx
  · rw [Std.TreeMap.mem_insert, Std.LawfulEqCmp.compare_eq_iff_eq, eq_comm]

theorem field_getNeighbour {f : StreeNode K D → Option β} (hf : ∀ k, f (.init k) = none)
    (s : Stree K D) (k : Option K) : (s.getNeighbour k).field f = s.field f := by
  cases k with
  | none => rfl
  | some k => exact field_getNode hf s k

theorem mem_getNeighbour (s : Stree K D) (k : Option K) :
    x ∈ (s.getNeighbour k).nodes ↔ some x = k ∨ x ∈ s.nodes := by
  cases k with
  | none => simp [getNeighbour]
  | some k => rw [getNeighbour, Option.elim_some, mem_getNode, Option.some.injEq]

theorem root_getNode (s : Stree K D) (k : K) : (s.getNode k).root = s.root := by
  unfold getNode
  split_ifs
  · rfl
  · rfl

theorem root_getNeighbour (s : Stree K D) (k : Option K) :
    (s.getNeighbour k).root = s.root := by
  cases k with
  | none => rfl
  | some k => exact s.root_getNode k

section Setters

variable (s : Stree K D) (k v : K)

@[simp] theorem data_setParent :
    (s.setParent k v).field StreeNode.data = s.field StreeNode.data := by
  apply field_modify_of_eq
  exact fun _ => rfl

@[simp] theorem leftChild_setParent :
    (s.setParent k v).field StreeNode.leftChild = s.field StreeNode.leftChild := by
  apply field_modify_of_eq
  exact fun _ => rfl

@[simp] theorem rightSibling_setParent :
    (s.setParent k v).field StreeNode.rightSibling = s.field StreeNode.rightSibling := by
  apply field_modify_of_eq
  exact fun _ => rfl

@[simp] theorem data_setLeftChild :
    (s.setLeftChild k v).field StreeNode.data = s.field StreeNode.data := by
  apply field_modify_of_eq
  exact fun _ => rfl

@[simp] theorem parent_setLeftChild :
    (s.setLeftChild k v).field StreeNode.parent = s.field StreeNode.parent := by
  apply field_modify_of_eq
  exact fun _ => rfl

@[simp] theorem rightSibling_setLeftChild :
    (s.setLeftChild k v).field StreeNode.rightSibling = s.field StreeNode.rightSibling := by
  apply field_modify_of_eq
  exact fun _ => rfl

@[simp] theorem data_setRightSibling :
    (s.setRightSibling k v).field StreeNode.data = s.field StreeNode.data := by
  apply field_modify_of_eq
  exact fun _ => rfl

@[simp] theorem parent_setRightSibling :
    (s.setRightSibling k v).field StreeNode.parent = s.field StreeNode.parent := by
  apply field_modify_of_eq
  exact fun _ => rfl

@[simp] theorem leftChild_setRightSibling :
    (s.setRightSibling k v).field StreeNode.leftChild = s.field StreeNode.leftChild := by
  apply field_modify_of_eq
  exact fun _ => rfl

@[simp] theorem mem_setParent : x ∈ (s.setParent k v).nodes ↔ x ∈ s.nodes := mem_modify s k _

@[simp] theorem mem_setLeftChild : x ∈ (s.setLeftChild k v).nodes ↔ x ∈ s.nodes := mem_modify s k _

@[simp] theorem mem_setRightSibling : x ∈ (s.setRightSibling k v).nodes ↔ x ∈ s.nodes :=
  mem_modify s k _

variable {s k}

theorem parent_setParent (hk : k ∈ s.nodes) :
    (s.setParent k v).field StreeNode.parent =
      Function.update (s.field StreeNode.parent) k (some v) :=
  field_modify_self (fun _ => rfl) hk

theorem leftChild_setLeftChild (hk : k ∈ s.nodes) :
    (s.setLeftChild k v).field StreeNode.leftChild =
      Function.update (s.field StreeNode.leftChild) k (some v) :=
  field_modify_self (fun _ => rfl) hk

theorem rightSibling_setRightSibling (hk : k ∈ s.nodes) :
    (s.setRightSibling k v).field StreeNode.rightSibling =
      Function.update (s.field StreeNode.rightSibling) k (some v) :=
  field_modify_self (fun _ => rfl) hk

end Setters

/-! ### Adding a node -/

/-- The tree in which `add_child` starts. -/
def prepare (s : Stree K D) (pos : StreeNodePos K) (k : K) (d : D) : Stree K D :=
  (((s.setNode k d).getNeighbour pos.parent).getNeighbour pos.left).getNeighbour pos.right

theorem field_prepare {f : StreeNode K D → Option K} (hf : ∀ k, f (.init k) = none)
    (hdata : ∀ n d, f { n with data := some d } = f n) (s : Stree K D) (pos : StreeNodePos K)
    (k : K) (d : D) : (s.prepare pos k d).field f = s.field f := by
  rw [prepare, field_getNeighbour hf, field_getNeighbour hf, field_getNeighbour hf, setNode,
    field_modify_of_eq fun n => hdata n d, field_getNode hf]

theorem data_setNode (s : Stree K D) (k : K) (d : D) :
    (s.setNode k d).field StreeNode.data = Function.update (s.field StreeNode.data) k (some d) := by
  have hmem : k ∈ (s.getNode k).nodes := (s.mem_getNode k).2 (Or.inl rfl)
  have hset : (s.setNode k d).field StreeNode.data =
      Function.update ((s.getNode k).field StreeNode.data) k (some d) :=
    field_modify_self (fun _ => rfl) hmem
  rw [hset, field_getNode fun _ => rfl]

theorem data_prepare (s : Stree K D) (pos : StreeNodePos K) (k : K) (d : D) :
    (s.prepare pos k d).field StreeNode.data =
      Function.update (s.field StreeNode.data) k (some d) := by
  rw [prepare, field_getNeighbour fun _ => rfl, field_getNeighbour fun _ => rfl,
    field_getNeighbour fun _ => rfl, data_setNode]

theorem mem_prepare (s : Stree K D) (pos : StreeNodePos K) (k : K) (d : D) :
    x ∈ (s.prepare pos k d).nodes ↔
      some x = pos.right ∨ some x = pos.left ∨ some x = pos.parent ∨ x = k ∨ x ∈ s.nodes := by
  rw [prepare, mem_getNeighbour, mem_getNeighbour, mem_getNeighbour, setNode, mem_modify,
    mem_getNode]

theorem root_prepare (s : Stree K D) (pos : StreeNodePos K) (k : K) (d : D) :
    (s.prepare pos k d).root = s.root := by
  rw [prepare, root_getNeighbour, root_getNeighbour, root_getNeighbour]
  exact s.root_getNode k

/-- Without a first child there is no rightmost child. -/
theorem rightmostChild_eq_none {p : K} (hp : p ∈ s.nodes)
    (hleft : s.field StreeNode.leftChild p = none) : s.rightmostChild p = some none := by
  obtain ⟨n, hn⟩ := Option.isSome_iff_exists.1 (Std.TreeMap.mem_iff_isSome_getElem?.1 hp)
  rw [field, hn, Option.bind_some] at hleft
  rw [rightmostChild, hn]
  simp only [Option.bind_eq_bind, Option.bind_some, hleft, rightmostLoop]

/-- From `s` to `t` the node is linked: its parent is set, it is linked with its siblings, and it is
the first child if there is none on its left. -/
structure Joined (s t : Stree K D) (pos : StreeNodePos K) (k : K) : Prop where
  root : t.root = if pos.parent = none then some k else s.root
  mem : ∀ x, x ∈ t.nodes ↔ x ∈ s.nodes
  data : t.field StreeNode.data = s.field StreeNode.data
  parent : ∀ x, t.field StreeNode.parent x =
    if x = k ∧ pos.parent ≠ none then pos.parent else s.field StreeNode.parent x
  leftChild : ∀ x, t.field StreeNode.leftChild x =
    if pos.parent = some x ∧ pos.left = none then some k else s.field StreeNode.leftChild x
  rightSibling : ∀ x, t.field StreeNode.rightSibling x =
    if x = k ∧ pos.right ≠ none then pos.right
    else if pos.left = some x then some k else s.field StreeNode.rightSibling x

/-- What `add_child` does. The only child of a node is linked to a node without a first child, and
the root has no siblings. -/
theorem addChild_eq {pos : StreeNodePos K} (hk : k ∈ s.nodes)
    (hmem : ∀ x, some x = pos.left ∨ some x = pos.parent → x ∈ s.nodes)
    (hroot : pos.parent = none → pos.left = none ∧ pos.right = none)
    (hfirst : ∀ p, pos.parent = some p → pos.left = none → pos.right = none →
      s.field StreeNode.leftChild p = none) :
    ∃ t, s.addChild pos.parent pos.left pos.right k = some t ∧ Joined s t pos k := by
  obtain ⟨p, l, r⟩ := pos
  cases p with
  | none =>
      obtain ⟨rfl, rfl⟩ := hroot rfl
      refine ⟨{ s with root := some k }, rfl, rfl, fun _ => Iff.rfl, rfl, fun x => ?_, fun x => ?_,
        fun x => ?_⟩
      · rw [if_neg (fun h => h.2 rfl)]
        rfl
      · rw [if_neg (fun h => nomatch h.1)]
        rfl
      · rw [if_neg (fun h => h.2 rfl), if_neg (fun h => nomatch h)]
        rfl
  | some p =>
      have hp : p ∈ s.nodes := hmem p (Or.inr rfl)
      have hkeep : s.root = if some p = none then some k else s.root := by
        rw [if_neg (Option.some_ne_none p)]
      cases l with
      | some l =>
          have hl : l ∈ s.nodes := hmem l (Or.inl rfl)
          cases r with
          | some r =>
              refine ⟨_, rfl, hkeep, by simp, by simp, fun x => ?_, by simp, fun x => ?_⟩
              · simp [parent_setParent, hk, Function.update_apply]
              · simp [rightSibling_setRightSibling, hk, hl, Function.update_apply, eq_comm]
          | none =>
              refine ⟨_, rfl, hkeep, by simp, by simp, fun x => ?_, by simp, fun x => ?_⟩
              · simp [parent_setParent, hk, Function.update_apply]
              · simp [rightSibling_setRightSibling, hl, Function.update_apply, eq_comm]
      | none =>
          cases r with
          | some r =>
              refine ⟨_, rfl, hkeep, by simp, by simp, fun x => ?_, fun x => ?_, fun x => ?_⟩
              · simp [parent_setParent, hk, Function.update_apply]
              · simp [leftChild_setLeftChild, hp, Function.update_apply, eq_comm]
              · simp [rightSibling_setRightSibling, hk, Function.update_apply]
          | none =>
              have hnone := rightmostChild_eq_none hp (hfirst p rfl rfl rfl)
              simp only [addChild, hnone, Option.bind_eq_bind, Option.bind_some]
              refine ⟨_, rfl, hkeep, by simp, by simp, fun x => ?_, fun x => ?_, by simp⟩
              · simp [parent_setParent, hk, Function.update_apply]
              · simp [leftChild_setLeftChild, hp, Function.update_apply, eq_comm]

/-- From `s` to `t` the node is added: its data are set, and it is linked. -/
structure Added (s t : Stree K D) (pos : StreeNodePos K) (k : K) (d : D) : Prop where
  root : t.root = if pos.parent = none then some k else s.root
  mem : ∀ x, x = k ∨ x ∈ s.nodes → x ∈ t.nodes
  data : ∀ x, t.field StreeNode.data x = if x = k then some d else s.field StreeNode.data x
  parent : ∀ x, t.field StreeNode.parent x =
    if x = k ∧ pos.parent ≠ none then pos.parent else s.field StreeNode.parent x
  leftChild : ∀ x, t.field StreeNode.leftChild x =
    if pos.parent = some x ∧ pos.left = none then some k else s.field StreeNode.leftChild x
  rightSibling : ∀ x, t.field StreeNode.rightSibling x =
    if x = k ∧ pos.right ≠ none then pos.right
    else if pos.left = some x then some k else s.field StreeNode.rightSibling x

theorem Joined.added {pos : StreeNodePos K} {d : D} (h : Joined (s.prepare pos k d) t pos k) :
    Added s t pos k d := by
  constructor
  · rw [h.root, root_prepare]
  · intro x hx
    rw [h.mem, mem_prepare]
    exact Or.inr (Or.inr (Or.inr hx))
  · intro x
    rw [h.data, data_prepare, Function.update_apply]
  · intro x
    rw [h.parent, field_prepare (fun _ => rfl) fun _ _ => rfl]
  · intro x
    rw [h.leftChild, field_prepare (fun _ => rfl) fun _ _ => rfl]
  · intro x
    rw [h.rightSibling, field_prepare (fun _ => rfl) fun _ _ => rfl]

theorem addNode_eq_addChild (s : Stree K D) (pos : StreeNodePos K) (k : K) (d : D) :
    s.addNode pos k d = (s.prepare pos k d).addChild pos.parent pos.left pos.right k := rfl

/-- The nodes that `add_child` links are there. -/
theorem mem_prepare_self (s : Stree K D) (pos : StreeNodePos K) (k : K) (d : D) :
    k ∈ (s.prepare pos k d).nodes ∧
      ∀ x, some x = pos.left ∨ some x = pos.parent → x ∈ (s.prepare pos k d).nodes := by
  constructor
  · rw [mem_prepare]
    exact Or.inr (Or.inr (Or.inr (Or.inl rfl)))
  · intro x hx
    rw [mem_prepare]
    tauto

/-- What `add_node` does, under the conditions of `add_child`. -/
theorem addNode_joined {pos : StreeNodePos K} (d : D)
    (hroot : pos.parent = none → pos.left = none ∧ pos.right = none)
    (hfirst : ∀ p, pos.parent = some p → pos.left = none → pos.right = none →
      s.field StreeNode.leftChild p = none) :
    ∃ t, s.addNode pos k d = some t ∧ Joined (s.prepare pos k d) t pos k := by
  have hleft : (s.prepare pos k d).field StreeNode.leftChild = s.field StreeNode.leftChild :=
    field_prepare (fun _ => rfl) (fun _ _ => rfl) s pos k d
  obtain ⟨hk, hmem⟩ := s.mem_prepare_self pos k d
  rw [addNode_eq_addChild]
  exact addChild_eq hk hmem hroot (hleft ▸ hfirst)

/-! ### All nodes -/

/-- The positions fit together: a node is on the left of another one exactly if that one is on its
right, only one node of a parent is the first one, and only one node has no parent. -/
structure Layout (keys : List K) (pos : K → StreeNodePos K) : Prop where
  left_iff : ∀ a b, (pos b).left = some a ↔ (pos a).right = some b
  first : ∀ a ∈ keys, ∀ b ∈ keys, (pos a).parent = (pos b).parent → (pos a).left = none →
    (pos b).left = none → a = b
  root : ∀ a, (pos a).parent = none → (pos a).left = none ∧ (pos a).right = none

variable {keys done : List K} {pos : K → StreeNodePos K} {data : K → D}

/-- The nodes `done` have been added. A link between two siblings is there when one of them has
been, and the link to a first child when this child has been. -/
structure Built (pos : K → StreeNodePos K) (data : K → D) (done : List K) (s : Stree K D) :
    Prop where
  root : ∀ x ∈ done, (pos x).parent = none → s.root = some x
  mem : ∀ x ∈ done, x ∈ s.nodes
  data : ∀ x ∈ done, s.field StreeNode.data x = some (data x)
  parent : ∀ x p, s.field StreeNode.parent x = some p ↔ x ∈ done ∧ (pos x).parent = some p
  leftChild : ∀ x c, s.field StreeNode.leftChild x = some c ↔
    c ∈ done ∧ (pos c).parent = some x ∧ (pos c).left = none
  rightSibling : ∀ x r, s.field StreeNode.rightSibling x = some r ↔
    (x ∈ done ∨ r ∈ done) ∧ (pos x).right = some r

theorem built_init (pos : K → StreeNodePos K) (data : K → D) (root : Option K) :
    Built pos data [] (init root : Stree K D) := by
  have hfield : ∀ (f : StreeNode K D → Option K) x, (init root : Stree K D).field f x = none := by
    intro f x
    rw [field, init, Std.TreeMap.getElem?_emptyc, Option.bind_none]
  constructor
  · exact fun x hx => nomatch hx
  · exact fun x hx => nomatch hx
  · exact fun x hx => nomatch hx
  · simp [hfield]
  · simp [hfield]
  · simp [hfield]

/-- Adding a node that is new. -/
theorem Built.added (hlayout : Layout keys pos) (h : Built pos data done s) (hk : k ∈ keys)
    (hdone : ∀ x ∈ done, x ∈ keys) (hnew : k ∉ done) (ht : Added s t (pos k) k (data k)) :
    Built pos data (k :: done) t := by
  constructor
  · intro x hx hparent
    rw [ht.root]
    rcases List.mem_cons.1 hx with rfl | hx
    · rw [if_pos hparent]
    · split_ifs with hroot
      -- Only one node has no parent.
      · have hleft := (hlayout.root x hparent).1
        have heq := hlayout.first x (hdone x hx) k hk (hparent.trans hroot.symm) hleft
          (hlayout.root k hroot).1
        rw [heq]
      · exact h.root x hx hparent
  · intro x hx
    exact ht.mem x ((List.mem_cons.1 hx).imp_right (h.mem x))
  · intro x hx
    rw [ht.data]
    rcases List.mem_cons.1 hx with rfl | hx
    · rw [if_pos rfl]
    · have hne : x ≠ k := fun heq => hnew (heq ▸ hx)
      rw [if_neg hne]
      exact h.data x hx
  · intro x p
    rw [ht.parent, List.mem_cons]
    by_cases hxk : x = k
    · subst hxk
      have hnone := h.parent x p
      rw [iff_false_intro hnew.elim, false_and] at hnone
      split_ifs with hpos
      · simp
      · rw [hnone]
        have hparent : (pos x).parent = none := by simpa using hpos
        simp [hparent]
    · rw [if_neg (fun hc => hxk hc.1), h.parent, or_iff_right hxk]
  · intro x c
    rw [ht.leftChild, List.mem_cons]
    split_ifs with hpos
    · rw [Option.some.injEq]
      constructor
      · rintro rfl
        exact ⟨Or.inl rfl, hpos⟩
      · rintro ⟨hc, hparent, hleft⟩
        have hckeys : c ∈ keys := by
          rcases hc with rfl | hc
          · exact hk
          · exact hdone c hc
        exact hlayout.first k hk c hckeys (hpos.1.trans hparent.symm) hpos.2 hleft
    · rw [h.leftChild]
      constructor
      · exact fun hc => ⟨Or.inr hc.1, hc.2⟩
      · rintro ⟨rfl | hc, hrest⟩
        · exact absurd hrest hpos
        · exact ⟨hc, hrest⟩
  · intro x r
    rw [ht.rightSibling, List.mem_cons, List.mem_cons]
    by_cases hxk : x = k ∧ (pos k).right ≠ none
    · obtain ⟨rfl, hright⟩ := hxk
      rw [if_pos ⟨rfl, hright⟩]
      simp
    · rw [if_neg hxk]
      by_cases hleft : (pos k).left = some x
      · rw [if_pos hleft, (hlayout.left_iff x k).1 hleft, Option.some.injEq]
        constructor
        · rintro rfl
          exact ⟨Or.inr (Or.inl rfl), rfl⟩
        · exact fun hr => hr.2
      · rw [if_neg hleft, h.rightSibling]
        constructor
        · exact fun hr => ⟨hr.1.imp Or.inr Or.inr, hr.2⟩
        · rintro ⟨(rfl | hx) | (rfl | hr), hpos⟩
          · exact absurd ⟨rfl, by simp [hpos]⟩ hxk
          · exact ⟨Or.inl hx, hpos⟩
          · exact absurd ((hlayout.left_iff x r).2 hpos) hleft
          · exact ⟨Or.inr hr, hpos⟩

/-- One round of `build`: the links that `add_node` needs to be null are. -/
theorem Built.addNode (hlayout : Layout keys pos) (h : Built pos data done s) (hk : k ∈ keys)
    (hdone : ∀ x ∈ done, x ∈ keys) (hnew : k ∉ done) :
    ∃ t, s.addNode (pos k) k (data k) = some t ∧ Built pos data (k :: done) t := by
  have hfirst : ∀ p, (pos k).parent = some p → (pos k).left = none → (pos k).right = none →
      s.field StreeNode.leftChild p = none := by
    intro p hparent hleft _
    cases hc : s.field StreeNode.leftChild p with
    | none => rfl
    | some c =>
        obtain ⟨hmem, hparent', hleft'⟩ := (h.leftChild p c).1 hc
        have heq := hlayout.first k hk c (hdone c hmem) (hparent.trans hparent'.symm) hleft hleft'
        exact absurd (heq ▸ hmem) hnew
  obtain ⟨t, ht, hjoined⟩ := addNode_joined (data k) (hlayout.root k) hfirst
  exact ⟨t, ht, h.added hlayout hk hdone hnew hjoined.added⟩

/-- The loop of `build`, from where the nodes `done` have been added. -/
theorem Built.foldlM (hlayout : Layout keys pos) {helper : StreeHelper K D}
    {entries : List (K × D)} (h : Built pos data done s)
    (hentries : ∀ e ∈ entries, e.1 ∈ keys ∧ e.2 = data e.1)
    (hpos : ∀ k ∈ keys, helper.nodePos[k]? = some (pos k))
    (hdone : ∀ x ∈ done, x ∈ keys) (hnodup : (entries.map Prod.fst).Nodup)
    (hnew : ∀ k ∈ entries.map Prod.fst, k ∉ done) :
    ∃ t, entries.foldlM (buildStep helper) s = some t ∧
      Built pos data ((entries.map Prod.fst).reverse ++ done) t := by
  induction entries generalizing s done with
  | nil => exact ⟨s, rfl, h⟩
  | cons e entries ih =>
      obtain ⟨hkey, hdata⟩ := hentries e List.mem_cons_self
      rw [List.map_cons, List.nodup_cons] at hnodup
      have hfresh : e.1 ∉ done := hnew e.1 List.mem_cons_self
      obtain ⟨u, hu, hbuilt⟩ := h.addNode hlayout hkey hdone hfresh
      have hdone' : ∀ x ∈ e.1 :: done, x ∈ keys := by
        intro x hx
        rcases List.mem_cons.1 hx with rfl | hx
        · exact hkey
        · exact hdone x hx
      have hnew' : ∀ k ∈ entries.map Prod.fst, k ∉ e.1 :: done := by
        intro k hk hmem
        rcases List.mem_cons.1 hmem with rfl | hmem
        · exact hnodup.1 hk
        · exact hnew k (List.mem_cons_of_mem e.1 hk) hmem
      obtain ⟨t, ht, hlast⟩ := ih hbuilt (fun a ha => hentries a (List.mem_cons_of_mem e ha)) hdone'
        hnodup.2 hnew'
      refine ⟨t, ?_, ?_⟩
      · have hstep : buildStep helper s e = some u := by
          rw [buildStep, hpos e.1 hkey, hdata]
          exact hu
        rw [List.foldlM_cons, hstep]
        exact ht
      · rw [List.map_cons, List.reverse_cons, List.append_assoc, List.singleton_append]
        exact hlast

/-! ### The keys of the nodes -/

/-- Every node has the key under which it is kept. -/
def Keyed (s : Stree K D) : Prop := ∀ (k : K) (n : StreeNode K D), s.nodes[k]? = some n → n.key = k

theorem Keyed.modify (h : Keyed s) {g : StreeNode K D → StreeNode K D}
    (hg : ∀ n, (g n).key = n.key) (k : K) : Keyed (s.modify k g) := by
  intro x n hn
  rw [getElem?_modify] at hn
  split_ifs at hn with hkx
  · obtain ⟨m, hm, rfl⟩ := Option.map_eq_some_iff.1 hn
    rw [hg, ← hkx]
    exact h k m hm
  · exact h x n hn

theorem Keyed.getNode (h : Keyed s) (k : K) : Keyed (s.getNode k) := by
  intro x n hn
  unfold Stree.getNode at hn
  split_ifs at hn
  · exact h x n hn
  · rw [StreeHelper.getElem?_insert] at hn
    split_ifs at hn with hkx
    · rw [← Option.some.inj hn, ← hkx]
      rfl
    · exact h x n hn

theorem Keyed.getNeighbour (h : Keyed s) (k : Option K) : Keyed (s.getNeighbour k) := by
  cases k with
  | none => exact h
  | some k => exact h.getNode k

theorem Keyed.setParent (h : Keyed s) (k p : K) : Keyed (s.setParent k p) := by
  apply h.modify
  exact fun _ => rfl

theorem Keyed.setLeftChild (h : Keyed s) (k c : K) : Keyed (s.setLeftChild k c) := by
  apply h.modify
  exact fun _ => rfl

theorem Keyed.setRightSibling (h : Keyed s) (k r : K) : Keyed (s.setRightSibling k r) := by
  apply h.modify
  exact fun _ => rfl

theorem Keyed.addChild (h : Keyed s) {p l r : Option K} (ht : s.addChild p l r k = some t) :
    Keyed t := by
  cases p with
  | none =>
      rw [← Option.some.inj ht]
      exact h
  | some p =>
      cases l with
      | some l =>
          cases r with
          | some r =>
              rw [← Option.some.inj ht]
              exact ((h.setRightSibling l k).setParent k p).setRightSibling k r
          | none =>
              rw [← Option.some.inj ht]
              exact (h.setRightSibling l k).setParent k p
      | none =>
          cases r with
          | some r =>
              rw [← Option.some.inj ht]
              exact ((h.setRightSibling k r).setParent k p).setLeftChild p k
          | none =>
              obtain ⟨rc, -, hrc⟩ := Option.bind_eq_some_iff.1 ht
              cases rc with
              | some rc =>
                  rw [← Option.some.inj hrc]
                  exact (h.setRightSibling rc k).setParent k p
              | none =>
                  rw [← Option.some.inj hrc]
                  exact (h.setLeftChild p k).setParent k p

theorem Keyed.addNode (h : Keyed s) {pos : StreeNodePos K} {d : D}
    (ht : s.addNode pos k d = some t) : Keyed t := by
  have hset : Keyed (s.setNode k d) := by
    apply (h.getNode k).modify
    exact fun _ => rfl
  exact (((hset.getNeighbour pos.parent).getNeighbour pos.left).getNeighbour pos.right).addChild ht

theorem Keyed.buildStep (h : Keyed s) {helper : StreeHelper K D} {e : K × D}
    (ht : buildStep helper s e = some t) : Keyed t := by
  unfold Stree.buildStep at ht
  cases hpos : helper.nodePos[e.1]? with
  | none =>
      rw [hpos] at ht
      rw [← Option.some.inj ht]
      exact h
  | some pos =>
      rw [hpos] at ht
      exact h.addNode ht

theorem Keyed.foldlM (h : Keyed s) {helper : StreeHelper K D} {entries : List (K × D)}
    (ht : entries.foldlM (Stree.buildStep helper) s = some t) : Keyed t := by
  induction entries generalizing s with
  | nil =>
      rw [← Option.some.inj ht]
      exact h
  | cons e entries ih =>
      rw [List.foldlM_cons] at ht
      obtain ⟨u, hu, hrest⟩ := Option.bind_eq_some_iff.1 ht
      exact ih (h.buildStep hu) hrest

theorem keyed_init (root : Option K) : Keyed (init root : Stree K D) := by
  intro k n hn
  rw [init, Std.TreeMap.getElem?_emptyc] at hn
  cases hn

end Stree

end Miscellany
