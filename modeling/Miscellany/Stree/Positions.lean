import Mathlib.Data.List.Flatten
import Miscellany.Library.OrderedTree
import Miscellany.Stree.Basic

/-!
# The positions that describe a tree

A tree is described by a call of `add_node` for each key and a call of `add_pos_info` for
each node that has children, in any order (`Describes`). A call writes the positions of the
children, and gives the parent an empty position if it has none. So the position of a node
that has a parent is the one written by the call for this parent: an empty one that was
there before is overwritten, and a later call finds it there. Only the root keeps an empty
position.
-/

namespace Miscellany

variable {K D : Type}

/-! ### The calls that describe a tree -/

open OrderedTree

inductive HelperCall (K D : Type) where
  | addNode (k : K) (d : D)
  | addPosInfo (p : K) (vec : List K)

/-- The children of a call. -/
def HelperCall.vec : HelperCall K D → List K
  | .addNode _ _ => []
  | .addPosInfo _ vec => vec

/-- The calls describe the tree, with the given data: one call for each key and one for each node
that has children, in any order. -/
def Describes (calls : List (HelperCall K D)) (T : OrderedTree K) (data : K → D) : Prop :=
  calls.Perm (T.keys.map (fun k => HelperCall.addNode k (data k)) ++
    (T.family.filter fun t => !t.children.isEmpty).map fun t =>
      HelperCall.addPosInfo t.key (t.children.map key))

namespace Describes

variable {calls : List (HelperCall K D)} {T : OrderedTree K} {data : K → D} {k p : K} {d : D}
variable {vec : List K}

theorem addNode_mem_iff (h : Describes calls T data) :
    HelperCall.addNode k d ∈ calls ↔ k ∈ T.keys ∧ d = data k := by
  rw [h.mem_iff, List.mem_append, List.mem_map, List.mem_map]
  constructor
  · rintro (⟨a, ha, heq⟩ | ⟨t, -, heq⟩)
    · rw [HelperCall.addNode.injEq] at heq
      obtain ⟨rfl, rfl⟩ := heq
      exact ⟨ha, rfl⟩
    · cases heq
  · rintro ⟨hk, rfl⟩
    exact Or.inl ⟨k, hk, rfl⟩

theorem addPosInfo_mem_iff (h : Describes calls T data) :
    HelperCall.addPosInfo p vec ∈ calls ↔
      ∃ t ∈ T.family, t.children ≠ [] ∧ t.key = p ∧ t.children.map key = vec := by
  rw [h.mem_iff, List.mem_append, List.mem_map, List.mem_map]
  constructor
  · rintro (⟨a, -, heq⟩ | ⟨t, ht, heq⟩)
    · cases heq
    · rw [List.mem_filter] at ht
      rw [HelperCall.addPosInfo.injEq] at heq
      refine ⟨t, ht.1, ?_, heq⟩
      intro hnil
      rw [hnil] at ht
      cases ht.2
  · rintro ⟨t, ht, hne, rfl, rfl⟩
    refine Or.inr ⟨t, List.mem_filter.2 ⟨ht, ?_⟩, rfl⟩
    rw [List.isEmpty_eq_false_iff.2 hne]
    rfl

theorem notMem_vec (h : Describes calls T data) {k : K}
    (hk : ∀ t ∈ T.family, k ∉ t.children.map key) {calls' : List (HelperCall K D)}
    (hsub : calls' ⊆ calls) : ∀ p vec, HelperCall.addPosInfo p vec ∈ calls' → k ∉ vec := by
  intro p vec hmem
  obtain ⟨t, ht, -, -, rfl⟩ := h.addPosInfo_mem_iff.1 (hsub hmem)
  exact hk t ht

/-- No key is twice among the children of the calls. -/
theorem nodup_vec (h : Describes calls T data) (hT : T.keys.Nodup) :
    (calls.flatMap HelperCall.vec).Nodup := by
  have hnodup : (T.family.flatMap fun t => t.children.map key).Nodup :=
    (List.nodup_cons.1 (T.keys_perm.nodup_iff.1 hT)).2
  have hsub : ((T.family.filter fun t => !t.children.isEmpty).flatMap fun t =>
      t.children.map key).Sublist (T.family.flatMap fun t => t.children.map key) :=
    List.Sublist.flatMap List.filter_sublist _
  apply (List.Perm.flatMap_right HelperCall.vec h).nodup_iff.2
  rw [List.flatMap_append, List.flatMap_map, List.flatMap_map]
  have hnil : (T.keys.flatMap fun k => (HelperCall.addNode k (data k)).vec) = [] :=
    List.flatMap_eq_nil_iff.2 fun _ _ => rfl
  rw [hnil, List.nil_append]
  exact hsub.nodup hnodup

end Describes

variable [LinearOrder K]

namespace StreeHelper

variable {h : StreeHelper K D} {p k : K} {u v vec : List K} {left : Option K}

/-! ### One call -/

theorem getElem?_insert {V : Type} (m : Std.TreeMap K V) (k a : K) (x : V) :
    (m.insert k x)[a]? = if k = a then some x else m[a]? := by
  rw [Std.TreeMap.getElem?_insert]
  simp only [Std.LawfulEqCmp.compare_eq_iff_eq]

theorem posLoop_of_notMem (m : Std.TreeMap K (StreeNodePos K)) (hk : k ∉ vec) :
    (posLoop p left vec m)[k]? = m[k]? := by
  induction vec generalizing left m with
  | nil => rfl
  | cons a vec ih =>
      rw [List.mem_cons, not_or] at hk
      rw [posLoop, ih _ hk.2, getElem?_insert, if_neg (Ne.symm hk.1)]

/-- The position of a child is between the child before it and the one behind it. -/
theorem posLoop_of_mem (m : Std.TreeMap K (StreeNodePos K)) (hk : k ∉ v) :
    (posLoop p left (u ++ k :: v) m)[k]? =
      some { parent := some p, left := u.getLast?.or left, right := v.head? } := by
  induction u generalizing left m with
  | nil =>
      rw [List.nil_append, posLoop, posLoop_of_notMem _ hk, getElem?_insert, if_pos rfl]
      rfl
  | cons a u ih =>
      rw [List.cons_append, posLoop, ih, List.getLast?_cons]
      cases u.getLast? with
      | none => rfl
      | some b => rfl

theorem addPosInfo_of_mem (h : StreeHelper K D) (p : K) (hk : k ∉ v) :
    (h.addPosInfo p (u ++ k :: v)).nodePos[k]? =
      some { parent := some p, left := u.getLast?, right := v.head? } := by
  have hne : (u ++ k :: v).isEmpty = false := by simp
  simp only [addPosInfo, hne, Bool.false_eq_true, if_false]
  rw [posLoop_of_mem _ hk, Option.or_none]

/-- A call for the children of `p` makes sure that `p` has a position. -/
theorem addPosInfo_of_notMem (h : StreeHelper K D) (hk : k ∉ vec) :
    (h.addPosInfo p vec).nodePos[k]? =
      if vec ≠ [] ∧ p = k then some (h.nodePos[k]?.getD .init) else h.nodePos[k]? := by
  cases vec with
  | nil => rfl
  | cons a vec =>
      simp only [addPosInfo, List.isEmpty_cons, Bool.false_eq_true, if_false]
      rw [posLoop_of_notMem _ hk, Std.TreeMap.contains_eq_isSome_getElem?]
      by_cases hpk : p = k
      · subst hpk
        cases hpos : h.nodePos[p]? with
        | none => simp
        | some x => simp [hpos]
      · cases hpos : h.nodePos[p]? with
        | none => simp [getElem?_insert, hpk]
        | some x => simp [hpk]

end StreeHelper

/-! ### Any calls -/

namespace StreeHelper

variable {h : StreeHelper K D} {k : K} {calls : List (HelperCall K D)}

def call (h : StreeHelper K D) : HelperCall K D → StreeHelper K D
  | .addNode k d => h.addNode k d
  | .addPosInfo p vec => h.addPosInfo p vec

/-- The helper after the calls. -/
def callAll (h : StreeHelper K D) (calls : List (HelperCall K D)) : StreeHelper K D :=
  calls.foldl call h

theorem callAll_cons (h : StreeHelper K D) (c : HelperCall K D) (calls : List (HelperCall K D)) :
    h.callAll (c :: calls) = (h.call c).callAll calls := rfl

theorem callAll_append (h : StreeHelper K D) (calls calls' : List (HelperCall K D)) :
    h.callAll (calls ++ calls') = (h.callAll calls).callAll calls' := List.foldl_append

/-- Calls that do not have the key among the children leave its position. -/
theorem callAll_nodePos_of_some {x : StreeNodePos K}
    (hcalls : ∀ p vec, HelperCall.addPosInfo p vec ∈ calls → k ∉ vec)
    (hx : h.nodePos[k]? = some x) : (h.callAll calls).nodePos[k]? = some x := by
  induction calls generalizing h with
  | nil => exact hx
  | cons c calls ih =>
      rw [callAll_cons]
      apply ih fun p vec hmem => hcalls p vec (List.mem_cons_of_mem c hmem)
      cases c with
      | addNode a d => exact hx
      | addPosInfo p vec =>
          rw [call, addPosInfo_of_notMem h (hcalls p vec List.mem_cons_self), hx]
          split_ifs
          · rfl
          · rfl

/-- A key that is among no children has no position or an empty one. -/
theorem callAll_nodePos_eq_init {x : StreeNodePos K}
    (hcalls : ∀ p vec, HelperCall.addPosInfo p vec ∈ calls → k ∉ vec)
    (hh : ∀ y, h.nodePos[k]? = some y → y = .init) (hx : (h.callAll calls).nodePos[k]? = some x) :
    x = .init := by
  induction calls generalizing h with
  | nil => exact hh x hx
  | cons c calls ih =>
      rw [callAll_cons] at hx
      apply ih (fun p vec hmem => hcalls p vec (List.mem_cons_of_mem c hmem)) _ hx
      intro y hy
      cases c with
      | addNode a d => exact hh y hy
      | addPosInfo p vec =>
          rw [call, addPosInfo_of_notMem h (hcalls p vec List.mem_cons_self)] at hy
          split_ifs at hy
          · cases hpos : h.nodePos[k]? with
            | none =>
                rw [hpos] at hy
                exact (Option.some.inj hy).symm
            | some z =>
                rw [hpos] at hy
                rw [← Option.some.inj hy]
                exact hh z hpos
          · exact hh y hy

theorem init_nodePos (x : StreeNodePos K)
    (hx : (init : StreeHelper K D).nodePos[k]? = some x) : x = .init := by
  rw [init, Std.TreeMap.getElem?_emptyc] at hx
  cases hx

theorem addPosInfo_nodeData (h : StreeHelper K D) (p : K) (vec : List K) :
    (h.addPosInfo p vec).nodeData = h.nodeData := by
  cases vec with
  | nil => rfl
  | cons a vec => rfl

/-- The data of the keys, where each is always given the same. -/
theorem callAll_nodeData {data : K → D} {d : D}
    (hcalls : ∀ a d, HelperCall.addNode a d ∈ calls → d = data a)
    (hh : ∀ a d, h.nodeData[a]? = some d → d = data a) :
    (h.callAll calls).nodeData[k]? = some d ↔
      HelperCall.addNode k d ∈ calls ∨ h.nodeData[k]? = some d := by
  induction calls generalizing h with
  | nil => simp [callAll]
  | cons c calls ih =>
      have hrest : ∀ a d, HelperCall.addNode a d ∈ calls → d = data a := fun a d hmem =>
        hcalls a d (List.mem_cons_of_mem c hmem)
      rw [callAll_cons]
      cases c with
      | addPosInfo p vec =>
          rw [call, ih hrest (by rw [addPosInfo_nodeData]; exact hh), addPosInfo_nodeData]
          simp
      | addNode a e =>
          have he : e = data a := hcalls a e List.mem_cons_self
          have hget : ∀ b, (h.addNode a e).nodeData[b]? = if a = b then some e
              else h.nodeData[b]? := fun b => getElem?_insert h.nodeData a b e
          have hset : ∀ b d, (h.addNode a e).nodeData[b]? = some d → d = data b := by
            intro b d hd
            rw [hget] at hd
            split_ifs at hd with hab
            · rw [← hab, ← he, Option.some.inj hd]
            · exact hh b d hd
          rw [call, ih hrest hset, hget, List.mem_cons, HelperCall.addNode.injEq]
          by_cases hak : a = k
          · subst hak
            rw [if_pos rfl, Option.some.injEq]
            constructor
            · rintro (hmem | rfl)
              · exact Or.inl (Or.inr hmem)
              · exact Or.inl (Or.inl ⟨rfl, rfl⟩)
            · rintro ((⟨-, rfl⟩ | hmem) | hd)
              · exact Or.inr rfl
              · exact Or.inl hmem
              · exact Or.inr (he.trans (hh a d hd).symm)
          · simp [hak, Ne.symm hak]

end StreeHelper

/-! ### The helper of a tree -/

/-- The helper has the data and the positions of the nodes of the tree. -/
structure Placed (h : StreeHelper K D) (T : OrderedTree K) (data : K → D) : Prop where
  nodeData : ∀ k d, h.nodeData[k]? = some d ↔ k ∈ T.keys ∧ d = data k
  child : ∀ t ∈ T.family, ∀ u k v, t.children.map key = u ++ k :: v →
    h.nodePos[k]? = some { parent := some t.key, left := u.getLast?, right := v.head? }
  root : h.nodePos[T.key]? = some .init
  other : ∀ k, (∀ t ∈ T.family, k ∉ t.children.map key) → ∀ x, h.nodePos[k]? = some x → x = .init

namespace Describes

variable {calls : List (HelperCall K D)} {T : OrderedTree K} {data : K → D}

/-- The position of a child is the one that the call for its parent has written. -/
theorem nodePos_child (h : Describes calls T data) (hT : T.keys.Nodup) {t : OrderedTree K}
    (ht : t ∈ T.family) {u v : List K} {k : K} (hsplit : t.children.map key = u ++ k :: v) :
    (StreeHelper.init.callAll calls).nodePos[k]? =
      some { parent := some t.key, left := u.getLast?, right := v.head? } := by
  have hne : t.children ≠ [] := by
    intro hnil
    rw [hnil, List.map_nil] at hsplit
    cases u with
    | nil => cases hsplit
    | cons a u => cases hsplit
  obtain ⟨before, after, rfl⟩ :=
    List.append_of_mem (h.addPosInfo_mem_iff.2 ⟨t, ht, hne, rfl, hsplit⟩)
  have hnodup := h.nodup_vec hT
  rw [List.flatMap_append, List.flatMap_cons, HelperCall.vec] at hnodup
  obtain ⟨hcall, -, hafter⟩ := List.nodup_append.1 (List.nodup_append.1 hnodup).2.1
  have hk : k ∉ v := by
    rw [List.nodup_middle] at hcall
    exact fun hmem => (List.nodup_cons.1 hcall).1 (List.mem_append_right u hmem)
  rw [StreeHelper.callAll_append, StreeHelper.callAll_cons, StreeHelper.call]
  apply StreeHelper.callAll_nodePos_of_some
  · intro p vec hmem hvec
    have hmem' : k ∈ after.flatMap HelperCall.vec := List.mem_flatMap.2 ⟨_, hmem, hvec⟩
    exact hafter k (List.mem_append_right u List.mem_cons_self) k hmem' rfl
  · exact StreeHelper.addPosInfo_of_mem _ t.key hk

/-- The root, which is nobody's child, gets an empty position from the call for its children. -/
theorem nodePos_root (h : Describes calls T data) (hT : T.keys.Nodup) (hedge : T.children ≠ []) :
    (StreeHelper.init.callAll calls).nodePos[T.key]? = some .init := by
  have hroot : ∀ t ∈ T.family, T.key ∉ t.children.map key := by
    intro t ht hmem
    exact (List.nodup_cons.1 (T.keys_perm.nodup_iff.1 hT)).1 (List.mem_flatMap.2 ⟨t, ht, hmem⟩)
  obtain ⟨before, after, hsplit⟩ := List.append_of_mem
    (h.addPosInfo_mem_iff.2 ⟨T, T.self_mem_family, hedge, rfl, rfl⟩)
  have hbefore : before ⊆ calls := by
    rw [hsplit]
    exact List.subset_append_left _ _
  have hafter : after ⊆ calls := by
    rw [hsplit]
    exact List.Subset.trans (List.subset_cons_self _ _) (List.subset_append_right _ _)
  have hinit : ∀ x, (StreeHelper.init.callAll before).nodePos[T.key]? = some x → x = .init := by
    intro x hx
    exact StreeHelper.callAll_nodePos_eq_init (h.notMem_vec hroot hbefore)
      StreeHelper.init_nodePos hx
  rw [hsplit, StreeHelper.callAll_append, StreeHelper.callAll_cons, StreeHelper.call]
  apply StreeHelper.callAll_nodePos_of_some (h.notMem_vec hroot hafter)
  have hne : T.children.map key ≠ [] := fun hnil => hedge (List.map_eq_nil_iff.1 hnil)
  rw [StreeHelper.addPosInfo_of_notMem _ (hroot T T.self_mem_family), if_pos ⟨hne, rfl⟩]
  cases hpos : (StreeHelper.init.callAll before).nodePos[T.key]? with
  | none => rfl
  | some x => rw [hinit x hpos, Option.getD_some]

/-- What the calls leave in the helper. -/
theorem placed (h : Describes calls T data) (hT : T.keys.Nodup) (hedge : T.children ≠ []) :
    Placed (StreeHelper.init.callAll calls) T data := by
  constructor
  · intro k d
    have hcalls : ∀ a d, HelperCall.addNode a d ∈ calls → d = data a := fun a d hmem =>
      (h.addNode_mem_iff.1 hmem).2
    have hempty : ∀ (a : K) (d : D),
        (StreeHelper.init : StreeHelper K D).nodeData[a]? ≠ some d := by
      intro a d hd
      rw [StreeHelper.init, Std.TreeMap.getElem?_emptyc] at hd
      cases hd
    rw [StreeHelper.callAll_nodeData hcalls fun a d hd => absurd hd (hempty a d),
      or_iff_left (hempty k d), h.addNode_mem_iff]
  · intro t ht u k v hsplit
    exact h.nodePos_child hT ht hsplit
  · exact h.nodePos_root hT hedge
  · intro k hk x hx
    exact StreeHelper.callAll_nodePos_eq_init (h.notMem_vec hk (List.Subset.refl calls))
      StreeHelper.init_nodePos hx

end Describes

end Miscellany
