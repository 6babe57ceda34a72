import Mathlib.Data.List.Dedup
import Mathlib.Data.List.Pairwise
import Std.Data.ExtTreeMap

/-!
# The keys of an ordered map

An ordered map is walked through in the order of its keys. When its keys are known to be those of a
list, they are the elements of the list in ascending order, each once (`keys_eq_ascending`), so a
walk is a walk through these (`toList_eq_map`). What has been sorted into the keys is all there
(`flatMap_filter_perm`).
-/

namespace Miscellany

variable {α β : Type*} {cmp : α → α → Ordering}

/-- Two lists in ascending order with the same elements. -/
theorem eq_of_perm_of_isLE [Std.TransCmp cmp] [Std.LawfulEqCmp cmp] {l l' : List α}
    (hl : l.Pairwise fun a b => (cmp a b).isLE = true)
    (hl' : l'.Pairwise fun a b => (cmp a b).isLE = true) (h : l.Perm l') : l = l' := by
  apply h.eq_of_pairwise ?_ hl hl'
  intro a b _ _ hab hba
  exact Std.LawfulEqCmp.eq_of_compare (Std.OrientedCmp.isLE_antisymm hab hba)

section Ascending

variable [DecidableEq α]

/-- The elements of a list in ascending order, each once. -/
def ascending (cmp : α → α → Ordering) (l : List α) : List α :=
  l.dedup.mergeSort fun a b => (cmp a b).isLE

theorem ascending_perm (cmp : α → α → Ordering) (l : List α) : (ascending cmp l).Perm l.dedup :=
  List.mergeSort_perm _ _

theorem mem_ascending {a : α} {l : List α} : a ∈ ascending cmp l ↔ a ∈ l := by
  rw [(ascending_perm cmp l).mem_iff, List.mem_dedup]

theorem nodup_ascending (cmp : α → α → Ordering) (l : List α) : (ascending cmp l).Nodup :=
  (ascending_perm cmp l).nodup_iff.2 l.nodup_dedup

theorem pairwise_ascending [Std.TransCmp cmp] (l : List α) :
    (ascending cmp l).Pairwise fun a b => (cmp a b).isLE = true := by
  apply List.pairwise_mergeSort
  · exact fun a b c hab hbc => Std.TransCmp.isLE_trans hab hbc
  · intro a b
    rw [Bool.or_eq_true, @Std.OrientedCmp.eq_swap _ cmp _ b a]
    cases cmp a b with
    | lt => exact Or.inl rfl
    | eq => exact Or.inl rfl
    | gt => exact Or.inr rfl

/-- The order and the repetitions in the list do not matter. -/
theorem ascending_congr [Std.TransCmp cmp] [Std.LawfulEqCmp cmp] {l l' : List α}
    (h : ∀ a, a ∈ l ↔ a ∈ l') : ascending cmp l = ascending cmp l' := by
  apply eq_of_perm_of_isLE (pairwise_ascending l) (pairwise_ascending l')
  apply (List.perm_ext_iff_of_nodup (nodup_ascending cmp l) (nodup_ascending cmp l')).2
  intro a
  rw [mem_ascending, mem_ascending, h]

/-- A list is put together again from its elements with each of the keys. -/
theorem flatMap_filter_perm {f : β → α} {ks : List α} {l : List β} (hks : ks.Nodup)
    (hl : ∀ x ∈ l, f x ∈ ks) : (ks.flatMap fun k => l.filter fun x => f x = k).Perm l := by
  induction ks generalizing l with
  | nil =>
      cases l with
      | nil => exact List.Perm.refl []
      | cons x l => exact absurd (hl x List.mem_cons_self) List.not_mem_nil
  | cons k ks ih =>
      rw [List.nodup_cons] at hks
      have hrest : (ks.flatMap fun k' => l.filter fun x => f x = k') =
          ks.flatMap fun k' => (l.filter fun x => !decide (f x = k)).filter fun x => f x = k' := by
        apply List.flatMap_congr
        intro k' hk'
        rw [List.filter_filter]
        apply List.filter_congr
        intro x _
        have hne : f x = k' → f x ≠ k := fun h hk => hks.1 (hk ▸ h ▸ hk')
        by_cases h : f x = k'
        · simp [h, h ▸ hne h]
        · simp [h]
      rw [List.flatMap_cons, hrest]
      refine (List.Perm.append_left _ (ih hks.2 fun x hx => ?_)).trans (List.filter_append_perm _ l)
      rw [List.mem_filter, Bool.not_eq_true', decide_eq_false_iff_not] at hx
      exact (List.mem_cons.1 (hl x hx.1)).resolve_left hx.2

end Ascending

/-! ### Maps -/

variable [Std.TransCmp cmp] [Std.LawfulEqCmp cmp] {m : Std.ExtTreeMap α β cmp}

/-- The keys of a map whose keys are those of a list. -/
theorem keys_eq_ascending [DecidableEq α] {l : List α} (h : ∀ k, k ∈ m ↔ k ∈ l) :
    m.keys = ascending cmp l := by
  have hkeys : m.keys.Pairwise fun a b => (cmp a b).isLE = true := by
    apply Std.ExtTreeMap.ordered_keys.imp
    intro a b hlt
    rw [hlt]
    rfl
  apply eq_of_perm_of_isLE hkeys (pairwise_ascending l)
  apply (List.perm_ext_iff_of_nodup Std.ExtTreeMap.nodup_keys (nodup_ascending cmp l)).2
  intro k
  rw [Std.ExtTreeMap.mem_keys, h k, mem_ascending]

/-- A walk through the map with the values of its keys. -/
theorem toList_eq_map [DecidableEq α] {l : List α} {f : α → β} (hkeys : ∀ k, k ∈ m ↔ k ∈ l)
    (hval : ∀ k ∈ l, m[k]? = some (f k)) :
    m.toList = (ascending cmp l).map fun k => (k, f k) := by
  rw [← keys_eq_ascending hkeys, ← Std.ExtTreeMap.map_fst_toList_eq_keys, List.map_map]
  calc m.toList = m.toList.map id := (List.map_id _).symm
    _ = m.toList.map ((fun k => (k, f k)) ∘ Prod.fst) := List.map_congr_left fun x hx => ?_
  have hget := Std.ExtTreeMap.mem_toList_iff_getElem?_eq_some.1 hx
  have hmem : x.1 ∈ l := by
    rw [← hkeys, Std.ExtTreeMap.mem_iff_isSome_getElem?, hget]
    rfl
  rw [hval x.1 hmem] at hget
  exact Prod.ext rfl (Option.some.inj hget).symm

end Miscellany
