import Miscellany.Library.Walk

/-!
# Intrusive circular doubly linked lists

The links of an intrusive list are fields of the objects that are linked, and a
list is named by a sentinel. `ListHead ι α` is the address of one pair of links:
a sentinel `head i` or the links `entry a` embedded in the object `a`. `Links`
holds the contents of all the pairs of one kind, a null pointer being `none`, so
that several lists, with different sentinels, live in one value of it.

The operations on the links are those of `ListH`, for which an access through a null
pointer is a fault, `none`. Where that cannot happen, the operations of `Links` are
used, which are total.

`Ring L i xs` says that the list with sentinel `head i` holds exactly the objects
`xs`, once each and in this order, read in both directions. Adding at the tail
and deleting with re-initialisation act on `xs` as expected, and they change no
link outside the ring they work on (`listAddTail_frame`, `listDelInit_frame`).
A deleted entry is left linked to itself (`listDelInit_self`).
-/

namespace Miscellany

/-- The address of one pair of list links. -/
inductive ListHead (ι α : Type*) where
  | head (i : ι)
  | entry (a : α)
deriving DecidableEq

/-- The contents of all pairs of links of one kind; `none` is a null pointer. -/
structure Links (ι α : Type*) where
  next : ListHead ι α → Option (ListHead ι α)
  prev : ListHead ι α → Option (ListHead ι α)

namespace Links

variable {ι α : Type*} [DecidableEq ι] [DecidableEq α]

def setNext (L : Links ι α) (x : ListHead ι α) (y : Option (ListHead ι α)) : Links ι α :=
  { L with next := Function.update L.next x y }

def setPrev (L : Links ι α) (x : ListHead ι α) (y : Option (ListHead ι α)) : Links ι α :=
  { L with prev := Function.update L.prev x y }

/-- `INIT_LIST_HEAD`: the pair of links is linked to itself. -/
def initListHead (L : Links ι α) (x : ListHead ι α) : Links ι α :=
  (L.setNext x (some x)).setPrev x (some x)

/-- Clearing a pair of links, as zeroing the memory it lies in does. -/
def clear (L : Links ι α) (x : ListHead ι α) : Links ι α :=
  (L.setNext x none).setPrev x none

/-- `__list_add`: link `new` between the consecutive `prev` and `next`. -/
def listAddBetween (L : Links ι α) (new prev next : ListHead ι α) : Links ι α :=
  (((L.setPrev next (some new)).setNext new (some next)).setPrev new (some prev)).setNext prev
    (some new)

end Links

namespace ListH

variable {ι α : Type*} [DecidableEq ι] [DecidableEq α]

/-- `__list_del`. -/
def listDelBetween (L : Links ι α) (prev next : ListHead ι α) : Links ι α :=
  (L.setPrev next (some prev)).setNext prev (some next)

/-- `list_add_tail`: link `new` before `head`. -/
def listAddTail (L : Links ι α) (new head : ListHead ι α) : Option (Links ι α) := do
  let prev ← L.prev head
  return L.listAddBetween new prev head

/-- `list_del_init`: unlink `entry` from its neighbours and link it to itself. -/
def listDelInit (L : Links ι α) (entry : ListHead ι α) : Option (Links ι α) := do
  let prev ← L.prev entry
  let next ← L.next entry
  return (listDelBetween L prev next).initListHead entry

end ListH

namespace Links

variable {ι α : Type*} [DecidableEq ι] [DecidableEq α]

/-- `list_add_tail`, where `head` belongs to a list. -/
def listAddTail (L : Links ι α) (new head : ListHead ι α) : Links ι α :=
  (ListH.listAddTail L new head).getD L

/-- `list_del_init`, where `entry` belongs to a list or is linked to itself. -/
def listDelInit (L : Links ι α) (entry : ListHead ι α) : Links ι α :=
  (ListH.listDelInit L entry).getD L

end Links

open ListHead

/-- The list with sentinel `head i` holds exactly the objects `xs`, in order. -/
structure Ring {ι α : Type*} (L : Links ι α) (i : ι) (xs : List α) : Prop where
  forward : Walk L.next (head i) (xs.map entry) (head i)
  backward : Walk L.prev (head i) (xs.reverse.map entry) (head i)
  nodup : xs.Nodup

namespace Ring

variable {ι α : Type*}

theorem nodes_nodup {L : Links ι α} {i : ι} {xs : List α} (h : Ring L i xs) :
    ((head i : ListHead ι α) :: xs.map entry).Nodup := by
  refine List.nodup_cons.2 ⟨by simp, h.nodup.map fun a b hab => ?_⟩
  simpa using hab

/-- A ring only depends on the links of its own nodes. -/
theorem congr {L M : Links ι α} {i : ι} {xs : List α} (h : Ring L i xs)
    (hnext : ∀ y ∈ (head i : ListHead ι α) :: xs.map entry, M.next y = L.next y)
    (hprev : ∀ y ∈ (head i : ListHead ι α) :: xs.map entry, M.prev y = L.prev y) :
    Ring M i xs := by
  refine ⟨(walk_congr hnext).2 h.forward, (walk_congr fun y hy => hprev y ?_).2 h.backward,
    h.nodup⟩
  simpa using hy

theorem next_head {L : Links ι α} {i : ι} {xs : List α} (h : Ring L i xs) :
    L.next (head i) = some ((xs.map entry).headD (head i)) := by
  have hwalk : Walk L.next (head i) ([] ++ xs.map entry) (head i) := by simpa using h.forward
  exact walk_link_getLastD hwalk

theorem next_entry {L : Links ι α} {i : ι} {us vs : List α} {x : α}
    (h : Ring L i (us ++ x :: vs)) :
    L.next (entry x) = some ((vs.map entry).headD (head i)) := by
  have hwalk := h.forward
  rw [List.map_append, List.map_cons, walk_append_cons] at hwalk
  have hrest : Walk L.next (entry x) ([] ++ vs.map entry) (head i) := by simpa using hwalk.2
  exact walk_link_getLastD hrest

theorem headD_reverse_map {us : List α} {i : ι} :
    (us.reverse.map (entry : α → ListHead ι α)).headD (head i) =
      (us.map entry).getLastD (head i) := by
  rw [List.map_reverse, headD_reverse]

theorem getLastD_reverse_map {us : List α} {i : ι} :
    (us.reverse.map (entry : α → ListHead ι α)).getLastD (head i) =
      (us.map entry).headD (head i) := by
  rw [List.map_reverse, getLastD_reverse]

theorem prev_head {L : Links ι α} {i : ι} {xs : List α} (h : Ring L i xs) :
    L.prev (head i) = some ((xs.map entry).getLastD (head i)) := by
  have hwalk : Walk L.prev (head i) ([] ++ xs.reverse.map entry) (head i) := by
    simpa using h.backward
  rw [← headD_reverse_map]
  exact walk_link_getLastD hwalk

theorem prev_entry {L : Links ι α} {i : ι} {us vs : List α} {x : α}
    (h : Ring L i (us ++ x :: vs)) :
    L.prev (entry x) = some ((us.map entry).getLastD (head i)) := by
  have hwalk := h.backward
  rw [List.reverse_append, List.reverse_cons, List.append_assoc, List.singleton_append,
    List.map_append, List.map_cons, walk_append_cons] at hwalk
  have hrest : Walk L.prev (entry x) ([] ++ us.reverse.map entry) (head i) := by
    simpa using hwalk.2
  rw [← headD_reverse_map]
  exact walk_link_getLastD hrest

/-- The contents of a ring are determined by the links. -/
theorem unique {L : Links ι α} {i : ι} {xs ys : List α} (hx : Ring L i xs) (hy : Ring L i ys) :
    xs = ys := by
  have hmap := walk_unique hx.forward hy.forward (by simp) (by simp)
  exact List.map_injective_iff.2 (fun a b hab => by simpa using hab) hmap

variable [DecidableEq ι] [DecidableEq α]

theorem ofInit (L : Links ι α) (i : ι) : Ring (L.initListHead (head i)) i [] := by
  refine ⟨?_, ?_, List.nodup_nil⟩ <;> simp [Links.initListHead, Links.setNext, Links.setPrev]

theorem listAddTail_eq {L : Links ι α} {i : ι} {xs : List α} (h : Ring L i xs) (x : α) :
    L.listAddTail (entry x) (head i) =
      L.listAddBetween (entry x) ((xs.map entry).getLastD (head i)) (head i) := by
  simp only [Links.listAddTail, ListH.listAddTail, h.prev_head]
  rfl

/-- `list_add_tail` appends an object that is not yet in the list. -/
theorem listAddTail {L : Links ι α} {i : ι} {xs : List α} {x : α} (h : Ring L i xs)
    (hx : x ∉ xs) : Ring (L.listAddTail (entry x) (head i)) i (xs ++ [x]) := by
  have hxn : (entry x : ListHead ι α) ∉ (head i : ListHead ι α) :: xs.map entry := by simpa using hx
  rw [h.listAddTail_eq]
  refine ⟨?_, ?_, List.nodup_append.2 ⟨h.nodup, by simp, ?_⟩⟩
  · have hwalk := walk_splice (n := entry x) (l := xs.map entry) (m := [])
      (by simpa using h.forward) (by simpa using h.nodes_nodup) (by simpa using hx)
    simpa only [Links.listAddBetween, Links.setNext, Links.setPrev, List.map_append,
      List.map_cons, List.map_nil, List.headD_nil] using hwalk
  · have hwalk := walk_splice (f := L.prev) (a := head i) (b := head i) (n := entry x) (l := [])
      (m := xs.reverse.map entry) (by simpa using h.backward)
      (by simpa using h.nodes_nodup) (by simpa using hx)
    rw [headD_reverse_map, List.getLastD_nil, Function.update_comm (by simp)] at hwalk
    simpa only [Links.listAddBetween, Links.setNext, Links.setPrev, List.reverse_append,
      List.reverse_cons, List.reverse_nil, List.nil_append, List.singleton_append,
      List.map_cons] using hwalk
  · intro a ha b hb hab
    have hbx : b = x := by simpa using hb
    exact hx (hbx ▸ hab ▸ ha)

/-- `list_add_tail` changes no link outside the ring and the new entry. -/
theorem listAddTail_frame {L : Links ι α} {i : ι} {xs : List α} (h : Ring L i xs) {x : α}
    {y : ListHead ι α} (hy : y ∉ (head i : ListHead ι α) :: xs.map entry) (hyx : y ≠ entry x) :
    (L.listAddTail (entry x) (head i)).next y = L.next y ∧
      (L.listAddTail (entry x) (head i)).prev y = L.prev y := by
  have hlast : y ≠ (xs.map entry).getLastD (head i) := by
    intro he
    exact hy (he ▸ getLastD_mem_cons (head i) (xs.map entry))
  have hhead : y ≠ head i := fun he => hy (by simp [he])
  rw [h.listAddTail_eq]
  simp only [Links.listAddBetween, Links.setNext, Links.setPrev, Function.update_of_ne hlast,
    Function.update_of_ne hyx, Function.update_of_ne hhead, and_self]

theorem listDelInit_eq {L : Links ι α} {i : ι} {us vs : List α} {x : α}
    (h : Ring L i (us ++ x :: vs)) :
    L.listDelInit (entry x) =
      ((L.setPrev ((vs.map entry).headD (head i))
        (some ((us.map entry).getLastD (head i)))).setNext ((us.map entry).getLastD (head i))
          (some ((vs.map entry).headD (head i)))).initListHead (entry x) := by
  simp only [Links.listDelInit, ListH.listDelInit, h.prev_entry, h.next_entry]
  rfl

/-- `list_del_init` removes an object of the list and keeps the order of the others. -/
theorem listDelInit_append {L : Links ι α} {i : ι} {us vs : List α} {x : α}
    (h : Ring L i (us ++ x :: vs)) : Ring (L.listDelInit (entry x)) i (us ++ vs) := by
  have hnd : x ∉ us ++ vs ∧ (us ++ vs).Nodup := by
    have hmid := List.nodup_middle.1 h.nodup
    exact List.nodup_cons.1 hmid
  have hxu : x ∉ us := fun hu => hnd.1 (List.mem_append_left vs hu)
  have hxv : x ∉ vs := fun hv => hnd.1 (List.mem_append_right us hv)
  have hnodes := h.nodes_nodup
  rw [h.listDelInit_eq]
  refine ⟨?_, ?_, hnd.2⟩
  · have hwalk := walk_cut (l := us.map entry) (m := vs.map entry)
      (by simpa using h.forward) (by simpa using hnodes)
    have hx : (entry x : ListHead ι α) ∉
        (head i : ListHead ι α) :: (us.map entry ++ vs.map entry) := by
      simpa using ⟨hxu, hxv⟩
    simpa only [Links.initListHead, Links.setNext, Links.setPrev, List.map_append] using
      (walk_update_of_notMem _ _ hx).2 hwalk
  · have hwalk := walk_cut (f := L.prev) (a := head i) (b := head i) (n := entry x)
      (l := vs.reverse.map entry) (m := us.reverse.map entry)
      (by simpa using h.backward) (by
        have hrev := hnodes
        rw [← List.nodup_reverse] at hrev
        simp only [List.map_append, List.map_cons, List.nodup_cons, List.nodup_append,
          List.nodup_reverse, List.map_reverse, List.mem_append, List.mem_cons,
          List.mem_reverse] at hnodes ⊢
        grind)
    have hx : (entry x : ListHead ι α) ∉
        (head i : ListHead ι α) :: (vs.reverse.map entry ++ us.reverse.map entry) := by
      simpa using ⟨hxv, hxu⟩
    rw [headD_reverse_map, getLastD_reverse_map] at hwalk
    simpa only [Links.initListHead, Links.setNext, Links.setPrev, List.reverse_append,
      List.map_append] using (walk_update_of_notMem _ _ hx).2 hwalk

theorem listDelInit {L : Links ι α} {i : ι} {xs : List α} {x : α} (h : Ring L i xs)
    (hx : x ∈ xs) : Ring (L.listDelInit (entry x)) i (xs.erase x) := by
  obtain ⟨us, vs, rfl⟩ := List.append_of_mem hx
  have hxu : x ∉ us := by
    intro hu
    have hmid := List.nodup_cons.1 (List.nodup_middle.1 h.nodup)
    exact hmid.1 (List.mem_append_left vs hu)
  rw [List.erase_append_right _ hxu, List.erase_cons_head]
  exact h.listDelInit_append

/-- `list_del_init` changes no link outside the ring of the deleted entry. -/
theorem listDelInit_frame {L : Links ι α} {i : ι} {xs : List α} {x : α} (h : Ring L i xs)
    (hx : x ∈ xs) {y : ListHead ι α} (hy : y ∉ (head i : ListHead ι α) :: xs.map entry) :
    (L.listDelInit (entry x)).next y = L.next y ∧ (L.listDelInit (entry x)).prev y = L.prev y := by
  obtain ⟨us, vs, rfl⟩ := List.append_of_mem hx
  have hlast : y ≠ (us.map entry).getLastD (head i) := by
    intro he
    have hmem := getLastD_mem_cons (head i : ListHead ι α) (us.map entry)
    rw [← he] at hmem
    apply hy
    simp only [List.mem_cons, List.map_append, List.mem_append] at hmem ⊢
    tauto
  have hfirst : y ≠ (vs.map entry).headD (head i) := by
    intro he
    apply hy
    cases vs with
    | nil => simp [he]
    | cons v vs => simp [he]
  have hyx : y ≠ entry x := fun he => hy (by simp [he])
  rw [h.listDelInit_eq]
  simp only [Links.initListHead, Links.setNext, Links.setPrev, Function.update_of_ne hlast,
    Function.update_of_ne hyx, Function.update_of_ne hfirst, and_self]

/-- An entry deleted with `list_del_init` is linked to itself. -/
theorem listDelInit_self {L : Links ι α} {i : ι} {xs : List α} {x : α} (h : Ring L i xs)
    (hx : x ∈ xs) : (L.listDelInit (entry x)).next (entry x) = some (entry x) := by
  obtain ⟨us, vs, rfl⟩ := List.append_of_mem hx
  rw [h.listDelInit_eq]
  simp [Links.initListHead, Links.setNext, Links.setPrev]

end Ring

end Miscellany
