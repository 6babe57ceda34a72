import Mathlib.Data.List.Chain
import Miscellany.Library.IntrusiveList

/-!
# Relinking chains of doubly linked nodes

Two nodes are linked when each has the other as its neighbour. A doubly linked list is a chain of
linked nodes, and everything that is done with such lists links one node to another
(`Links.link`). This breaks a chain only where the first node is left or the second one is entered,
so that a chain is spliced into another one by two links and a part is cut out by one link.
-/

namespace Miscellany

open ListHead

variable {ι α : Type*}

/-- A chain that depends on the nodes it leaves and on the nodes it enters only. -/
theorem isChain_imp_of_mem {ν : Type*} {R S : ν → ν → Prop} {l : List ν} (h : l.IsChain R)
    (himp : ∀ a ∈ l.dropLast, ∀ b ∈ l.tail, R a b → S a b) : l.IsChain S := by
  rw [List.isChain_iff_forall_rel_of_append_cons_cons] at h ⊢
  intro a b l₁ l₂ hl
  refine himp a ?_ b ?_ (h hl)
  · rw [hl, List.dropLast_append_of_ne_nil (List.cons_ne_nil _ _)]
    simp
  · rw [hl]
    cases l₁ <;> simp

/-- The sentinel, the objects and the sentinel again. -/
def closed (i : ι) (xs : List α) : List (ListHead ι α) := head i :: (xs.map entry ++ [head i])

theorem closed_append (i : ι) (us vs : List α) :
    closed i (us ++ vs) = (head i :: us.map entry) ++ (vs.map entry ++ [head i]) := by
  simp [closed]

@[simp] theorem dropLast_closed (i : ι) (xs : List α) :
    (closed i xs).dropLast = head i :: xs.map entry := by
  rw [closed, ← List.cons_append, List.dropLast_concat]

@[simp] theorem tail_closed (i : ι) (xs : List α) : (closed i xs).tail = xs.map entry ++ [head i] :=
  rfl

namespace Links

variable {L : Links ι α} {x y u v : ListHead ι α}

/-- Neighbours. -/
def Linked (L : Links ι α) (x y : ListHead ι α) : Prop := L.next x = some y ∧ L.prev y = some x

variable [DecidableEq ι] [DecidableEq α]

/-- Linking two nodes. -/
def link (L : Links ι α) (x y : ListHead ι α) : Links ι α :=
  (L.setPrev y (some x)).setNext x (some y)

theorem linked_link (L : Links ι α) (x y : ListHead ι α) : (L.link x y).Linked x y :=
  ⟨Function.update_self _ _ _, Function.update_self _ _ _⟩

theorem Linked.link (h : L.Linked u v) (hu : u ≠ x) (hv : v ≠ y) : (L.link x y).Linked u v :=
  ⟨(Function.update_of_ne hu _ _).trans h.1, (Function.update_of_ne hv _ _).trans h.2⟩

/-- Different nodes are linked in any order. -/
theorem link_comm (hxu : x ≠ u) (hyv : y ≠ v) (L : Links ι α) :
    (L.link x y).link u v = (L.link u v).link x y := by
  simp only [Links.link, setNext, setPrev, Links.mk.injEq]
  exact ⟨Function.update_comm hxu _ _ _, Function.update_comm hyv _ _ _⟩

/-- What is linked elsewhere keeps its links. -/
theorem isChain_link {l : List (ListHead ι α)} (h : l.IsChain L.Linked) (hx : x ∉ l.dropLast)
    (hy : y ∉ l.tail) : l.IsChain (L.link x y).Linked :=
  isChain_imp_of_mem h fun _ ha _ hb hab =>
    hab.link (fun he => hx (he ▸ ha)) (fun he => hy (he ▸ hb))

variable {A N B : List (ListHead ι α)} {p f q l : ListHead ι α}

/-- Linking the end of a chain to the begin of a chain. -/
theorem isChain_join (hA : A.IsChain L.Linked) (hB : B.IsChain L.Linked)
    (hsource : (A ++ B.dropLast).Nodup) (htarget : (A.tail ++ B).Nodup) (hp : p ∈ A.getLast?)
    (hq : q ∈ B.head?) : (A ++ B).IsChain (L.link p q).Linked := by
  obtain ⟨A, rfl⟩ := List.getLast?_eq_some_iff.1 hp
  obtain ⟨B, rfl⟩ := List.head?_eq_some_iff.1 hq
  have hleft : p ∉ A ∧ p ∉ (q :: B).dropLast := by
    rw [List.append_assoc, List.singleton_append, List.nodup_middle, List.nodup_cons,
      List.mem_append, not_or] at hsource
    exact hsource.1
  have hright : q ∉ (A ++ [p]).tail ∧ q ∉ B := by
    rw [List.nodup_middle, List.nodup_cons, List.mem_append, not_or] at htarget
    exact htarget.1
  refine (isChain_link hA ?_ hright.1).append (isChain_link hB hleft.2 hright.2)
    fun a ha b hb => ?_
  · rw [List.dropLast_concat]
    exact hleft.1
  · rw [List.getLast?_concat] at ha
    cases ha
    cases hb
    exact linked_link L p q

/-- Splicing a chain between two chains. -/
theorem isChain_splice (hA : A.IsChain L.Linked) (hN : N.IsChain L.Linked)
    (hB : B.IsChain L.Linked) (hsource : (A ++ (N ++ B.dropLast)).Nodup)
    (htarget : (A.tail ++ (N ++ B)).Nodup) (hp : p ∈ A.getLast?) (hf : f ∈ N.head?)
    (hl : l ∈ N.getLast?) (hq : q ∈ B.head?) :
    (A ++ (N ++ B)).IsChain ((L.link l q).link p f).Linked := by
  obtain ⟨-, hsourceN, hsource'⟩ := List.nodup_append.1 hsource
  obtain ⟨-, htargetN, htarget'⟩ := List.nodup_append.1 htarget
  have hlN : l ∈ N ++ B.dropLast := List.mem_append_left _ (List.mem_of_getLast? hl)
  have hqB : q ∈ N ++ B := List.mem_append_right _ (List.mem_of_head? hq)
  have hrest : (N ++ B).IsChain (L.link l q).Linked :=
    isChain_join hN hB hsourceN (htargetN.sublist ((List.tail_sublist N).append_right B)) hl hq
  have hfirst : A.IsChain (L.link l q).Linked :=
    isChain_link hA (fun h => hsource' l (List.dropLast_subset A h) l hlN rfl)
      fun h => htarget' q h q hqB rfl
  have hB0 : B ≠ [] := List.ne_nil_of_mem (List.mem_of_head? hq)
  refine isChain_join hfirst hrest ?_ htarget hp ?_
  · rwa [List.dropLast_append_of_ne_nil hB0]
  · rw [List.head?_append, hf]
    rfl

end Links

/-! ### Rings -/

namespace Ring

variable {L : Links ι α} {i : ι} {xs : List α}

theorem nodup_ahead (h : xs.Nodup) : ((head i : ListHead ι α) :: xs.map entry).Nodup := by
  refine List.nodup_cons.2 ⟨by simp, h.map fun a b hab => ?_⟩
  simpa using hab

theorem nodup_behind (h : xs.Nodup) : (xs.map entry ++ [(head i : ListHead ι α)]).Nodup := by
  rw [List.nodup_append_comm]
  exact nodup_ahead h

theorem walk_iff_isChain {ν : Type*} {f : ν → Option ν} {a b : ν} {l : List ν} :
    Walk f a l b ↔ (a :: (l ++ [b])).IsChain fun x y => f x = some y := by
  induction l generalizing a with
  | nil => simp
  | cons x l ih => simp [ih]

/-- A ring is a closed chain. -/
theorem iff_isChain : Ring L i xs ↔ (closed i xs).IsChain L.Linked ∧ xs.Nodup := by
  have hreverse : (closed i xs).reverse = head i :: (xs.reverse.map entry ++ [head i]) := by
    simp [closed]
  have hback : Walk L.prev (head i) (xs.reverse.map entry) (head i) ↔
      (closed i xs).IsChain fun x y => L.prev y = some x := by
    rw [walk_iff_isChain, ← hreverse, List.isChain_reverse]
  have hforth : Walk L.next (head i) (xs.map entry) (head i) ↔
      (closed i xs).IsChain fun x y => L.next x = some y := walk_iff_isChain
  constructor
  · intro h
    refine ⟨?_, h.nodup⟩
    have hnext := hforth.1 h.forward
    have hprev := hback.1 h.backward
    rw [List.isChain_iff_forall_rel_of_append_cons_cons] at hnext hprev ⊢
    exact fun _ _ _ _ hl => ⟨hnext hl, hprev hl⟩
  · rintro ⟨hchain, hnodup⟩
    exact ⟨hforth.2 (hchain.imp fun _ _ h => h.1), hback.2 (hchain.imp fun _ _ h => h.2), hnodup⟩

/-- Linking nodes outside of a ring. -/
theorem link [DecidableEq ι] [DecidableEq α] (h : Ring L i xs) {p q : ListHead ι α}
    (hp : p ∉ (head i :: xs.map entry : List (ListHead ι α)))
    (hq : q ∉ (head i :: xs.map entry : List (ListHead ι α))) : Ring (L.link p q) i xs := by
  obtain ⟨hchain, hnodup⟩ := iff_isChain.1 h
  refine iff_isChain.2 ⟨Links.isChain_link hchain ?_ ?_, hnodup⟩
  · rwa [dropLast_closed]
  · rwa [tail_closed, List.mem_append, List.mem_singleton, or_comm, ← List.mem_cons]

end Ring

end Miscellany
