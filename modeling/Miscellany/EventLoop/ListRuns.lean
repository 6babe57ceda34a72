import Miscellany.EventLoop.ListOperations

/-!
# Runs of list operations

Every operation of `list.h` that is allowed keeps the links those of the lists (`Holds.exec`). An
object is put into a list by `Holds.insert` and taken out of it by `Holds.cut`, which the other
operations are composed of.
-/

namespace Miscellany

open ListHead

namespace ListH

variable {ι α : Type*} {L M : Links ι α} {S : Lists ι α} {i j : ι} {xs us vs : List α}
  {a x : α} {pos : ListHead ι α}

/-! ### Links -/

theorem exists_head (vs : List α) (i : ι) :
    ∃ q, q ∈ (vs.map entry ++ [(head i : ListHead ι α)]).head? :=
  Option.ne_none_iff_exists'.1 fun h => by simp at h

theorem exists_last (us : List α) (i : ι) :
    ∃ p, p ∈ ((head i : ListHead ι α) :: us.map entry).getLast? :=
  Option.ne_none_iff_exists'.1 fun h => by simp at h

/-- The nodes around a place are linked. -/
theorem Holds.linked (h : Holds L S) (hi : S.contents i = some (us ++ vs)) {p q : ListHead ι α}
    (hp : p ∈ (head i :: us.map entry).getLast?) (hq : q ∈ (vs.map entry ++ [head i]).head?) :
    L.Linked p q := by
  have hchain := (Ring.iff_isChain.1 (h.ring i _ hi)).1
  rw [closed_append] at hchain
  exact (List.isChain_append.1 hchain).2.2 p hp q hq

/-- The node is in no list of another sentinel. -/
def Outside (S : Lists ι α) (i : ι) (p : ListHead ι α) : Prop :=
  ∀ j ys, S.contents j = some ys → j ≠ i → p ∉ (head j :: ys.map entry : List (ListHead ι α))

theorem Holds.outside (h : Holds L S) (hi : S.contents i = some xs) {p : ListHead ι α}
    (hp : p ∈ (head i :: xs.map entry : List (ListHead ι α))) : Outside S i p := by
  intro j ys hj hji hp'
  cases p with
  | head k =>
      simp only [List.mem_cons, ListHead.head.injEq, List.mem_map, reduceCtorEq, and_false,
        exists_false, or_false] at hp hp'
      exact hji (hp'.symm.trans hp)
  | entry b =>
      simp only [List.mem_cons, List.mem_map, ListHead.entry.injEq, exists_eq_right, reduceCtorEq,
        false_or] at hp hp'
      exact hji (h.unique b j i ys xs hj hi hp' hp)

theorem outside_of_not_mem (ha : ¬ S.Mem a) (i : ι) : Outside S i (entry a) := by
  intro j ys hj _ hmem
  simp only [List.mem_cons, List.mem_map, ListHead.entry.injEq, exists_eq_right, reduceCtorEq,
    false_or] at hmem
  exact ha ⟨j, ys, hj, hmem⟩

/-- A node that is in a list or a sentinel is not idle. -/
theorem Holds.entry_ne_of_idle (h : Holds L S) (hi : S.contents i = some xs) {p : ListHead ι α}
    (hp : p ∈ (head i :: xs.map entry : List (ListHead ι α))) (ha : a ∈ S.idle) : entry a ≠ p := by
  rintro rfl
  simp only [List.mem_cons, List.mem_map, ListHead.entry.injEq, exists_eq_right, reduceCtorEq,
    false_or] at hp
  exact (h.idle a ha).1 ⟨i, xs, hi, hp⟩

/-- The node is no node of the lists. -/
def Free (S : Lists ι α) (y : ListHead ι α) : Prop :=
  (∀ j ys, S.contents j = some ys → y ∉ (head j :: ys.map entry : List (ListHead ι α))) ∧
    ∀ a ∈ S.idle, y ≠ entry a

theorem free_entry (ha : ¬ S.Mem a) (hidle : a ∉ S.idle) : Free S (entry a) := by
  refine ⟨fun j ys hj hmem => ha ⟨j, ys, hj, ?_⟩, fun b hb he => ?_⟩
  · simpa using hmem
  · cases he
    exact hidle hb

/-- The links of other nodes do not matter. -/
theorem Holds.congr {y : ListHead ι α} (h : Holds L S) (hy : Free S y)
    (hnext : ∀ u ≠ y, M.next u = L.next u) (hprev : ∀ u ≠ y, M.prev u = L.prev u) :
    Holds M S := by
  refine ⟨fun j ys hj => (h.ring j ys hj).congr ?_ ?_, h.unique, fun a ha => ⟨(h.idle a ha).1, ?_⟩⟩
  · exact fun u hu => hnext u fun he => hy.1 j ys hj (he ▸ hu)
  · exact fun u hu => hprev u fun he => hy.1 j ys hj (he ▸ hu)
  · have hne := (hy.2 a ha).symm
    exact ⟨(hnext _ hne).trans (h.idle a ha).2.1, (hprev _ hne).trans (h.idle a ha).2.2⟩

theorem holds_none (L : Links ι α) : Holds L Lists.none := by
  refine ⟨fun i xs h => ?_, fun a i j xs ys h => ?_, fun a h => ?_⟩
  · cases h
  · cases h
  · cases h

variable [DecidableEq ι]

theorem Unique.update {c : ι → Option (List α)} (h : Unique c) {zs : List α}
    (hzs : ∀ a ∈ zs, ∀ j ys, c j = some ys → j ≠ i → a ∉ ys) :
    Unique (Function.update c i (some zs)) := by
  intro a j k xs ys hj hk hx hy
  by_cases hji : j = i <;> by_cases hki : k = i
  · exact hji.trans hki.symm
  · rw [hji, Function.update_self] at hj
    rw [Function.update_of_ne hki] at hk
    cases hj
    exact absurd hy (hzs a hx k ys hk hki)
  · rw [hki, Function.update_self] at hk
    rw [Function.update_of_ne hji] at hj
    cases hk
    exact absurd hx (hzs a hy j xs hj hji)
  · rw [Function.update_of_ne hji] at hj
    rw [Function.update_of_ne hki] at hk
    exact h a j k xs ys hj hk hx hy

theorem mem_or_mem_of_update {zs : List α} {I : Set α}
    (h : (⟨Function.update S.contents i (some zs), I⟩ : Lists ι α).Mem a) : a ∈ zs ∨ S.Mem a := by
  obtain ⟨j, ys, hj, hy⟩ := h
  dsimp only at hj
  by_cases hji : j = i
  · rw [hji, Function.update_self] at hj
    cases hj
    exact Or.inl hy
  · rw [Function.update_of_ne hji] at hj
    exact Or.inr ⟨j, ys, hj, hy⟩

theorem Holds.forget (h : Holds L S) (i : ι) : Holds L (S.forget i) := by
  have hsub : ∀ j xs, (S.forget i).contents j = some xs → j ≠ i ∧ S.contents j = some xs := by
    intro j xs hj
    rw [Lists.forget] at hj
    dsimp only at hj
    by_cases hji : j = i
    · rw [hji, Function.update_self] at hj
      cases hj
    · rw [Function.update_of_ne hji] at hj
      exact ⟨hji, hj⟩
  refine ⟨fun j xs hj => h.ring j xs (hsub j xs hj).2, fun a j k xs ys hj hk =>
    h.unique a j k xs ys (hsub j xs hj).2 (hsub k ys hk).2, fun a ha => ⟨?_, (h.idle a ha).2⟩⟩
  rintro ⟨j, ys, hj, hy⟩
  exact (h.idle a ha).1 ⟨j, ys, (hsub j ys hj).2, hy⟩

variable [DecidableEq α]

/-! ### Places -/

theorem flatMap_of_ne {f : α → List α} (h : ∀ b ∈ xs, pos ≠ entry b) :
    (xs.flatMap fun b => if pos = entry b then f b else [b]) = xs := by
  rw [List.flatMap_congr (g := fun b => [b]) fun b hb => if_neg (h b hb)]
  exact List.flatMap_singleton' xs

theorem flatMap_split {f : α → List α} {b : α} (h : (us ++ b :: vs).Nodup) :
    ((us ++ b :: vs).flatMap fun c => if (entry b : ListHead ι α) = entry c then f c else [c]) =
      us ++ (f b ++ vs) := by
  rw [List.nodup_middle, List.nodup_cons, List.mem_append, not_or] at h
  have hus : ∀ c ∈ us, (entry b : ListHead ι α) ≠ entry c := fun c hc he => by
    cases he
    exact h.1.1 hc
  have hvs : ∀ c ∈ vs, (entry b : ListHead ι α) ≠ entry c := fun c hc he => by
    cases he
    exact h.1.2 hc
  rw [List.flatMap_append, List.flatMap_cons, flatMap_of_ne hus, flatMap_of_ne hvs, if_pos rfl]

/-- Other lists are not changed. -/
theorem edit_of_ne {f : List α → List α} {g : α → List α} (hhead : pos ≠ head i)
    (hentry : ∀ xs, S.contents i = some xs → ∀ b ∈ xs, pos ≠ entry b) :
    S.edit pos f g i = S.contents i := by
  rw [Lists.edit]
  cases hi : S.contents i with
  | none => rfl
  | some xs => rw [Option.map_some, if_neg hhead, flatMap_of_ne (hentry xs hi)]

theorem edit_head {f : List α → List α} {g : α → List α} (hi : S.contents i = some xs) :
    S.edit (head i) f g = Function.update S.contents i (some (f xs)) := by
  funext j
  by_cases hji : j = i
  · subst hji
    rw [Lists.edit, hi, Option.map_some, if_pos rfl, Function.update_self]
  · rw [Function.update_of_ne hji]
    exact edit_of_ne (fun he => hji (by cases he; rfl)) fun _ _ _ _ => by simp

theorem Holds.edit_entry (h : Holds L S) {f : List α → List α} {g : α → List α} {b : α}
    (hi : S.contents i = some (us ++ b :: vs)) :
    S.edit (entry b) f g = Function.update S.contents i (some (us ++ (g b ++ vs))) := by
  funext j
  by_cases hji : j = i
  · subst hji
    rw [Lists.edit, hi, Option.map_some, if_neg (by simp), flatMap_split (h.ring _ _ hi).nodup,
      Function.update_self]
  · rw [Function.update_of_ne hji]
    refine edit_of_ne (by simp) fun xs hj c hc he => ?_
    cases he
    exact hji (h.unique b j i _ _ hj hi hc (by simp))

/-- What is put behind a place. -/
theorem Holds.exists_after (h : Holds L S) (hpos : S.IsPlace pos) :
    ∃ i us vs, S.contents i = some (us ++ vs) ∧ pos ∈ (head i :: us.map entry).getLast? ∧
      ∀ ys, (S.insertAfter pos ys).contents =
        Function.update S.contents i (some (us ++ (ys ++ vs))) := by
  cases pos with
  | head i =>
      obtain ⟨xs, hi⟩ := Option.ne_none_iff_exists'.1 hpos
      exact ⟨i, [], xs, hi, by simp, fun ys => edit_head hi⟩
  | entry b =>
      obtain ⟨i, xs, hi, hb⟩ := hpos
      obtain ⟨us, vs, rfl⟩ := List.append_of_mem hb
      have hlast : (head i :: (us ++ [b]).map entry).getLast? = some (entry b : ListHead ι α) := by
        rw [List.map_append, ← List.cons_append]
        exact List.getLast?_concat
      refine ⟨i, us ++ [b], vs, by simpa using hi, hlast, fun ys => ?_⟩
      rw [List.append_assoc]
      exact h.edit_entry hi

/-- What is put in front of a place. -/
theorem Holds.exists_before (h : Holds L S) (hpos : S.IsPlace pos) :
    ∃ i us vs, S.contents i = some (us ++ vs) ∧ pos ∈ (vs.map entry ++ [head i]).head? ∧
      ∀ ys, (S.insertBefore pos ys).contents =
        Function.update S.contents i (some (us ++ (ys ++ vs))) := by
  cases pos with
  | head i =>
      obtain ⟨xs, hi⟩ := Option.ne_none_iff_exists'.1 hpos
      refine ⟨i, xs, [], by simpa using hi, by simp, fun ys => ?_⟩
      rw [List.append_nil]
      exact edit_head hi
  | entry b =>
      obtain ⟨i, xs, hi, hb⟩ := hpos
      obtain ⟨us, vs, rfl⟩ := List.append_of_mem hb
      refine ⟨i, us, b :: vs, hi, by simp, fun ys => (h.edit_entry hi).trans ?_⟩
      rw [List.append_assoc, List.singleton_append]

/-! ### Putting in and taking out -/

/-- Splicing a chain of objects into a list. -/
theorem Holds.insert (h : Holds L S) (hi : S.contents i = some (us ++ vs)) {p q f l : ListHead ι α}
    (hp : p ∈ (head i :: us.map entry).getLast?) (hq : q ∈ (vs.map entry ++ [head i]).head?)
    {ns : List α} (hchain : (ns.map entry).IsChain L.Linked) (hfresh : ∀ a ∈ ns, ¬ S.Mem a)
    (hnodup : ns.Nodup) (hf : f ∈ (ns.map entry).head?) (hl : l ∈ (ns.map entry).getLast?) :
    Holds ((L.link l q).link p f)
      ⟨Function.update S.contents i (some (us ++ (ns ++ vs))), {a ∈ S.idle | a ∉ ns}⟩ := by
  have hring := Ring.iff_isChain.1 (h.ring i _ hi)
  have hmem : ∀ a ∈ us ++ vs, a ∉ ns := fun a ha ha' => hfresh a ha' ⟨i, _, hi, ha⟩
  have hall : (us ++ (ns ++ vs)).Nodup := by
    have hperm : (us ++ (ns ++ vs)).Perm (ns ++ (us ++ vs)) := List.perm_append_comm_assoc _ _ _
    rw [hperm.nodup_iff, List.nodup_append]
    exact ⟨hnodup, hring.2, fun a ha b hb hab => hmem b hb (hab ▸ ha)⟩
  have hpnode : p ∈ (head i :: (us ++ vs).map entry : List (ListHead ι α)) := by
    have hp' := List.mem_of_getLast? hp
    rw [List.map_append, ← List.cons_append]
    exact List.mem_append_left _ hp'
  have hqnode : q ∈ (head i :: (us ++ vs).map entry : List (ListHead ι α)) := by
    have hq' := List.mem_of_head? hq
    simp only [List.mem_append, List.mem_cons, List.map_append] at hq' ⊢
    tauto
  obtain ⟨f, hfns, rfl⟩ := List.mem_map.1 (List.mem_of_head? hf)
  obtain ⟨l, hlns, rfl⟩ := List.mem_map.1 (List.mem_of_getLast? hl)
  refine ⟨fun j ys hj => ?_, h.unique.update fun a ha j ys hj hji hay => ?_,
    fun a ⟨ha, hans⟩ => ⟨fun hmem' => ?_, ?_⟩⟩
  · by_cases hji : j = i
    · subst hji
      dsimp only at hj
      rw [Function.update_self] at hj
      cases hj
      rw [closed_append] at hring
      obtain ⟨hA, hB, -⟩ := List.isChain_append.1 hring.1
      have hclosed : (closed j (us ++ (ns ++ vs)) : List (ListHead ι α)) =
          (head j :: us.map entry) ++ (ns.map entry ++ (vs.map entry ++ [head j])) := by
        simp [closed]
      refine Ring.iff_isChain.2 ⟨?_, hall⟩
      rw [hclosed]
      refine Links.isChain_splice hA hchain hB ?_ ?_ hp hf hl hq
      · have hahead := Ring.nodup_ahead (i := j) hall
        simpa using hahead
      · have hbehind := Ring.nodup_behind (i := j) hall
        simpa using hbehind
    · dsimp only at hj
      rw [Function.update_of_ne hji] at hj
      have hout := outside_of_not_mem (hfresh f hfns) i j ys hj hji
      have hout' := outside_of_not_mem (hfresh l hlns) i j ys hj hji
      exact ((h.ring j ys hj).link hout' (h.outside hi hqnode j ys hj hji)).link
        (h.outside hi hpnode j ys hj hji) hout
  · rw [List.mem_append, List.mem_append, or_left_comm, ← List.mem_append] at ha
    rcases ha with ha | ha
    · exact hfresh a ha ⟨j, ys, hj, hay⟩
    · exact hji (h.unique a j i ys _ hj hi hay ha)
  · rcases mem_or_mem_of_update hmem' with ha' | ha'
    · rw [List.mem_append, List.mem_append, or_left_comm, ← List.mem_append] at ha'
      exact (h.idle a ha).1 ⟨i, _, hi, ha'.resolve_left hans⟩
    · exact (h.idle a ha).1 ha'
  · have hne : ∀ b ∈ ns, (entry a : ListHead ι α) ≠ entry b := fun b hb he => by
      cases he
      exact hans hb
    exact ((h.idle a ha).2.link (hne l hlns) (h.entry_ne_of_idle hi hqnode ha)).link
      (h.entry_ne_of_idle hi hpnode ha) (hne f hfns)

/-- Taking an object out of a list. -/
theorem Holds.cut (h : Holds L S) (hi : S.contents i = some (us ++ x :: vs)) {p q : ListHead ι α}
    (hp : p ∈ (head i :: us.map entry).getLast?) (hq : q ∈ (vs.map entry ++ [head i]).head?) :
    Holds (L.link p q) ⟨Function.update S.contents i (some (us ++ vs)), S.idle⟩ := by
  have hring := Ring.iff_isChain.1 (h.ring i _ hi)
  have hsub : (us ++ vs).Sublist (us ++ x :: vs) := (List.sublist_cons_self x vs).append_left us
  have hnodup := hring.2.sublist hsub
  have hpnode : p ∈ (head i :: (us ++ x :: vs).map entry : List (ListHead ι α)) := by
    have hp' := List.mem_of_getLast? hp
    rw [List.map_append, ← List.cons_append]
    exact List.mem_append_left _ hp'
  have hqnode : q ∈ (head i :: (us ++ x :: vs).map entry : List (ListHead ι α)) := by
    have hq' := List.mem_of_head? hq
    simp only [List.mem_append, List.mem_cons, List.map_append, List.map_cons] at hq' ⊢
    tauto
  refine ⟨fun j ys hj => ?_, h.unique.update fun a ha j ys hj hji hay => ?_,
    fun a ha => ⟨fun hmem => ?_, ?_⟩⟩
  · by_cases hji : j = i
    · subst hji
      dsimp only at hj
      rw [Function.update_self] at hj
      cases hj
      rw [closed_append] at hring
      obtain ⟨hA, hB, -⟩ := List.isChain_append.1 hring.1
      refine Ring.iff_isChain.2 ⟨?_, hnodup⟩
      rw [closed_append]
      refine Links.isChain_join hA (hB.tail) ?_ ?_ hp hq
      · have hahead := Ring.nodup_ahead (i := j) hnodup
        simpa using hahead
      · have hbehind := Ring.nodup_behind (i := j) hnodup
        simpa using hbehind
    · dsimp only at hj
      rw [Function.update_of_ne hji] at hj
      have hout := h.outside hi hqnode j ys hj hji
      exact (h.ring j ys hj).link (h.outside hi hpnode j ys hj hji) hout
  · exact hji (h.unique a j i ys _ hj hi hay (hsub.subset ha))
  · rcases mem_or_mem_of_update hmem with ha' | ha'
    · exact (h.idle a ha).1 ⟨i, _, hi, hsub.subset ha'⟩
    · exact (h.idle a ha).1 ha'
  · exact (h.idle a ha).2.link (h.entry_ne_of_idle hi hpnode ha) (h.entry_ne_of_idle hi hqnode ha)

/-- Where an object of a list is. -/
theorem Holds.exists_neighbours (h : Holds L S) (hx : S.Mem x) :
    ∃ p q, L.prev (entry x) = some p ∧ L.next (entry x) = some q ∧
      Holds (L.link p q) (S.remove x) ∧ ¬ (S.remove x).Mem x := by
  obtain ⟨i, xs, hi, hmem⟩ := hx
  obtain ⟨us, vs, rfl⟩ := List.append_of_mem hmem
  obtain ⟨p, hp⟩ := exists_last us i
  obtain ⟨q, hq⟩ := exists_head vs i
  have hnodup := (h.ring i _ hi).nodup
  rw [List.nodup_middle, List.nodup_cons] at hnodup
  have hcontents : (S.remove x).contents = Function.update S.contents i (some (us ++ vs)) := by
    funext j
    by_cases hji : j = i
    · subst hji
      have hxu : x ∉ us := fun hu => hnodup.1 (List.mem_append_left vs hu)
      rw [Function.update_self, Lists.contents_remove, hi, Option.map_some,
        List.erase_append_right _ hxu, List.erase_cons_head]
    · rw [Function.update_of_ne hji, Lists.contents_remove]
      cases hj : S.contents j with
      | none => rfl
      | some ys =>
          rw [Option.map_some, List.erase_of_not_mem]
          exact fun hy => hji (h.unique x j i ys _ hj hi hy hmem)
  have hremove : S.remove x = ⟨Function.update S.contents i (some (us ++ vs)), S.idle⟩ := by
    rw [← hcontents]
    rfl
  have hprev := h.linked hi hp (q := entry x) (by simp)
  have hnext : L.Linked (entry x) q := by
    have hi' : S.contents i = some ((us ++ [x]) ++ vs) := by simpa using hi
    refine h.linked hi' ?_ hq
    rw [List.map_append, ← List.cons_append]
    exact List.getLast?_concat
  refine ⟨p, q, hprev.2, hnext.1, ?_, ?_⟩
  · rw [hremove]
    exact h.cut hi hp hq
  · rw [hremove]
    intro hmem'
    obtain ⟨j, ys, hj, hy⟩ := hmem'
    dsimp only at hj
    by_cases hji : j = i
    · rw [hji, Function.update_self] at hj
      cases hj
      exact hnodup.1 hy
    · rw [Function.update_of_ne hji] at hj
      exact hji (h.unique x j i ys _ hj hi hy hmem)

/-! ### Operations -/

/-- A sentinel is initialised. -/
theorem Holds.initHead (h : Holds L S) (i : ι) :
    Holds (L.initListHead (head i)) (S.start i) := by
  have hfree : Free (S.forget i) (head i) := by
    refine ⟨fun j ys hj hmem => ?_, fun a _ he => by cases he⟩
    have hji : i = j := by simpa using hmem
    rw [← hji, Lists.forget] at hj
    dsimp only at hj
    rw [Function.update_self] at hj
    cases hj
  have hforget : Holds (L.initListHead (head i)) (S.forget i) :=
    (h.forget i).congr hfree (fun _ hu => Function.update_of_ne hu _ _)
      fun _ hu => Function.update_of_ne hu _ _
  have hcontents : (S.start i).contents =
      Function.update (S.forget i).contents i (some []) :=
    (Function.update_idem _ _ _).symm
  refine ⟨fun j ys hj => ?_, ?_, fun a ha => ⟨?_, (hforget.idle a ha).2⟩⟩
  · by_cases hji : j = i
    · subst hji
      rw [hcontents, Function.update_self] at hj
      cases hj
      exact Ring.ofInit L j
    · rw [hcontents, Function.update_of_ne hji] at hj
      exact hforget.ring j ys hj
  · rw [hcontents]
    exact hforget.unique.update fun _ ha => by cases ha
  · intro hmem
    obtain ⟨j, ys, hj, hy⟩ := hmem
    rw [hcontents] at hj
    have hmem' : Lists.Mem ⟨Function.update (S.forget i).contents i (some []), S.idle⟩ a :=
      ⟨j, ys, hj, hy⟩
    exact (hforget.idle a ha).1 ((mem_or_mem_of_update hmem').resolve_left (List.not_mem_nil))

/-- An object that is in no list is initialised. -/
theorem Holds.initEntry (h : Holds L S) (ha : ¬ S.Mem a) :
    Holds (L.initListHead (entry a)) (S.rest a) := by
  have hout : Holds (L.initListHead (entry a)) { S with idle := S.idle \ {a} } := by
    have hless : Holds L { S with idle := S.idle \ {a} } :=
      ⟨h.ring, h.unique, fun b hb => h.idle b hb.1⟩
    exact hless.congr (free_entry ha fun hmem => hmem.2 rfl)
      (fun _ hu => Function.update_of_ne hu _ _) fun _ hu => Function.update_of_ne hu _ _
  refine ⟨hout.ring, hout.unique, fun b hb => ?_⟩
  by_cases hba : b = a
  · subst hba
    exact ⟨ha, Links.linked_link _ _ _⟩
  · exact hout.idle b ⟨hb.resolve_left hba, hba⟩

/-- `list_add`. -/
theorem Holds.add (h : Holds L S) (ha : ¬ S.Mem a) (hpos : S.IsPlace pos) :
    ∃ M, listAdd L (entry a) pos = some M ∧ Holds M (S.insertAfter pos [a]) := by
  obtain ⟨i, us, vs, hi, hp, hcontents⟩ := h.exists_after hpos
  obtain ⟨q, hq⟩ := exists_head vs i
  refine ⟨_, by rw [listAdd, (h.linked hi hp hq).1]; rfl, ?_⟩
  have hchain : ([a].map (entry : α → ListHead ι α)).IsChain L.Linked := List.isChain_singleton _
  have hinsert := h.insert hi hp hq hchain (by simpa using ha) (List.nodup_singleton a) rfl rfl
  rw [← hcontents [a]] at hinsert
  exact hinsert

/-- `list_add_tail`. -/
theorem Holds.addTail (h : Holds L S) (ha : ¬ S.Mem a) (hpos : S.IsPlace pos) :
    ∃ M, listAddTail L (entry a) pos = some M ∧ Holds M (S.insertBefore pos [a]) := by
  obtain ⟨i, us, vs, hi, hq, hcontents⟩ := h.exists_before hpos
  obtain ⟨p, hp⟩ := exists_last us i
  refine ⟨_, by rw [listAddTail, (h.linked hi hp hq).2]; rfl, ?_⟩
  have hchain : ([a].map (entry : α → ListHead ι α)).IsChain L.Linked := List.isChain_singleton _
  have hinsert := h.insert hi hp hq hchain (by simpa using ha) (List.nodup_singleton a) rfl rfl
  rw [← hcontents [a]] at hinsert
  exact hinsert

/-- `list_del`. -/
theorem Holds.del (h : Holds L S) (ha : S.Mem a) :
    ∃ M, listDel L (entry a) = some M ∧ Holds M (S.remove a) := by
  obtain ⟨p, q, hprev, hnext, hcut, hnot⟩ := h.exists_neighbours ha
  refine ⟨(L.link p q).clear (entry a), by rw [listDel, hprev, hnext]; rfl, ?_⟩
  refine hcut.congr (free_entry hnot fun hidle => (h.idle a hidle).1 ha) ?_ ?_
  · exact fun _ hu => Function.update_of_ne hu _ _
  · exact fun _ hu => Function.update_of_ne hu _ _

/-- `list_del_init`. -/
theorem Holds.delInit (h : Holds L S) (ha : S.Mem a) :
    ∃ M, listDelInit L (entry a) = some M ∧ Holds M ((S.remove a).rest a) := by
  obtain ⟨p, q, hprev, hnext, hcut, hnot⟩ := h.exists_neighbours ha
  exact ⟨_, by rw [listDelInit, hprev, hnext]; rfl, hcut.initEntry hnot⟩

/-- `list_move`. -/
theorem Holds.move (h : Holds L S) (ha : S.Mem a) (hpos : (S.remove a).IsPlace pos) :
    ∃ M, listMove L (entry a) pos = some M ∧ Holds M ((S.remove a).insertAfter pos [a]) := by
  obtain ⟨p, q, hprev, hnext, hcut, hnot⟩ := h.exists_neighbours ha
  obtain ⟨M, hM, hholds⟩ := hcut.add hnot hpos
  exact ⟨M, by rw [listMove, hprev, hnext]; exact hM, hholds⟩

/-- `list_move_tail`. -/
theorem Holds.moveTail (h : Holds L S) (ha : S.Mem a) (hpos : (S.remove a).IsPlace pos) :
    ∃ M, listMoveTail L (entry a) pos = some M ∧ Holds M ((S.remove a).insertBefore pos [a]) := by
  obtain ⟨p, q, hprev, hnext, hcut, hnot⟩ := h.exists_neighbours ha
  obtain ⟨M, hM, hholds⟩ := hcut.addTail hnot hpos
  exact ⟨M, by rw [listMoveTail, hprev, hnext]; exact hM, hholds⟩

theorem Holds.listEmpty_iff (h : Holds L S) (hi : S.contents i = some xs) :
    listEmpty L (head i) = true ↔ xs = [] := by
  rw [listEmpty, decide_eq_true_iff, (h.ring i xs hi).next_head]
  cases xs with
  | nil => simp
  | cons x xs => simp

/-- `__list_splice`. -/
theorem Holds.spliceBetween (h : Holds L S) (hi : S.contents i = some xs) (hxs : xs ≠ [])
    (hpos : (S.forget i).IsPlace pos) :
    ∃ M, listSpliceBetween L (head i) pos = some M ∧
      Holds M ((S.forget i).insertAfter pos xs) := by
  obtain ⟨j, us, vs, hj, hp, hcontents⟩ := (h.forget i).exists_after hpos
  obtain ⟨q, hq⟩ := exists_head vs j
  have hmap : xs.map (entry : α → ListHead ι α) ≠ [] := by simpa using hxs
  obtain ⟨f, hf⟩ := Option.ne_none_iff_exists'.1 (List.head?_eq_none_iff.not.2 hmap)
  obtain ⟨l, hl⟩ := Option.ne_none_iff_exists'.1 (List.getLast?_eq_none_iff.not.2 hmap)
  have hfirst : L.Linked (head i) f := by
    have hi' : S.contents i = some ([] ++ xs) := hi
    refine h.linked hi' (by simp) ?_
    rw [List.head?_append, hf]
    rfl
  have hlast : L.Linked l (head i) := by
    have hi' : S.contents i = some (xs ++ []) := by rw [List.append_nil, hi]
    refine h.linked hi' ?_ (by simp)
    rw [List.getLast?_cons, hl]
    rfl
  have hfresh : ∀ a ∈ xs, ¬ (S.forget i).Mem a := by
    rintro a ha ⟨k, ys, hk, hy⟩
    rw [Lists.forget] at hk
    dsimp only at hk
    by_cases hki : k = i
    · rw [hki, Function.update_self] at hk
      cases hk
    · rw [Function.update_of_ne hki] at hk
      exact hki (h.unique a k i ys xs hk hi hy ha)
  have hchain : (xs.map entry).IsChain L.Linked := by
    have hclosed := (Ring.iff_isChain.1 (h.ring i xs hi)).1
    exact hclosed.tail.left_of_append
  have hne : ∀ b ∈ xs, ∀ y ∈ (head j :: (us ++ vs).map entry : List (ListHead ι α)),
      y ≠ entry b := by
    rintro b hb y hy rfl
    exact outside_of_not_mem (hfresh b hb) i j _ hj (fun hji => by
      rw [hji, Lists.forget] at hj
      dsimp only at hj
      rw [Function.update_self] at hj
      cases hj) hy
  obtain ⟨b, hb, rfl⟩ := List.mem_map.1 (List.mem_of_head? hf)
  obtain ⟨c, hc, rfl⟩ := List.mem_map.1 (List.mem_of_getLast? hl)
  have hpc : pos ≠ entry c := by
    refine hne c hc pos ?_
    rw [List.map_append, ← List.cons_append]
    exact List.mem_append_left _ (List.mem_of_getLast? hp)
  have hqb : q ≠ entry b := by
    refine hne b hb q ?_
    have hq' := List.mem_of_head? hq
    simp only [List.mem_append, List.mem_cons, List.map_append] at hq' ⊢
    tauto
  have hinsert := (h.forget i).insert hj hp hq hchain hfresh (h.ring i xs hi).nodup hf hl
  rw [← Links.link_comm hpc hqb.symm, ← hcontents xs] at hinsert
  refine ⟨_, ?_, hinsert⟩
  rw [listSpliceBetween, hfirst.1, hlast.2, ((h.forget i).linked hj hp hq).1]
  rfl

/-- An operation that is allowed is no fault, and the links are those of the changed lists. -/
theorem Holds.exec (h : Holds L S) (op : Op ι α) (hop : op.Allowed S) :
    ∃ M, exec L op = some M ∧ Holds M (op.effect S) := by
  cases op with
  | initHead i => exact ⟨_, rfl, h.initHead i⟩
  | initEntry a => exact ⟨_, rfl, h.initEntry hop⟩
  | add a pos => exact h.add hop.1 hop.2
  | addTail a pos => exact h.addTail hop.1 hop.2
  | del a => exact h.del hop
  | delInit a => exact h.delInit hop
  | move a pos => exact h.move hop.1 hop.2
  | moveTail a pos => exact h.moveTail hop.1 hop.2
  | splice i pos =>
      obtain ⟨xs, hi⟩ := Option.ne_none_iff_exists'.1 hop.1
      have hall : S.all i = xs := by rw [Lists.all, hi]; rfl
      rw [ListH.exec, listSplice, Op.effect, hall]
      by_cases hxs : xs = []
      · rw [if_pos ((h.listEmpty_iff hi).2 hxs), if_pos hxs]
        exact ⟨L, rfl, h⟩
      · rw [if_neg ((h.listEmpty_iff hi).not.2 hxs), if_neg hxs]
        exact h.spliceBetween hi hxs hop.2
  | spliceInit i pos =>
      obtain ⟨xs, hi⟩ := Option.ne_none_iff_exists'.1 hop.1
      have hall : S.all i = xs := by rw [Lists.all, hi]; rfl
      rw [ListH.exec, listSpliceInit, Op.effect, hall]
      by_cases hxs : xs = []
      · rw [if_pos ((h.listEmpty_iff hi).2 hxs), if_pos hxs]
        exact ⟨L, rfl, h⟩
      · rw [if_neg ((h.listEmpty_iff hi).not.2 hxs), if_neg hxs]
        obtain ⟨M, hM, hholds⟩ := h.spliceBetween hi hxs hop.2
        exact ⟨M.initListHead (head i), by rw [hM]; rfl, hholds.initHead i⟩

/-! ### Runs -/

/-- The operations one after the other. -/
def run (L : Links ι α) (ops : List (Op ι α)) : Option (Links ι α) := ops.foldlM exec L

/-- Every operation is allowed where it is used. -/
def Op.AllAllowed (S : Lists ι α) : List (Op ι α) → Prop
  | [] => True
  | op :: ops => op.Allowed S ∧ AllAllowed (op.effect S) ops

theorem Holds.run {ops : List (Op ι α)} (h : Holds L S) (hops : Op.AllAllowed S ops) :
    ∃ M, run L ops = some M ∧ Holds M (ops.foldl Op.effect S) := by
  induction ops generalizing L S with
  | nil => exact ⟨L, rfl, h⟩
  | cons op ops ih =>
      obtain ⟨M, hM, hholds⟩ := h.exec op hops.1
      obtain ⟨N, hN, hholds'⟩ := ih hholds hops.2
      refine ⟨N, ?_, hholds'⟩
      rw [ListH.run, List.foldlM_cons, hM]
      exact hN

end ListH

end Miscellany
