import Miscellany.EventLoop.ListRuns

/-!
# The loops of `list.h`

`list_for_each`, `list_for_each_prev` and `list_for_each_safe` with any body; the loops over the
entries are these loops, with the object in the place of its links. What a body does to the links
is given as a change `f` of the lists. The first two loops visit a list that the body does not
change. The third one visits all objects of the list once, in order, also when the body takes the
object that is visited out of the list (`Holds.forEachSafe_visits`).
-/

namespace Miscellany

open ListHead

namespace ListH

variable {ι α : Type*} [DecidableEq ι] [DecidableEq α]

/-- The loop from `pos` on, with the nodes that are visited. -/
def forEachFrom (step : Links ι α → ListHead ι α → Option (ListHead ι α))
    (body : Links ι α → ListHead ι α → Option (Links ι α)) (head : ListHead ι α) :
    ℕ → Links ι α → ListHead ι α → Option (Links ι α × List (ListHead ι α))
  | 0, _, _ => none
  | fuel + 1, L, pos =>
      if pos = head then some (L, [])
      else do
        let M ← body L pos
        let pos' ← step M pos
        let (N, visited) ← forEachFrom step body head fuel M pos'
        return (N, pos :: visited)

def listForEach (body : Links ι α → ListHead ι α → Option (Links ι α)) (head : ListHead ι α)
    (fuel : ℕ) (L : Links ι α) : Option (Links ι α × List (ListHead ι α)) := do
  let pos ← L.next head
  forEachFrom Links.next body head fuel L pos

def listForEachPrev (body : Links ι α → ListHead ι α → Option (Links ι α)) (head : ListHead ι α)
    (fuel : ℕ) (L : Links ι α) : Option (Links ι α × List (ListHead ι α)) := do
  let pos ← L.prev head
  forEachFrom Links.prev body head fuel L pos

/-- The loop from `pos` and `n` on. -/
def forEachSafeFrom (body : Links ι α → ListHead ι α → Option (Links ι α)) (head : ListHead ι α) :
    ℕ → Links ι α → ListHead ι α → ListHead ι α → Option (Links ι α × List (ListHead ι α))
  | 0, _, _, _ => none
  | fuel + 1, L, pos, n =>
      if pos = head then some (L, [])
      else do
        let M ← body L pos
        let n' ← M.next n
        let (N, visited) ← forEachSafeFrom body head fuel M n n'
        return (N, pos :: visited)

def listForEachSafe (body : Links ι α → ListHead ι α → Option (Links ι α)) (head : ListHead ι α)
    (fuel : ℕ) (L : Links ι α) : Option (Links ι α × List (ListHead ι α)) := do
  let pos ← L.next head
  let n ← L.next pos
  forEachSafeFrom body head fuel L pos n

/-- What a body does to links and lists with `I` when it visits an object of the list of `head i`,
of which `R` is left. -/
def Body (I : Links ι α → Lists ι α → Prop) (R : List α → α → List α → Prop) (i : ι)
    (body : Links ι α → ListHead ι α → Option (Links ι α)) (f : Lists ι α → α → Lists ι α) : Prop :=
  ∀ M T zs x, Holds M T → I M T → T.contents i = some zs → x ∈ zs →
    ∃ M', body M (entry x) = some M' ∧ Holds M' (f T x) ∧ I M' (f T x) ∧
      ∃ ys, (f T x).contents i = some ys ∧ R zs x ys

/-- The list is kept. -/
def Kept (zs : List α) (_ : α) (ys : List α) : Prop := ys = zs

/-- The object that is visited may be taken out. -/
def KeptOrErased (zs : List α) (x : α) (ys : List α) : Prop := ys = zs ∨ ys = zs.erase x

variable {L : Links ι α} {S : Lists ι α} {I : Links ι α → Lists ι α → Prop} {i j : ι}
  {xs : List α} {fuel : ℕ} {body : Links ι α → ListHead ι α → Option (Links ι α)}
  {f : Lists ι α → α → Lists ι α}

/-- A loop along the nodes `zs` of a list that the body keeps. -/
theorem Holds.forEachFrom {step : Links ι α → ListHead ι α → Option (ListHead ι α)}
    {zs us vs : List α} (h : Holds L S) (hS : I L S) (hi : S.contents i = some xs)
    (hstep : ∀ M, Ring M i xs → Walk (step M) (head i) (zs.map entry) (head i))
    (hzs : zs = us ++ vs) (hsub : ∀ x ∈ vs, x ∈ xs) (hbody : Body I Kept i body f)
    (hfuel : vs.length < fuel) :
    ∃ M, forEachFrom step body (head i) fuel L ((vs.map entry).headD (head i)) =
      some (M, vs.map entry) ∧ Holds M (vs.foldl f S) ∧ I M (vs.foldl f S) := by
  induction vs generalizing us L S fuel with
  | nil =>
      obtain ⟨fuel, rfl⟩ := Nat.exists_eq_succ_of_ne_zero (Nat.ne_of_gt hfuel)
      exact ⟨L, by simp [ListH.forEachFrom], h, hS⟩
  | cons x vs ih =>
      obtain ⟨fuel, rfl⟩ := Nat.exists_eq_succ_of_ne_zero
        (Nat.ne_of_gt ((Nat.zero_le _).trans_lt hfuel))
      have hx := hsub x List.mem_cons_self
      obtain ⟨M, hM, hholds, hI, ys, hi', hys⟩ := hbody L S xs x h hS hi hx
      rw [hys] at hi'
      have hnext : step M (entry x) = some ((vs.map entry).headD (head i)) := by
        have hwalk := hstep M (hholds.ring i xs hi')
        rw [hzs, List.map_append, List.map_cons, walk_append_cons] at hwalk
        exact walk_link_getLastD (l := []) hwalk.2
      have hzs' : zs = (us ++ [x]) ++ vs := by simpa using hzs
      have hsub' : ∀ y ∈ vs, y ∈ xs := fun y hy => hsub y (List.mem_cons_of_mem x hy)
      obtain ⟨N, hN, hholds'⟩ := ih hholds hI hi' hzs' hsub'
        (Nat.succ_lt_succ_iff.1 hfuel)
      refine ⟨N, ?_, hholds'⟩
      simp only [List.map_cons, List.headD_cons, ListH.forEachFrom, reduceCtorEq, if_false, hM,
        hnext, hN, Option.bind_eq_bind, Option.bind_some, Option.pure_def]

/-- `list_for_each` visits the objects in order. -/
theorem Holds.forEach_visits (h : Holds L S) (hS : I L S) (hi : S.contents i = some xs)
    (hbody : Body I Kept i body f)
    (hfuel : xs.length < fuel) :
    ∃ M, listForEach body (head i) fuel L = some (M, xs.map entry) ∧
      Holds M (xs.foldl f S) ∧ I M (xs.foldl f S) := by
  have hstep : ∀ M, Ring M i xs → Walk (Links.next M) (head i) (xs.map entry) (head i) :=
    fun _ hring => hring.forward
  have hxs : xs = [] ++ xs := rfl
  obtain ⟨M, hM, hholds⟩ := h.forEachFrom hS hi hstep hxs (fun _ hx => hx) hbody hfuel
  exact ⟨M, by rw [listForEach, (h.ring i xs hi).next_head]; exact hM, hholds⟩

/-- `list_for_each_prev` visits the objects in the opposite order. -/
theorem Holds.forEachPrev_visits (h : Holds L S) (hS : I L S) (hi : S.contents i = some xs)
    (hbody : Body I Kept i body f)
    (hfuel : xs.length < fuel) :
    ∃ M, listForEachPrev body (head i) fuel L = some (M, xs.reverse.map entry) ∧
      Holds M (xs.reverse.foldl f S) ∧ I M (xs.reverse.foldl f S) := by
  have hstep : ∀ M, Ring M i xs → Walk (Links.prev M) (head i) (xs.reverse.map entry) (head i) :=
    fun _ hring => hring.backward
  have hxs : xs.reverse = [] ++ xs.reverse := rfl
  have hlen : xs.reverse.length < fuel := by rwa [List.length_reverse]
  obtain ⟨M, hM, hholds⟩ := h.forEachFrom hS hi hstep hxs (fun _ hx => List.mem_reverse.1 hx) hbody
    hlen
  refine ⟨M, ?_, hholds⟩
  rw [listForEachPrev, (h.ring i xs hi).prev_head, ← Ring.headD_reverse_map]
  exact hM

/-- The rest of the list is not changed. -/
theorem Holds.forEachSafeFrom {us vs : List α} {n : ListHead ι α} (h : Holds L S) (hS : I L S)
    (hi : S.contents i = some (us ++ vs)) (hbody : Body I KeptOrErased i body f)
    (hn : ∀ x ws, vs = x :: ws → n = (ws.map entry).headD (head i)) (hfuel : vs.length < fuel) :
    ∃ M, forEachSafeFrom body (head i) fuel L ((vs.map entry).headD (head i)) n =
      some (M, vs.map entry) ∧ Holds M (vs.foldl f S) ∧ I M (vs.foldl f S) := by
  induction vs generalizing us L S fuel n with
  | nil =>
      obtain ⟨fuel, rfl⟩ := Nat.exists_eq_succ_of_ne_zero (Nat.ne_of_gt hfuel)
      exact ⟨L, by simp [ListH.forEachSafeFrom], h, hS⟩
  | cons x vs ih =>
      obtain ⟨fuel, rfl⟩ := Nat.exists_eq_succ_of_ne_zero
        (Nat.ne_of_gt ((Nat.zero_le _).trans_lt hfuel))
      have hx : x ∈ us ++ x :: vs := List.mem_append_right us List.mem_cons_self
      obtain ⟨M, hM, hholds, hI, ys, hys, hkept⟩ := hbody L S _ x h hS hi hx
      -- what is left in front of the rest
      obtain ⟨us', hi'⟩ : ∃ us', (f S x).contents i = some (us' ++ vs) := by
        rcases hkept with rfl | rfl
        · exact ⟨us ++ [x], by simpa using hys⟩
        · have hnodup := (h.ring i _ hi).nodup
          rw [List.nodup_middle, List.nodup_cons] at hnodup
          have hxu : x ∉ us := fun hu => hnodup.1 (List.mem_append_left vs hu)
          rw [List.erase_append_right _ hxu, List.erase_cons_head] at hys
          exact ⟨us, hys⟩
      have hring := hholds.ring i _ hi'
      obtain ⟨n', hn', hnext⟩ : ∃ n', M.next n = some n' ∧
          ∀ y ws, vs = y :: ws → n' = (ws.map entry).headD (head i) := by
        rw [hn x vs rfl]
        cases vs with
        | nil => exact ⟨_, hring.next_head, fun _ _ he => nomatch he⟩
        | cons y ws => exact ⟨_, hring.next_entry, fun _ _ he => by cases he; rfl⟩
      obtain ⟨N, hN, hholds'⟩ := ih hholds hI hi' hnext
        (Nat.succ_lt_succ_iff.1 hfuel)
      refine ⟨N, ?_, hholds'⟩
      rw [← hn x vs rfl] at hN
      simp only [List.map_cons, List.headD_cons, ListH.forEachSafeFrom, reduceCtorEq, if_false, hM,
        hn', hN, Option.bind_eq_bind, Option.bind_some, Option.pure_def]

/-- `list_for_each_safe` visits the objects in order, whether or not they are taken out. -/
theorem Holds.forEachSafe_visits (h : Holds L S) (hS : I L S) (hi : S.contents i = some xs)
    (hbody : Body I KeptOrErased i body f)
    (hfuel : xs.length < fuel) :
    ∃ M, listForEachSafe body (head i) fuel L = some (M, xs.map entry) ∧
      Holds M (xs.foldl f S) ∧ I M (xs.foldl f S) := by
  have hring := h.ring i xs hi
  obtain ⟨n, hn, hnext⟩ : ∃ n, L.next ((xs.map entry).headD (head i)) = some n ∧
      ∀ y ws, xs = y :: ws → n = (ws.map entry).headD (head i) := by
    cases xs with
    | nil => exact ⟨_, hring.next_head, fun _ _ he => nomatch he⟩
    | cons y ws =>
        have hfirst : Ring L i ([] ++ y :: ws) := hring
        exact ⟨_, hfirst.next_entry, fun _ _ he => by cases he; rfl⟩
  have hi' : S.contents i = some ([] ++ xs) := hi
  obtain ⟨M, hM, hholds⟩ := h.forEachSafeFrom hS hi' hbody hnext hfuel
  refine ⟨M, ?_, hholds⟩
  rw [listForEachSafe, hring.next_head]
  simp only [Option.bind_eq_bind, Option.bind_some, hn]
  exact hM

/-! ### Runs and loops -/

omit [DecidableEq ι] [DecidableEq α] in
/-- A body that changes nothing. -/
theorem body_visit (M : Links ι α) (S : Lists ι α) (i : ι) :
    Body (fun N T => N = M ∧ T = S) Kept i (fun L _ => some L) fun T _ => T :=
  fun N _ zs _ h hI hi _ => ⟨N, rfl, h, hI, zs, hi, rfl⟩

/-- After a run, the loops find the lists as the operations have changed them. -/
theorem run_forEach (L : Links ι α) {ops : List (Op ι α)} (hops : Op.AllAllowed Lists.none ops) :
    ∃ M, run L ops = some M ∧ ∀ i xs, (ops.foldl Op.effect Lists.none).contents i = some xs →
      (∀ fuel, xs.length < fuel →
        listForEach (fun L _ => some L) (head i) fuel M = some (M, xs.map entry) ∧
        listForEachPrev (fun L _ => some L) (head i) fuel M = some (M, xs.reverse.map entry)) ∧
      (listEmpty M (head i) = true ↔ xs = []) := by
  obtain ⟨M, hM, hholds⟩ := (holds_none L).run hops
  refine ⟨M, hM, fun i xs hi => ⟨fun fuel hfuel => ⟨?_, ?_⟩, hholds.listEmpty_iff hi⟩⟩
  · obtain ⟨N, hN, -, rfl, -⟩ := hholds.forEach_visits ⟨rfl, rfl⟩ hi (body_visit M _ i) hfuel
    exact hN
  · obtain ⟨N, hN, -, rfl, -⟩ := hholds.forEachPrev_visits ⟨rfl, rfl⟩ hi (body_visit M _ i) hfuel
    exact hN

/-- Two lists, and two objects in the first one. -/
theorem allAllowed_addTail : Op.AllAllowed (Lists.none : Lists Bool ℕ)
    [.initHead true, .initHead false, .addTail 1 (head true), .addTail 2 (head true)] := by
  refine ⟨trivial, trivial, ⟨?_, Option.some_ne_none _⟩, ⟨?_, Option.some_ne_none _⟩, trivial⟩
  · rintro ⟨i, xs, hi, hx⟩
    cases i <;> cases hi <;> cases hx
  · rintro ⟨i, xs, hi, hx⟩
    cases i
    · cases hi
      cases hx
    · cases hi
      exact absurd hx (by decide)

theorem run_forEach_addTail :
    ∃ M, run (⟨fun _ => none, fun _ => none⟩ : Links Bool ℕ)
        [.initHead true, .initHead false, .addTail 1 (head true), .addTail 2 (head true)] =
          some M ∧
      listForEach (fun L _ => some L) (head true) 3 M = some (M, [entry 1, entry 2]) ∧
      listEmpty M (head false) = true := by
  obtain ⟨M, hM, hloops⟩ := run_forEach (⟨fun _ => none, fun _ => none⟩ : Links Bool ℕ)
    allAllowed_addTail
  exact ⟨M, hM, ((hloops true [1, 2] rfl).1 3 (by decide)).1, (hloops false [] rfl).2.2 rfl⟩

/-- Deleting every object. -/
theorem body_delInit (i : ι) : Body (fun (_ : Links ι α) _ => True) KeptOrErased i listDelInit
    fun T x => (T.remove x).rest x := by
  intro M T zs x h _ hi hx
  obtain ⟨M', hM', hholds⟩ := h.delInit ⟨i, zs, hi, hx⟩
  refine ⟨M', hM', hholds, trivial, zs.erase x, ?_, Or.inr rfl⟩
  change (T.remove x).contents i = some (zs.erase x)
  rw [Lists.contents_remove, hi]
  rfl

theorem forEachSafe_visits_delInit :
    ∃ L M, run (⟨fun _ => none, fun _ => none⟩ : Links Bool ℕ)
        [.initHead true, .initHead false, .addTail 1 (head true), .addTail 2 (head true)] =
          some L ∧
      listForEachSafe listDelInit (head true) 3 L = some (M, [entry 1, entry 2]) := by
  obtain ⟨L, hL, hholds⟩ := (holds_none (⟨fun _ => none, fun _ => none⟩ : Links Bool ℕ)).run
    allAllowed_addTail
  obtain ⟨M, hM, -⟩ := Holds.forEachSafe_visits hholds trivial rfl (body_delInit true)
    (by decide : 2 < 3)
  exact ⟨L, M, hL, hM⟩

/-! ### A list that is emptied into another one -/

/-- The objects `xs` of the list of `head i` are behind the objects `ys` of the list of `head j`. -/
def drained (S : Lists ι α) (i j : ι) (xs ys : List α) : Lists ι α where
  contents := Function.update (Function.update S.contents i (some [])) j (some (ys ++ xs))
  idle := {a ∈ S.idle | a ∉ xs}

theorem moveTail_effect {x : α} {ys : List α} (hij : i ≠ j) (hi : S.contents i = some (x :: xs))
    (hj : S.contents j = some ys)
    (hother : ∀ k zs, k ≠ i → S.contents k = some zs → x ∉ zs) :
    Op.effect S (.moveTail x (head j)) =
      ⟨Function.update (Function.update S.contents i (some xs)) j (some (ys ++ [x])),
        {a ∈ S.idle | a ∉ [x]}⟩ := by
  have hremove : (S.remove x).contents = Function.update S.contents i (some xs) := by
    funext k
    by_cases hki : k = i
    · subst hki
      rw [Function.update_self, Lists.contents_remove, hi, Option.map_some, List.erase_cons_head]
    · rw [Function.update_of_ne hki, Lists.contents_remove]
      cases hk : S.contents k with
      | none => rfl
      | some zs => rw [Option.map_some, List.erase_of_not_mem (hother k zs hki hk)]
  have hj' : (S.remove x).contents j = some ys := by
    rw [hremove, Function.update_of_ne hij.symm, hj]
  rw [Op.effect, Lists.insertBefore, edit_head hj', hremove]
  rfl

theorem foldl_moveTail {ys : List α} (hij : i ≠ j) (hi : S.contents i = some xs)
    (hj : S.contents j = some ys) (hnodup : xs.Nodup)
    (hother : ∀ x ∈ xs, ∀ k zs, k ≠ i → S.contents k = some zs → x ∉ zs) :
    (xs.foldl (fun T x => Op.effect T (.moveTail x (head j))) S) = drained S i j xs ys := by
  induction xs generalizing S ys with
  | nil =>
      have hsame : Function.update (Function.update S.contents i (some [])) j (some (ys ++ [])) =
          S.contents := by
        rw [List.append_nil, ← hi, Function.update_eq_self, ← hj, Function.update_eq_self]
      rw [List.foldl_nil, drained, hsame]
      simp
  | cons x xs ih =>
      obtain ⟨hx, hnodup⟩ := List.nodup_cons.1 hnodup
      rw [List.foldl_cons, moveTail_effect hij hi hj (hother x List.mem_cons_self)]
      set T : Lists ι α := ⟨Function.update (Function.update S.contents i (some xs)) j
        (some (ys ++ [x])), {a ∈ S.idle | a ∉ [x]}⟩ with hT
      have hTi : T.contents i = some xs := by
        rw [hT]
        dsimp only
        rw [Function.update_of_ne hij, Function.update_self]
      have hTj : T.contents j = some (ys ++ [x]) := by
        rw [hT]
        dsimp only
        rw [Function.update_self]
      have hTother : ∀ y ∈ xs, ∀ k zs, k ≠ i → T.contents k = some zs → y ∉ zs := by
        intro y hy k zs hki hk
        have hy' := hother y (List.mem_cons_of_mem x hy)
        rw [hT] at hk
        dsimp only at hk
        by_cases hkj : k = j
        · rw [hkj, Function.update_self] at hk
          cases hk
          rw [List.mem_append, List.mem_singleton, not_or]
          exact ⟨hy' j ys hij.symm hj, fun he => hx (he ▸ hy)⟩
        · rw [Function.update_of_ne hkj, Function.update_of_ne hki] at hk
          exact hy' k zs hki hk
      rw [ih hTi hTj hnodup hTother, hT]
      simp only [drained, Lists.mk.injEq]
      constructor
      · funext k
        by_cases hkj : k = j
        · rw [hkj, Function.update_self, Function.update_self, List.append_assoc,
            List.singleton_append]
        · rw [Function.update_of_ne hkj, Function.update_of_ne hkj]
          by_cases hki : k = i
          · rw [hki, Function.update_self, Function.update_self]
          · rw [Function.update_of_ne hki, Function.update_of_ne hki, Function.update_of_ne hkj,
              Function.update_of_ne hki]
      · ext a
        simp only [Set.mem_ofPred_eq, List.mem_cons, List.not_mem_nil, or_false, not_or, and_assoc]

/-- What `list_splice_init` does behind the last object of another list. -/
theorem spliceInit_effect {ys : List α} {pos : ListHead ι α} (h : Holds L S) (hij : i ≠ j)
    (hi : S.contents i = some xs) (hj : S.contents j = some ys)
    (hpos : pos = (ys.map entry).getLastD (head j)) :
    (Op.spliceInit i pos).Allowed S ∧ Op.effect S (.spliceInit i pos) = drained S i j xs ys := by
  have hall : S.all i = xs := by rw [Lists.all, hi]; rfl
  have hforget : (S.forget i).contents j = some ys := by
    rw [Lists.forget]
    dsimp only
    rw [Function.update_of_ne hij.symm, hj]
  have hinsert : ((S.forget i).insertAfter pos xs).contents =
      Function.update (S.forget i).contents j (some (ys ++ xs)) := by
    rw [Lists.insertAfter]
    dsimp only
    rcases List.eq_nil_or_concat' ys with rfl | ⟨ys, y, rfl⟩
    · rw [hpos]
      exact (edit_head hforget).trans (by simp)
    · rw [hpos, List.map_append, List.map_singleton, List.getLastD_concat]
      have hforget' : (S.forget i).contents j = some (ys ++ y :: []) := hforget
      exact ((h.forget i).edit_entry hforget').trans (by simp)
  refine ⟨⟨by rw [hi]; exact Option.some_ne_none xs, ?_⟩, ?_⟩
  · rcases List.eq_nil_or_concat' ys with rfl | ⟨ys, y, rfl⟩
    · rw [hpos]
      exact fun hnone => by rw [hforget] at hnone; cases hnone
    · rw [hpos, List.map_append, List.map_singleton, List.getLastD_concat]
      exact ⟨j, _, hforget, by simp⟩
  · rw [Op.effect, hall]
    split_ifs with hxs
    · subst hxs
      have hsame := foldl_moveTail hij hi hj List.nodup_nil fun x hx => absurd hx List.not_mem_nil
      exact hsame
    · rw [Lists.start, hinsert, drained, Lists.mk.injEq]
      refine ⟨?_, rfl⟩
      rw [Lists.forget]
      dsimp only
      rw [Function.update_comm hij, Function.update_idem, Function.update_comm hij.symm]

/-- The objects of a list are moved to the end of another list by a loop as by
`list_splice_init`. -/
theorem Holds.drain_eq_splice {ys : List α} (h : Holds L S) (hij : i ≠ j)
    (hi : S.contents i = some xs) (hj : S.contents j = some ys) (hfuel : xs.length < fuel) :
    ∃ M N last, listForEachSafe (fun L pos => listMoveTail L pos (head j)) (head i) fuel L =
        some (M, xs.map entry) ∧ Holds M (drained S i j xs ys) ∧
      L.prev (head j) = some last ∧ listSpliceInit L (head i) last = some N ∧
        Holds N (drained S i j xs ys) := by
  have hbody : Body (fun (_ : Links ι α) T => T.contents j ≠ none) KeptOrErased i
      (fun L pos => listMoveTail L pos (head j)) fun T x => Op.effect T (.moveTail x (head j)) := by
    intro M T zs x hT hused hzs hx
    obtain ⟨ws, hws⟩ := Option.ne_none_iff_exists'.1 hused
    have hjused : (T.remove x).contents j = some (ws.erase x) := by
      rw [Lists.contents_remove, hws]
      rfl
    have hplace : (T.remove x).IsPlace (head j) := by
      rw [Lists.IsPlace, hjused]
      exact Option.some_ne_none _
    obtain ⟨M', hM', hholds⟩ := hT.moveTail ⟨i, zs, hzs, hx⟩ hplace
    have hcontents : (Op.effect T (.moveTail x (head j))).contents =
        Function.update (T.remove x).contents j (some (ws.erase x ++ [x])) := edit_head hjused
    refine ⟨M', hM', hholds, ?_, zs.erase x, ?_, Or.inr rfl⟩
    · dsimp only
      rw [hcontents, Function.update_self]
      exact Option.some_ne_none _
    · rw [hcontents, Function.update_of_ne hij, Lists.contents_remove, hzs]
      rfl
  have hring := h.ring j ys hj
  have hused : S.contents j ≠ none := by
    rw [hj]
    exact Option.some_ne_none ys
  obtain ⟨M, hM, hholds, -⟩ := h.forEachSafe_visits hused hi hbody hfuel
  rw [foldl_moveTail hij hi hj (h.ring i xs hi).nodup fun x hx k zs hki hk hx' =>
    hki (h.unique x k i zs xs hk hi hx' hx)] at hholds
  obtain ⟨hallowed, heffect⟩ := spliceInit_effect h hij hi hj rfl
  obtain ⟨N, hN, hholds'⟩ := h.exec _ hallowed
  rw [heffect] at hholds'
  exact ⟨M, N, _, hM, hholds, hring.prev_head, hN, hholds'⟩

theorem drain_eq_splice_addTail :
    ∃ L M N last, run (⟨fun _ => none, fun _ => none⟩ : Links Bool ℕ)
        [.initHead true, .initHead false, .addTail 1 (head true), .addTail 2 (head true)] =
          some L ∧
      listForEachSafe (fun L pos => listMoveTail L pos (head false)) (head true) 3 L =
        some (M, [entry 1, entry 2]) ∧
      listSpliceInit L (head true) last = some N ∧ listEmpty N (head true) = true := by
  obtain ⟨L, hL, hholds⟩ := (holds_none (⟨fun _ => none, fun _ => none⟩ : Links Bool ℕ)).run
    allAllowed_addTail
  obtain ⟨M, N, last, hM, -, -, hN, hN'⟩ := Holds.drain_eq_splice hholds
    (by decide : true ≠ false) rfl rfl (by decide : 2 < 3)
  exact ⟨L, M, N, last, hL, hM, hN, (hN'.listEmpty_iff rfl).2 rfl⟩

end ListH

end Miscellany
