import Miscellany.SkipList.Delete

/-!
# The skip list as a stable sorted list

What a skip list is for: a list of objects sorted by key, into which an object is
inserted behind those of the same key (`StableList`). A run of a skip list is any sequence
of calls from `sklist_init` on, with any heights drawn for the nodes and any addresses
given to them (`Run`). Every list that a run reaches satisfies the representation
invariant, and its objects are those of the stable sorted list after the same calls,
whatever the heights were.
-/

namespace Miscellany

/-! ### The abstract list -/

/-- A call that changes the list; a null key is `none`. -/
inductive SklistCall (K O : Type) where
  | insert (o : O)
  | delete (k : Option K)

namespace StableList

variable {K O : Type} (cmp : K → K → ℤ) (key : O → K)

/-- Insert behind the objects whose key is not greater. -/
def insert (o : O) (l : List O) : List O :=
  l.orderedInsert (fun a b => cmp (key a) (key b) < 0) o

/-- Remove the first object with the key. -/
def delete (k : K) (l : List O) : List O :=
  l.eraseP fun o => cmp k (key o) = 0

def step (l : List O) : SklistCall K O → List O
  | .insert o => insert cmp key o l
  | .delete none => l
  | .delete (some k) => delete cmp key k l

/-- The list after the given calls. -/
def run (calls : List (SklistCall K O)) : List O := calls.foldl (step cmp key) []

end StableList

namespace Sklist

variable {K O : Type} {s t : Sklist K O} {L : ℕ → List NodeId}
variable {cmp : K → K → ℤ} {key : O → K}

/-! ### Iterating -/

theorem foreachLoop_eq {next : NodeId → Option NodeId} {a : NodeId} {xs : List NodeId}
    (hwalk : Walk next a xs s.head) (hhead : s.head ∉ xs) {fuel : ℕ} (hfuel : xs.length < fuel) :
    s.foreachLoop next fuel (next a) = some xs := by
  induction xs generalizing a fuel with
  | nil =>
      obtain ⟨fuel, rfl⟩ := Nat.exists_eq_succ_of_ne_zero (Nat.ne_of_gt (Nat.zero_lt_of_lt hfuel))
      rw [walk_nil] at hwalk
      simp [foreachLoop, hwalk]
  | cons x xs ih =>
      obtain ⟨fuel, rfl⟩ := Nat.exists_eq_succ_of_ne_zero (Nat.ne_of_gt (Nat.zero_lt_of_lt hfuel))
      rw [List.mem_cons, not_or] at hhead
      rw [walk_cons] at hwalk
      have hrest := ih hwalk.2 hhead.2 (Nat.lt_of_succ_lt_succ hfuel)
      simp [foreachLoop, hwalk.1, Ne.symm hhead.1, hrest]

/-- Iterating visits the bottom list. -/
theorem Represents.sklistForeach (h : Represents s cmp key L) (hmax : 0 < s.maxLevel) :
    s.sklistForeach = some (L 0) := by
  refine foreachLoop_eq ?_ (List.nodup_cons.1 (h.nodup 0)).1 (h.length_lt 0)
  refine (walk_congr fun p hp => ?_).2 (h.walk 0 hmax)
  exact readLink_eq (h.toLinked.hasLink hmax hp)

/-- Iterating backwards visits it in the opposite order. -/
theorem Represents.sklistForeachReverse (h : Represents s cmp key L) :
    s.sklistForeachReverse = some (L 0).reverse := by
  have hhead : s.head ∉ (L 0).reverse := by
    rw [List.mem_reverse]
    exact (List.nodup_cons.1 (h.nodup 0)).1
  have hlen : (L 0).reverse.length < s.heap.length := by
    rw [List.length_reverse]
    exact h.length_lt 0
  refine foreachLoop_eq ((walk_congr fun p hp => ?_).2 h.prev) hhead hlen
  rw [List.mem_cons, List.mem_reverse, ← List.mem_cons] at hp
  exact if_pos (h.mem_heap hp)

theorem Represents.contents (h : Represents s cmp key L) (hmax : 0 < s.maxLevel) :
    s.contents = some (s.objs (L 0)) := by
  rw [Sklist.contents, h.sklistForeach hmax, Option.map_some]

/-! ### Objects of nodes -/

/-- A condition on nodes that is a condition on their objects. -/
theorem objs_filter {f : NodeId → Bool} {g : O → Bool}
    (hfg : ∀ p o, (s.node p).obj = some o → f p = g o) (l : List NodeId) :
    s.objs (l.filter f) = (s.objs l).filter g := by
  rw [objs, objs, List.filterMap_filter, List.filter_filterMap]
  congr 1
  funext p
  cases ho : (s.node p).obj with
  | none => simp
  | some o =>
      rw [hfg p o ho]
      rfl

theorem objs_eraseP (s : Sklist K O) (key : O → K) (found : K → Bool) (l : List NodeId) :
    s.objs (l.eraseP (s.keySatisfies key found)) = (s.objs l).eraseP fun o => found (key o) := by
  rw [objs, objs, List.eraseP_filterMap]
  congr 2
  funext p
  unfold keySatisfies
  cases ho : (s.node p).obj <;> simp

theorem objs_congr {l : List NodeId} (h : ∀ p ∈ l, (t.node p).obj = (s.node p).obj) :
    t.objs l = s.objs l :=
  List.filterMap_congr h

/-- Inserting a node inserts its object. -/
theorem objs_insertBefore {new : NodeId} {o : O} (hobj : (t.node new).obj = some o)
    (hsame : ∀ p, p ≠ new → (t.node p).obj = (s.node p).obj) (stop : K → Bool)
    {l : List NodeId} (hnew : new ∉ l) :
    t.objs (insertBefore (s.keySatisfies key stop) new l) =
      insertBefore (fun a => stop (key a)) o (s.objs l) := by
  have hkeep : ∀ f : NodeId → Bool, t.objs (l.filter f) = s.objs (l.filter f) := by
    intro f
    refine objs_congr fun p hp => hsame p ?_
    rintro rfl
    exact hnew (List.mem_of_mem_filter hp)
  have hcons : ∀ m : List NodeId, t.objs (new :: m) = o :: t.objs m := by
    intro m
    rw [objs, List.filterMap_cons, hobj]
    rfl
  have hhigh := objs_filter (fun p a ha => keySatisfies_eq (s := s) ha key stop) l
  have hlow := objs_filter (g := fun a => !stop (key a))
    (fun p a ha => congrArg not (keySatisfies_eq (s := s) ha key stop)) l
  rw [insertBefore, insertBefore, ← hhigh, ← hlow, ← hkeep, ← hkeep, ← hcons]
  exact List.filterMap_append

theorem Represents.sorted_objs (h : Represents s cmp key L) :
    (s.objs (L 0)).Pairwise fun a b => cmp (key a) (key b) ≤ 0 :=
  h.sorted.filterMap _ fun _ _ hle a ha b hb => hle a b ha hb

/-! ### Runs -/

variable (cmp key) in
/-- The list that `sklist_init`, with the functions set, and then the given successful calls
lead to; each insertion draws some height and gets some address. -/
inductive Run : List (SklistCall K O) → Sklist K O → Prop where
  | init {maxLevel : ℤ} {mallocList : Bool} {head : Option NodeId} {s : Sklist K O}
      (destroy : Bool) (hinit : sklistInit maxLevel mallocList head = some s) :
      Run [] (s.setFunctions cmp key destroy)
  | insert {calls : List (SklistCall K O)} {s t : Sklist K O} (hs : Run calls s) {o : O}
      {height : ℕ} {malloc : Option NodeId} (hpos : 1 ≤ height) (hmax : height ≤ s.maxLevel)
      (hcall : s.sklistInsert (some o) height malloc = some (0, t)) :
      Run (calls ++ [.insert o]) t
  | delete {calls : List (SklistCall K O)} {s t : Sklist K O} (hs : Run calls s)
      {k : Option K} {res : ℤ} (hcall : s.sklistDelete k = some (res, t)) :
      Run (calls ++ [.delete k]) t

variable (cmp key) in
theorem represents_init {maxLevel : ℤ} {mallocList : Bool} {head : Option NodeId}
    (hinit : sklistInit maxLevel mallocList head = some s) (destroy : Bool) :
    Represents (s.setFunctions cmp key destroy) cmp key (fun _ => []) ∧ 0 < s.maxLevel := by
  unfold sklistInit at hinit
  split_ifs at hinit with hpos hmalloc
  cases head with
  | none => simp at hinit
  | some h =>
      obtain rfl := Option.some.inj hinit
      have hmax : 0 < maxLevel.toNat := by omega
      refine ⟨⟨⟨?_, rfl, fun i hi => ?_, ?_, ?_, ?_, rfl⟩, rfl, rfl, ?_, ?_, ?_, ?_, rfl, ?_⟩, hmax⟩
      · exact List.mem_cons_self
      · exact if_pos hi
      · simp
      · simp
      · simp
      · simp
      · simp
      · simp [setFunctions]
      · exact Nat.zero_le _
      · exact List.Perm.refl _

/-- An insertion that succeeds was given an address that was not in use. -/
theorem sklistInsert_eq_zero {o : O} {height : ℕ} {malloc : Option NodeId}
    (hget : s.getKey = some key) (hcmp : s.cmpKey = some cmp)
    (hcall : s.sklistInsert (some o) height malloc = some (0, t)) :
    ∃ new, malloc = some new ∧ new ∉ s.heap := by
  simp only [Sklist.sklistInsert, hget, hcmp] at hcall
  cases malloc with
  | none => simp [newNode] at hcall
  | some new =>
      refine ⟨new, rfl, fun hmem => ?_⟩
      have hheap : (s.raiseLevel height).heap = s.heap := by rw [raiseLevel_eq]
      simp [newNode, hheap, hmem] at hcall

section Insert

variable {o : O} {new : NodeId} {height : ℕ}

/-- The objects after an insertion. -/
theorem Represents.contents_sklistInsert (hcmp : Comparator cmp) (h : Represents s cmp key L)
    (hmax : 0 < s.maxLevel) (hpos : 1 ≤ height) (hheight : height ≤ s.maxLevel)
    (hnew : new ∉ s.heap) (o : O) :
    ∃ t L', s.sklistInsert (some o) height (some new) = some (0, t) ∧ Represents t cmp key L' ∧
      t.maxLevel = s.maxLevel ∧ t.destroyed = s.destroyed ∧ t.size = s.size + 1 ∧
      t.contents = some (StableList.insert cmp key o (s.objs (L 0))) := by
  obtain ⟨t, hcall, ht, hobj, hsame, hmax', -, hdestroyed⟩ :=
    h.sklistInsert hcmp o hpos hheight hnew
  have hbottom : insertLists (s.keySatisfies key fun k => decide (cmp (key o) k < 0)) new height L
      0 = insertBefore (s.keySatisfies key fun k => decide (cmp (key o) k < 0)) new (L 0) :=
    if_pos (by omega)
  have hup : UpClosed (fun a => decide (cmp (key o) (key a) < 0)) (s.objs (L 0)) :=
    h.sorted_objs.imp fun {a b} hab ha => hcmp.decide_lt (key o) (key a) (key b) ha hab
  have hfresh : new ∉ L 0 := fun hmem => h.ne_new hnew (List.mem_cons_of_mem _ hmem) rfl
  refine ⟨t, _, hcall, ht, hmax', hdestroyed, ?_, ?_⟩
  · have hupNodes : UpClosed (s.keySatisfies key fun k => decide (cmp (key o) k < 0)) (L 0) :=
      h.upClosed (hcmp.decide_lt (key o)) 0
    rw [ht.size, hbottom, (hupNodes.perm_insertBefore new).length_eq, h.size]
    rfl
  · rw [ht.contents (by omega), hbottom, objs_insertBefore hobj hsame _ hfresh, StableList.insert,
      hup.orderedInsert_eq]

end Insert

/-- The objects after a deletion. -/
theorem Represents.contents_sklistDelete (hcmp : Comparator cmp) (h : Represents s cmp key L)
    (hmax : 0 < s.maxLevel) (k : K) :
    ∃ t L', s.sklistDelete (some k) = some (0, t) ∧ Represents t cmp key L' ∧
      t.maxLevel = s.maxLevel ∧
      Freed s t ((L 0).find? (s.hasKey cmp key k)) ∧
      t.contents = some (StableList.delete cmp key k (s.objs (L 0))) := by
  obtain ⟨t, hcall, ht, hfreed⟩ := h.sklistDelete hcmp k
  refine ⟨t, _, hcall, ht, hfreed.maxLevel, hfreed, ?_⟩
  rw [ht.contents (by rw [hfreed.maxLevel]; exact hmax), objs_congr fun p _ => hfreed.obj p]
  exact congrArg some (objs_eraseP s key (fun a => decide (cmp k a = 0)) (L 0))

/-- The first node with a key holds the first object with that key. -/
theorem find?_hasKey_cases (h : Represents s cmp key L) (k : K) :
    ((L 0).find? (s.hasKey cmp key k) = none ∧ ∀ a ∈ s.objs (L 0), cmp k (key a) ≠ 0) ∨
      ∃ x o l₁ l₂, (L 0).find? (s.hasKey cmp key k) = some x ∧ (s.node x).obj = some o ∧
        s.objs (L 0) = l₁ ++ o :: l₂ ∧ cmp k (key o) = 0 ∧ ∀ a ∈ l₁, cmp k (key a) ≠ 0 := by
  have hother : ∀ l : List NodeId, (∀ p ∈ l, ¬ s.hasKey cmp key k p = true) →
      ∀ a ∈ s.objs l, cmp k (key a) ≠ 0 := by
    intro l hnone a ha
    obtain ⟨p, hp, hobj⟩ := List.mem_filterMap.1 ha
    have hnot := hnone p hp
    rw [hasKey, keySatisfies_eq hobj, decide_eq_true_iff] at hnot
    exact hnot
  cases hfind : (L 0).find? (s.hasKey cmp key k) with
  | none => exact Or.inl ⟨rfl, hother (L 0) (List.find?_eq_none.1 hfind)⟩
  | some x =>
      obtain ⟨u, v, hsplit, hx, hnone, -⟩ := find?_eq_some_split hfind
      obtain ⟨o, ho⟩ := Option.isSome_iff_exists.1 (h.obj 0 x (by simp [hsplit]))
      rw [hasKey, keySatisfies_eq ho, decide_eq_true_iff] at hx
      refine Or.inr ⟨x, o, s.objs u, s.objs v, rfl, ho, ?_, hx, hother u hnone⟩
      rw [hsplit, objs, List.filterMap_append, List.filterMap_cons, ho]
      rfl

/-- Every list that a run reaches satisfies the invariant and holds the objects of the stable
sorted list. -/
theorem Run.represents (hcmp : Comparator cmp) {calls : List (SklistCall K O)}
    (h : Run cmp key calls s) :
    0 < s.maxLevel ∧ ∃ L, Represents s cmp key L ∧
      s.objs (L 0) = StableList.run cmp key calls := by
  induction h with
  | init destroy hinit =>
      obtain ⟨hrep, hmax⟩ := represents_init cmp key hinit destroy
      exact ⟨hmax, _, hrep, rfl⟩
  | @insert calls s t hs o height malloc hpos hheight hcall ih =>
      obtain ⟨hmax, L, hrep, hobjs⟩ := ih
      obtain ⟨new, rfl, hnew⟩ := sklistInsert_eq_zero hrep.getKey hrep.cmpKey hcall
      obtain ⟨t', L', hcall', hrep', hmax', -, -, hcontents⟩ :=
        hrep.contents_sklistInsert hcmp hmax hpos hheight hnew o
      obtain rfl : t' = t := by
        rw [hcall'] at hcall
        simpa using hcall
      have hpos' : 0 < t'.maxLevel := hmax' ▸ hmax
      rw [hrep'.contents hpos', hobjs] at hcontents
      refine ⟨hpos', L', hrep', ?_⟩
      rw [StableList.run, List.foldl_concat, Option.some.inj hcontents]
      rfl
  | @delete calls s t hs k res hcall ih =>
      obtain ⟨hmax, L, hrep, hobjs⟩ := ih
      rw [StableList.run, List.foldl_concat, ← StableList.run]
      cases k with
      | none =>
          obtain ⟨-, rfl⟩ : 0 - 1 = res ∧ s = t := by simpa [Sklist.sklistDelete] using hcall
          exact ⟨hmax, L, hrep, hobjs⟩
      | some k =>
          obtain ⟨t', L', hcall', hrep', hmax', -, hcontents⟩ :=
            hrep.contents_sklistDelete hcmp hmax k
          obtain rfl : t' = t := by
            rw [hcall'] at hcall
            simp only [Option.some.injEq, Prod.mk.injEq] at hcall
            exact hcall.2
          have hpos' : 0 < t'.maxLevel := hmax' ▸ hmax
          rw [hrep'.contents hpos', hobjs] at hcontents
          exact ⟨hpos', L', hrep', Option.some.inj hcontents⟩

/-! ### A concrete run -/

theorem comparator_sub : Comparator fun a b : ℤ => a - b := by
  refine ⟨fun a b => ?_, fun a b c hab hbc => ?_⟩
  · omega
  · omega

/-- The list that a call which returns 0 leaves. -/
def succeed (r : Option (ℤ × Sklist K O)) : Option (Sklist K O) :=
  r.bind fun r => if r.1 = 0 then some r.2 else none

theorem succeed_eq_some {r : Option (ℤ × Sklist K O)} (h : succeed r = some t) :
    r = some (0, t) := by
  obtain ⟨⟨res, u⟩, rfl, hres⟩ := Option.bind_eq_some_iff.1 h
  simp only [Option.ite_none_right_eq_some, Option.some.injEq] at hres
  obtain ⟨rfl, rfl⟩ := hres
  rfl

/-- Two objects with the key 1 and one with the key 0, then the key 1 is deleted. -/
def sampleList : Option (Sklist ℤ (ℤ × ℤ)) := do
  let s ← sklistInit 2 true (some 0)
  let s := s.setFunctions (fun a b => a - b) Prod.fst true
  let s ← succeed (s.sklistInsert (some (1, 0)) 2 (some 1))
  let s ← succeed (s.sklistInsert (some (1, 1)) 1 (some 2))
  let s ← succeed (s.sklistInsert (some (0, 0)) 1 (some 3))
  succeed (s.sklistDelete (some 1))

theorem run_sampleList {s : Sklist ℤ (ℤ × ℤ)} (h : sampleList = some s) :
    Run (fun a b => a - b) Prod.fst
      [.insert (1, 0), .insert (1, 1), .insert (0, 0), .delete (some 1)] s := by
  simp only [sampleList, Option.bind_eq_bind, Option.bind_eq_some_iff] at h
  obtain ⟨s₀, h₀, s₁, h₁, s₂, h₂, s₃, h₃, h₄⟩ := h
  have hrun₀ : Run (fun a b : ℤ => a - b) Prod.fst [] _ := Run.init true h₀
  have hrun₁ := hrun₀.insert (by omega) (by obtain rfl := Option.some.inj h₀; decide)
    (succeed_eq_some h₁)
  have hrun₂ := hrun₁.insert le_rfl (hrun₁.represents comparator_sub).1 (succeed_eq_some h₂)
  have hrun₃ := hrun₂.insert le_rfl (hrun₂.represents comparator_sub).1 (succeed_eq_some h₃)
  exact hrun₃.delete (succeed_eq_some h₄)

/-! ### Results -/

/-- In every run, the list satisfies the representation invariant, iterating visits the bottom
list in both directions, and every further call returns. -/
theorem run_invariant (hcmp : Comparator cmp) {calls : List (SklistCall K O)}
    (h : Run cmp key calls s) :
    (∃ L, Represents s cmp key L ∧ s.sklistForeach = some (L 0) ∧
      s.sklistForeachReverse = some (L 0).reverse) ∧
    (∀ o height new, 1 ≤ height → height ≤ s.maxLevel → new ∉ s.heap →
      ∃ t, s.sklistInsert (some o) height (some new) = some (0, t)) ∧
    ∀ k, ∃ t, s.sklistDelete (some k) = some (0, t) := by
  obtain ⟨hmax, L, hrep, -⟩ := h.represents hcmp
  refine ⟨⟨L, hrep, hrep.sklistForeach hmax, hrep.sklistForeachReverse⟩, ?_, ?_⟩
  · intro o height new hpos hheight hnew
    obtain ⟨t, hcall, -⟩ := hrep.sklistInsert hcmp o hpos hheight hnew
    exact ⟨t, hcall⟩
  · intro k
    obtain ⟨t, hcall, -⟩ := hrep.sklistDelete hcmp k
    exact ⟨t, hcall⟩

theorem run_invariant_sampleList :
    ∃ s L, sampleList = some s ∧ Represents s (fun a b => a - b) Prod.fst L ∧ L 0 = [3, 2] := by
  have hlist : sampleList.bind Sklist.sklistForeach = some [3, 2] := by decide +kernel
  obtain ⟨s, hs, hforeach⟩ := Option.bind_eq_some_iff.1 hlist
  obtain ⟨⟨L, hrep, hL, -⟩, -⟩ := run_invariant comparator_sub (run_sampleList hs)
  exact ⟨s, L, hs, hrep, Option.some.inj (hL.symm.trans hforeach)⟩

/-- After any calls the objects are those of the stable sorted list, whatever heights were drawn.
An insertion puts its object behind those with a key that is not greater and before the others;
a deletion removes the first object with the key, if there is one, and destroys it. -/
theorem run_refines (hcmp : Comparator cmp) {calls : List (SklistCall K O)}
    (h : Run cmp key calls s) :
    ∃ l, s.contents = some l ∧ l = StableList.run cmp key calls ∧
      (∀ o height new, 1 ≤ height → height ≤ s.maxLevel → new ∉ s.heap →
        ∃ t l₁ l₂, s.sklistInsert (some o) height (some new) = some (0, t) ∧ l = l₁ ++ l₂ ∧
          (∀ a ∈ l₁, cmp (key a) (key o) ≤ 0) ∧ (∀ a ∈ l₂, 0 < cmp (key a) (key o)) ∧
          t.contents = some (l₁ ++ o :: l₂) ∧ t.size = s.size + 1 ∧
          t.destroyed = s.destroyed) ∧
      ∀ k, ∃ t, s.sklistDelete (some k) = some (0, t) ∧
        ((∃ l₁ o l₂, l = l₁ ++ o :: l₂ ∧ cmp k (key o) = 0 ∧ (∀ a ∈ l₁, cmp k (key a) ≠ 0) ∧
            t.contents = some (l₁ ++ l₂) ∧ t.size = s.size - 1 ∧
            t.destroyed = s.destroyed ++ if s.destroy then [o] else []) ∨
          (∀ a ∈ l, cmp k (key a) ≠ 0) ∧ t.contents = some l ∧ t.size = s.size ∧
            t.destroyed = s.destroyed) := by
  obtain ⟨hmax, L, hrep, hobjs⟩ := h.represents hcmp
  refine ⟨s.objs (L 0), hrep.contents hmax, hobjs, ?_, ?_⟩
  · intro o height new hpos hheight hnew
    obtain ⟨t, L', hcall, -, -, hdestroyed, hsize, hcontents⟩ :=
      hrep.contents_sklistInsert hcmp hmax hpos hheight hnew o
    have hup : UpClosed (fun a => decide (cmp (key o) (key a) < 0)) (s.objs (L 0)) :=
      hrep.sorted_objs.imp fun {a b} hab ha => hcmp.decide_lt (key o) (key a) (key b) ha hab
    rw [StableList.insert, hup.orderedInsert_eq] at hcontents
    refine ⟨t, _, _, hcall, hup.filter_append_filter.symm, fun a ha => ?_, fun a ha => ?_,
      hcontents, hsize, hdestroyed⟩
    · have hnot := (List.mem_filter.1 ha).2
      rw [Bool.not_eq_true', decide_eq_false_iff_not, not_lt] at hnot
      exact (hcmp.nonneg_iff _ _).1 hnot
    · exact (hcmp.neg_iff _ _).1 (of_decide_eq_true (List.mem_filter.1 ha).2)
  · intro k
    obtain ⟨t, L', hcall, -, -, hfreed, hcontents⟩ := hrep.contents_sklistDelete hcmp hmax k
    refine ⟨t, hcall, ?_⟩
    rcases find?_hasKey_cases hrep k with
      ⟨hfind, hnone⟩ | ⟨x, o, l₁, l₂, hfind, hobj, hsplit, ho, hfirst⟩
    · rw [hfind] at hfreed
      refine Or.inr ⟨hnone, ?_, hfreed.size, by simpa using hfreed.destroyed⟩
      rw [hcontents, StableList.delete, List.eraseP_of_forall_not]
      intro a ha
      simpa using hnone a ha
    · rw [hfind] at hfreed
      refine Or.inl ⟨l₁, o, l₂, hsplit, ho, hfirst, ?_, hfreed.size, ?_⟩
      · rw [hcontents, hsplit, StableList.delete, List.eraseP_append_right, List.eraseP_cons_of_pos]
        · simpa using ho
        · intro a ha
          simpa using hfirst a ha
      · rw [hfreed.destroyed]
        simp [hobj]

theorem run_refines_sampleList :
    ∃ s, sampleList = some s ∧ s.contents = some [(0, 0), (1, 1)] ∧ s.destroyed = [(1, 0)] := by
  have hdestroyed : sampleList.map (fun s => s.destroyed) = some [(1, 0)] := by decide +kernel
  obtain ⟨s, hs, hdestroyed⟩ := Option.map_eq_some_iff.1 hdestroyed
  obtain ⟨l, hcontents, hl, -⟩ := run_refines comparator_sub (run_sampleList hs)
  have hrun : StableList.run (fun a b : ℤ => a - b) Prod.fst
      [.insert (1, 0), .insert (1, 1), .insert (0, 0), .delete (some 1)] =
        [((0 : ℤ), (0 : ℤ)), (1, 1)] := by
    decide +kernel
  exact ⟨s, hs, hcontents.trans (congrArg some (hl.trans hrun)), hdestroyed⟩

end Sklist

end Miscellany
