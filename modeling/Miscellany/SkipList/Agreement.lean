import Miscellany.SkipList.Reachable
import Miscellany.SkipList.RecursiveDelete
import Miscellany.SkipList.RecursiveInsert
import Miscellany.SkipList.RecursiveSearch
import Miscellany.SkipList.Search

/-!
# The two skip lists on the same calls

The skip list of `skiplist.c`, with keys of type `int` and their comparison, and that of
`skiplist.r.c` are driven by the same calls and draw the same heights. They are meant to be
the same list: the same keys on each level, the same size, the same answer to each search.

The recursive functions fall short of this in some cases. On a list that never had a node
they read `link[-1]`; a search for the key -1 finds the head; `size` is decremented for a
key that is not there; a node that could not be allocated is used all the same; and
`max_level` is not checked. A run with none of these keeps the two lists in step
(`Paired.step`), and any call that does one of them ends the agreement (`Paired.sound`).
-/

namespace Miscellany

/-- A call made on both lists. They draw the same height for a new node, and each has the address
for it from its own `malloc`. -/
inductive PairCall (O : Type) where
  | insert (o : O) (height : ℕ) (malloc mallocR : Option NodeId)
  | delete (k : ℤ)
  | search (k : ℤ)

variable {O : Type}

/-- The answer of a search, which is whether it is a hit, and the list after the call. -/
def Sklist.step (s : Sklist ℤ O) : PairCall O → Option (Option Bool × Sklist ℤ O)
  | .insert o height malloc _ => (s.sklistInsert (some o) height malloc).map fun r => (none, r.2)
  | .delete k => (s.sklistDelete (some k)).map fun r => (none, r.2)
  | .search k => (s.sklistSearch (some k)).map fun r => (some r.isSome, s)

/-- The keys on the list of level `i`. -/
def Sklist.levelKeys (s : Sklist ℤ O) (key : O → ℤ) (i : ℕ) : Option (List ℤ) :=
  (s.foreachLoop (fun p => s.readLink p i) s.heap.length (s.readLink s.head i)).map fun nodes =>
    (s.objs nodes).map key

def SklistR.step (key : O → ℤ) (t : SklistR) : PairCall O → Option (Option Bool × SklistR)
  | .insert o height _ mallocR => (t.sklistInsert (key o) height mallocR).map fun t => (none, t)
  | .delete k => (t.sklistDelete k).map fun t => (none, t)
  | .search k => (t.sklistSearch k).map fun r => (some r.isSome, t)

/-- The key is on the bottom list. -/
def SklistR.Holds (t : SklistR) (k : ℤ) : Prop := k ∈ (t.levelKeys 0).getD []

instance (t : SklistR) (k : ℤ) : Decidable (t.Holds k) := inferInstanceAs (Decidable (_ ∈ _))

namespace PairCall

/-- What `rand_level` and the allocator promise: the height of a new node is in range, and an
address that is given out is not in use. -/
def Possible (s : Sklist ℤ O) (t : SklistR) : PairCall O → Prop
  | .insert _ height malloc mallocR =>
      1 ≤ height ∧ height ≤ s.maxLevel ∧ (∀ p ∈ malloc, p ∉ s.heap) ∧ ∀ p ∈ mallocR, p ∉ t.heap
  | .delete _ => True
  | .search _ => True

/-- The call does not reach one of the defects: the allocation succeeds, a key to be deleted is
there, and a search is made on a list that has had a node, for -1 only if this key is there. -/
def Sound (t : SklistR) : PairCall O → Prop
  | .insert _ _ malloc mallocR => malloc.isSome = true ∧ mallocR.isSome = true
  | .delete k => t.Holds k
  | .search k => 0 < t.level ∧ (k = -1 → t.Holds k)

instance (s : Sklist ℤ O) (t : SklistR) : ∀ c : PairCall O, Decidable (c.Possible s t)
  | .insert _ _ _ _ => inferInstanceAs (Decidable (_ ∧ _ ∧ _ ∧ _))
  | .delete _ => inferInstanceAs (Decidable True)
  | .search _ => inferInstanceAs (Decidable True)

instance (t : SklistR) : ∀ c : PairCall O, Decidable (c.Sound t)
  | .insert _ _ _ _ => inferInstanceAs (Decidable (_ ∧ _))
  | .delete k => inferInstanceAs (Decidable (t.Holds k))
  | .search k => inferInstanceAs (Decidable (_ ∧ (k = -1 → _)))

end PairCall

/-! ### Agreement -/

/-- The two lists are of the same size and have the same keys on each level. -/
structure Agree (key : O → ℤ) (s : Sklist ℤ O) (t : SklistR) : Prop where
  maxLevel : s.maxLevel = t.maxLevel
  size : s.size = t.size
  levelKeys : ∀ i < s.maxLevel,
    (s.levelKeys key i).isSome = true ∧ s.levelKeys key i = t.levelKeys i

instance (key : O → ℤ) (s : Sklist ℤ O) (t : SklistR) : Decidable (Agree key s t) :=
  decidable_of_iff (s.maxLevel = t.maxLevel ∧ s.size = t.size ∧ ∀ i < s.maxLevel,
    (s.levelKeys key i).isSome = true ∧ s.levelKeys key i = t.levelKeys i)
    ⟨fun h => ⟨h.1, h.2.1, h.2.2⟩, fun h => ⟨h.maxLevel, h.size, h.levelKeys⟩⟩

/-- The lists agree in every state of the run, and every call returns from both, with the same
answer. -/
def AgreeRun (key : O → ℤ) : Sklist ℤ O → SklistR → List (PairCall O) → Prop
  | s, t, [] => Agree key s t
  | s, t, c :: calls => Agree key s t ∧ ∃ r ∈ s.step c, ∃ r' ∈ t.step key c,
      r.1 = r'.1 ∧ AgreeRun key r.2 r'.2 calls

/-- The condition holds of every call, on the states before it. -/
def Along (key : O → ℤ) (p : Sklist ℤ O → SklistR → PairCall O → Prop) :
    Sklist ℤ O → SklistR → List (PairCall O) → Prop
  | _, _, [] => True
  | s, t, c :: calls => p s t c ∧ ∀ r ∈ s.step c, ∀ r' ∈ t.step key c, Along key p r.2 r'.2 calls

instance decidableAgreeRun (key : O → ℤ) :
    ∀ (calls : List (PairCall O)) (s : Sklist ℤ O) (t : SklistR),
      Decidable (AgreeRun key s t calls)
  | [], s, t => inferInstanceAs (Decidable (Agree key s t))
  | c :: calls, s, t =>
      have := decidableAgreeRun key calls
      inferInstanceAs (Decidable (_ ∧ ∃ r ∈ s.step c, ∃ r' ∈ t.step key c, _ ∧ _))

instance decidableAlong (key : O → ℤ) (p : Sklist ℤ O → SklistR → PairCall O → Prop)
    [∀ s t c, Decidable (p s t c)] :
    ∀ (calls : List (PairCall O)) (s : Sklist ℤ O) (t : SklistR),
      Decidable (Along key p s t calls)
  | [], _, _ => isTrue trivial
  | c :: calls, s, t =>
      have := decidableAlong key p calls
      inferInstanceAs (Decidable (p s t c ∧ ∀ r ∈ s.step c, ∀ r' ∈ t.step key c, _))

/-! ### Level lists -/

/-- The integers compared in the manner of C. -/
structure ComparesInt (cmp : ℤ → ℤ → ℤ) : Prop where
  lt_iff : ∀ a b, cmp a b < 0 ↔ a < b
  eq_iff : ∀ a b, cmp a b = 0 ↔ a = b

theorem ComparesInt.comparator {cmp : ℤ → ℤ → ℤ} (h : ComparesInt cmp) : Comparator cmp := by
  have hle : ∀ a b, cmp a b ≤ 0 ↔ a ≤ b := by
    intro a b
    rw [le_iff_lt_or_eq, le_iff_lt_or_eq, h.lt_iff, h.eq_iff]
  constructor
  · intro a b
    rw [h.lt_iff, ← not_le, ← not_le, hle]
  · intro a b c
    rw [hle, hle, hle]
    exact le_trans

namespace Sklist

variable {s : Sklist ℤ O} {L : ℕ → List NodeId} {cmp : ℤ → ℤ → ℤ} {key : O → ℤ} {i : ℕ}

theorem Represents.levelKeys (h : Represents s cmp key L) (hi : i < s.maxLevel) :
    s.levelKeys key i = some ((s.objs (L i)).map key) := by
  have hwalk : Walk (fun p => s.readLink p i) s.head (L i) s.head := by
    apply (walk_congr _).2 (h.walk i hi)
    intro p hp
    exact readLink_eq (h.toLinked.hasLink hi hp)
  have hloop := foreachLoop_eq hwalk (List.nodup_cons.1 (h.nodup i)).1 (h.length_lt i)
  rw [Sklist.levelKeys, hloop, Option.map_some]

/-- Every linked node has an object. -/
theorem Linked.length_objs (h : Linked s L) (i : ℕ) : (s.objs (L i)).length = (L i).length := by
  exact List.filterMap_length_eq_length.2 (h.obj i)

/-- A key is on the bottom list if a node there has it. -/
theorem exists_hasKey_iff (hcmp : ComparesInt cmp) (k : ℤ) (l : List NodeId) :
    (∃ x ∈ l, s.hasKey cmp key k x = true) ↔ k ∈ (s.objs l).map key := by
  rw [List.mem_map]
  constructor
  · rintro ⟨x, hx, hkey⟩
    cases ho : (s.node x).obj with
    | none => simp [hasKey, keySatisfies, ho] at hkey
    | some o =>
        rw [hasKey, keySatisfies_eq ho, decide_eq_true_iff, hcmp.eq_iff] at hkey
        exact ⟨o, List.mem_filterMap.2 ⟨x, hx, ho⟩, hkey.symm⟩
  · rintro ⟨o, ho, rfl⟩
    obtain ⟨x, hx, hobj⟩ := List.mem_filterMap.1 ho
    refine ⟨x, hx, ?_⟩
    rw [hasKey, keySatisfies_eq hobj, decide_eq_true_iff, hcmp.eq_iff]

theorem sklistInit_maxLevel {maxLevel : ℤ} {mallocList : Bool} {head : Option NodeId}
    (hinit : sklistInit maxLevel mallocList head = some s) : s.maxLevel = maxLevel.toNat := by
  unfold sklistInit at hinit
  split_ifs at hinit
  cases head with
  | none => cases hinit
  | some p => rw [← Option.some.inj hinit]

/-- Without memory for the new node, `sklist_insert` returns -1. -/
theorem sklistInsert_null (h : Represents s cmp key L) {o : O} {height : ℕ} :
    s.sklistInsert (some o) height none = some (-1, s.raiseLevel height) := by
  simp only [sklistInsert, h.getKey, h.cmpKey, newNode]

end Sklist

theorem SklistR.exists_hasKey_iff (t : SklistR) (k : ℤ) (l : List NodeId) :
    (∃ x ∈ l, t.hasKey k x = true) ↔ k ∈ l.map fun p => (t.node p).key := by
  rw [List.mem_map]
  apply exists_congr
  intro x
  rw [SklistR.hasKey, decide_eq_true_iff, eq_comm]

/-! ### The two lists in step -/

variable {cmp : ℤ → ℤ → ℤ} {key : O → ℤ} {s : Sklist ℤ O} {t : SklistR} {L M : ℕ → List NodeId}

/-- The lists have the level lists `L` and `M`, with the same keys. -/
structure Paired (cmp : ℤ → ℤ → ℤ) (key : O → ℤ) (s : Sklist ℤ O) (t : SklistR)
    (L M : ℕ → List NodeId) : Prop where
  list : s.Represents cmp key L
  listR : t.Represents M
  maxLevel : s.maxLevel = t.maxLevel
  pos : 0 < s.maxLevel
  keys : ∀ i, (s.objs (L i)).map key = (M i).map fun p => (t.node p).key

theorem Paired.agree (h : Paired cmp key s t L M) : Agree key s t := by
  constructor
  · exact h.maxLevel
  · have hlen := congrArg List.length (h.keys 0)
    rw [List.length_map, List.length_map, h.list.toLinked.length_objs] at hlen
    rw [h.list.size, h.listR.size, hlen]
  · intro i hi
    rw [h.list.levelKeys hi, h.listR.levelKeys (h.maxLevel ▸ hi), h.keys i]
    exact ⟨rfl, rfl⟩

theorem Paired.holds_iff (h : Paired cmp key s t L M) (k : ℤ) :
    t.Holds k ↔ ∃ x ∈ M 0, t.hasKey k x = true := by
  rw [SklistR.Holds, h.listR.levelKeys (h.maxLevel ▸ h.pos), Option.getD_some,
    SklistR.exists_hasKey_iff]

theorem Paired.holds_iff_list (hcmp : ComparesInt cmp) (h : Paired cmp key s t L M) (k : ℤ) :
    t.Holds k ↔ ∃ x ∈ L 0, s.hasKey cmp key k x = true := by
  rw [h.holds_iff, SklistR.exists_hasKey_iff, Sklist.exists_hasKey_iff hcmp, h.keys 0]

/-- What `sklist_init` makes of the same `max_level`. -/
theorem paired_init {maxLevel : ℤ} {mallocList mallocListR : Bool} {head headR : Option NodeId}
    (hinit : Sklist.sklistInit maxLevel mallocList head = some s)
    (hinitR : SklistR.sklistInit maxLevel mallocListR headR = some t) (destroy : Bool) :
    Paired cmp key (s.setFunctions cmp key destroy) t (fun _ => []) fun _ => [] := by
  obtain ⟨hlist, hpos⟩ := Sklist.represents_init cmp key hinit destroy
  obtain ⟨hlistR, hmax, -⟩ := SklistR.represents_sklistInit hinitR
  exact ⟨hlist, hlistR, (Sklist.sklistInit_maxLevel hinit).trans hmax.symm, hpos, fun _ => rfl⟩

/-! ### One call -/

/-- The keys after an insertion. -/
theorem Sklist.keys_insertLists {s' : Sklist ℤ O} {a : NodeId} {o : O}
    (hobj : (s'.node a).obj = some o) (hsame : ∀ p, p ≠ a → (s'.node p).obj = (s.node p).obj)
    (stop : ℤ → Bool) (height : ℕ) {i : ℕ} (hfresh : a ∉ L i) :
    (s'.objs (Sklist.insertLists (s.keySatisfies key stop) a height L i)).map key =
      if i < height then insertBefore stop (key o) ((s.objs (L i)).map key)
      else (s.objs (L i)).map key := by
  unfold Sklist.insertLists
  split_ifs
  · rw [Sklist.objs_insertBefore hobj hsame stop hfresh, map_insertBefore]
  · rw [Sklist.objs_congr]
    intro p hp
    apply hsame
    rintro rfl
    exact hfresh hp

theorem SklistR.keys_insertLists {t' : SklistR} {b : NodeId} {k : ℤ}
    (hkey : (t'.node b).key = k) (hsame : ∀ p, p ≠ b → (t'.node p).key = (t.node p).key)
    (stop : ℤ → Bool) (height : ℕ) {i : ℕ} (hfresh : b ∉ M i) :
    (Sklist.insertLists (fun p => stop (t.node p).key) b height M i).map
        (fun p => (t'.node p).key) =
      if i < height then insertBefore stop k ((M i).map fun p => (t.node p).key)
      else (M i).map fun p => (t.node p).key := by
  have hkeep : ∀ p ∈ M i, (t'.node p).key = (t.node p).key := by
    intro p hp
    apply hsame
    rintro rfl
    exact hfresh hp
  have hstop : ∀ p ∈ M i, stop (t.node p).key = stop (t'.node p).key := by
    intro p hp
    rw [hkeep p hp]
  unfold Sklist.insertLists
  split_ifs
  · rw [insertBefore_congr hstop, map_insertBefore (fun p => (t'.node p).key), hkey,
      List.map_congr_left hkeep]
  · exact List.map_congr_left hkeep

/-- Inserting with two addresses that are free. -/
theorem Paired.insert (hcmp : ComparesInt cmp) (h : Paired cmp key s t L M) (o : O) {height : ℕ}
    (hpos : 1 ≤ height) (hmax : height ≤ s.maxLevel) {a b : NodeId} (ha : a ∉ s.heap)
    (hb : b ∉ t.heap) :
    ∃ s' t' L' M', s.step (.insert o height (some a) (some b)) = some (none, s') ∧
      t.step key (.insert o height (some a) (some b)) = some (none, t') ∧
      Paired cmp key s' t' L' M' := by
  obtain ⟨s', hs, hlist, hobj, hsame, hmax', -⟩ :=
    h.list.sklistInsert hcmp.comparator o hpos hmax ha
  obtain ⟨t', ht, hlistR, hkey, hsameR, hmaxR, -⟩ :=
    h.listR.sklistInsert (key o) hpos (h.maxLevel ▸ hmax) hb
  refine ⟨s', t', _, _, by rw [Sklist.step, hs, Option.map_some],
    by rw [SklistR.step, ht, Option.map_some], hlist, hlistR, ?_, ?_, ?_⟩
  · rw [hmax', hmaxR, h.maxLevel]
  · rw [hmax']
    exact h.pos
  · intro i
    have hfresh : a ∉ L i := fun hmem => ha (h.list.mem i a hmem).1
    have hfreshR : b ∉ M i := fun hmem => hb (h.listR.mem i b hmem).1
    have hstop : (fun k => decide (cmp (key o) k < 0)) = fun k => decide (key o < k) := by
      funext k
      exact decide_eq_decide.2 (hcmp.lt_iff (key o) k)
    rw [Sklist.keys_insertLists hobj hsame _ height hfresh, hstop, h.keys i]
    exact (SklistR.keys_insertLists hkey hsameR (fun k => decide (key o < k)) height hfreshR).symm

/-- Deleting a key that is there. -/
theorem Paired.delete (hcmp : ComparesInt cmp) (h : Paired cmp key s t L M) {k : ℤ}
    (hk : t.Holds k) :
    ∃ s' t' L' M', s.step (.delete k) = some (none, s') ∧
      t.step key (.delete k : PairCall O) = some (none, t') ∧ Paired cmp key s' t' L' M' := by
  obtain ⟨s', hs, hlist, hfreed⟩ := h.list.sklistDelete hcmp.comparator k
  have hlevel : 0 < t.level := by
    obtain ⟨x, hx, -⟩ := (h.holds_iff k).1 hk
    exact h.listR.nonempty 0 (List.ne_nil_of_mem hx)
  obtain ⟨t', ht, -, hmaxR, hkeyR, hlistR⟩ := h.listR.sklistDelete hlevel k
  refine ⟨s', t', _, _, by rw [Sklist.step, hs, Option.map_some],
    by rw [SklistR.step, ht, Option.map_some], hlist, hlistR ((h.holds_iff k).1 hk), ?_, ?_, ?_⟩
  · rw [hfreed.maxLevel, hmaxR, h.maxLevel]
  · rw [hfreed.maxLevel]
    exact h.pos
  · intro i
    have hfound : ∀ k', decide (cmp k k' = 0) = decide (k = k') := fun k' =>
      decide_eq_decide.2 (hcmp.eq_iff k k')
    have hkeys : ((s'.objs ((L i).eraseP (s.hasKey cmp key k))).map key) =
        ((s.objs (L i)).map key).eraseP fun k' => decide (k = k') := by
      rw [Sklist.objs_congr fun p _ => hfreed.obj p, Sklist.hasKey, Sklist.objs_eraseP,
        List.eraseP_map]
      simp only [hfound, Function.comp_def]
    have hkeysR : ((M i).eraseP (t.hasKey k)).map (fun p => (t'.node p).key) =
        ((M i).map fun p => (t.node p).key).eraseP fun k' => decide (k = k') := by
      simp only [hkeyR, List.eraseP_map]
      rfl
    rw [hkeys, hkeysR, h.keys i]

/-- A search finds the keys that are there, and in `skiplist.r.c` also that of the head. -/
theorem Paired.search (hcmp : ComparesInt cmp) (h : Paired cmp key s t L M) (k : ℤ) :
    s.step (.search k) = some (some (decide (t.Holds k)), s) := by
  obtain ⟨r, hr, hresult⟩ := h.list.sklistSearch hcmp.comparator k
  rw [← h.holds_iff_list hcmp] at hresult
  have hhit : r.isSome = decide (t.Holds k) := by
    rw [Bool.eq_iff_iff, decide_eq_true_iff]
    exact hresult
  rw [Sklist.step, hr, Option.map_some, hhit]

theorem Paired.searchR (h : Paired cmp key s t L M) (hlevel : 0 < t.level) (k : ℤ) :
    t.step key (.search k : PairCall O) = some (some (decide (k = -1 ∨ t.Holds k)), t) := by
  obtain ⟨r, hr, hresult⟩ := h.listR.sklistSearch hlevel k
  rw [← h.holds_iff] at hresult
  have hhit : r.isSome = decide (k = -1 ∨ t.Holds k) := by
    rw [Bool.eq_iff_iff, decide_eq_true_iff]
    exact hresult
  rw [SklistR.step, hr, Option.map_some, hhit]

/-- A call that meets the condition returns from both lists with the same answer, and they are
still in step. -/
theorem Paired.step (hcmp : ComparesInt cmp) (h : Paired cmp key s t L M) {c : PairCall O}
    (hpossible : c.Possible s t) (hsound : c.Sound t) :
    ∃ r s' t' L' M', s.step c = some (r, s') ∧ t.step key c = some (r, t') ∧
      Paired cmp key s' t' L' M' := by
  cases c with
  | insert o height malloc mallocR =>
      obtain ⟨hpos, hmax, hfresh, hfreshR⟩ := hpossible
      obtain ⟨a, rfl⟩ := Option.isSome_iff_exists.1 hsound.1
      obtain ⟨b, rfl⟩ := Option.isSome_iff_exists.1 hsound.2
      exact ⟨none, h.insert hcmp o hpos hmax (hfresh a rfl) (hfreshR b rfl)⟩
  | delete k => exact ⟨none, h.delete hcmp hsound⟩
  | search k =>
      refine ⟨some (decide (t.Holds k)), s, t, L, M, h.search hcmp k, ?_, h⟩
      rw [h.searchR hsound.1, decide_eq_decide.2 (or_iff_right_of_imp hsound.2)]

/-- On a list that never had a node, there is no key. -/
theorem Paired.not_holds (h : Paired cmp key s t L M) (hlevel : t.level = 0) (k : ℤ) :
    ¬ t.Holds k := by
  rw [h.holds_iff]
  rintro ⟨x, hx, -⟩
  have hlt := h.listR.nonempty 0 (List.ne_nil_of_mem hx)
  omega

section Sound

variable {r : Option Bool × Sklist ℤ O} {r' : Option Bool × SklistR}

/-- Only one of the lists grows if one of them gets no memory, unless the recursive function uses
the null pointer. -/
theorem Paired.sound_insert (h : Paired cmp key s t L M) {o : O} {height : ℕ}
    {malloc mallocR : Option NodeId} (hpos : 1 ≤ height) (hmax : height ≤ s.maxLevel)
    (hfreshR : ∀ p ∈ mallocR, p ∉ t.heap)
    (hs : s.step (.insert o height malloc mallocR) = some r)
    (ht : t.step key (.insert o height malloc mallocR) = some r') (hagree : Agree key r.2 r'.2) :
    malloc.isSome = true ∧ mallocR.isSome = true := by
  have hsize : s.size = t.size := h.agree.size
  have hsize' : r.2.size = r'.2.size := hagree.size
  cases mallocR with
  | none => cases ht
  | some b =>
      refine ⟨?_, rfl⟩
      cases malloc with
      | some a => rfl
      | none =>
          obtain ⟨t', hcall, -, -, -, -, hgrow⟩ :=
            h.listR.sklistInsert (key o) hpos (h.maxLevel ▸ hmax) (hfreshR b rfl)
          rw [SklistR.step, hcall, Option.map_some] at ht
          obtain rfl := Option.some.inj ht
          rw [Sklist.step, Sklist.sklistInsert_null h.list, Option.map_some] at hs
          obtain rfl := Option.some.inj hs
          have hraise : (s.raiseLevel height).size = s.size := by rw [Sklist.raiseLevel_eq]
          have hcontra : s.size = t.size + 1 := hraise.symm.trans (hsize'.trans hgrow)
          omega

/-- Only the size of the recursive list falls if the key is not there. -/
theorem Paired.sound_delete (hcmp : ComparesInt cmp) (h : Paired cmp key s t L M) {k : ℤ}
    (hs : s.step (.delete k) = some r) (ht : t.step key (.delete k : PairCall O) = some r')
    (hagree : Agree key r.2 r'.2) : t.Holds k := by
  have hsize : s.size = t.size := h.agree.size
  have hsize' : r.2.size = r'.2.size := hagree.size
  by_contra hk
  by_cases hlevel : t.level = 0
  · have hfault : t.sklistDelete k = none := by
      rw [SklistR.sklistDelete, hlevel]
      rfl
    rw [SklistR.step, hfault] at ht
    cases ht
  · obtain ⟨t', hcall, hfall, -⟩ := h.listR.sklistDelete (Nat.pos_of_ne_zero hlevel) k
    rw [SklistR.step, hcall, Option.map_some] at ht
    obtain rfl := Option.some.inj ht
    obtain ⟨s', hcall', -, hfreed⟩ := h.list.sklistDelete hcmp.comparator k
    rw [Sklist.step, hcall', Option.map_some] at hs
    obtain rfl := Option.some.inj hs
    have hnone : (L 0).find? (s.hasKey cmp key k) = none := by
      rw [List.find?_eq_none]
      intro x hx hkey
      exact hk ((h.holds_iff_list hcmp k).2 ⟨x, hx, hkey⟩)
    have hkeep := hfreed.size
    rw [hnone] at hkeep
    have hcontra : s.size = t.size - 1 := hkeep.symm.trans (hsize'.trans hfall)
    omega

/-- The recursive function leaves the link array on a list without levels, and otherwise finds the
key of the head. -/
theorem Paired.sound_search (hcmp : ComparesInt cmp) (h : Paired cmp key s t L M) {k : ℤ}
    (hs : s.step (.search k) = some r) (ht : t.step key (.search k : PairCall O) = some r')
    (hr : r.1 = r'.1) : 0 < t.level ∧ (k = -1 → t.Holds k) := by
  rw [h.search hcmp k] at hs
  obtain rfl := Option.some.inj hs
  by_cases hlevel : t.level = 0
  · have hempty := h.not_holds hlevel k
    have hcall : t.sklistSearch k = if -1 = k then some (some t.head) else none := by
      rw [SklistR.sklistSearch, hlevel, SklistR.searchNode,
        SklistR.readKey_eq h.listR.headMem, h.listR.headKey]
      rfl
    rw [SklistR.step, hcall] at ht
    split_ifs at ht with hk
    · obtain rfl := Option.some.inj ht
      simp [hempty] at hr
    · cases ht
  · have hpos := Nat.pos_of_ne_zero hlevel
    rw [h.searchR hpos k] at ht
    obtain rfl := Option.some.inj ht
    refine ⟨hpos, ?_⟩
    intro hk
    simpa [hk] using hr

/-- If the two lists return from a call with the same answer and agree after it, the call meets the
condition. -/
theorem Paired.sound (hcmp : ComparesInt cmp) (h : Paired cmp key s t L M) {c : PairCall O}
    (hpossible : c.Possible s t) (hs : s.step c = some r) (ht : t.step key c = some r')
    (hr : r.1 = r'.1) (hagree : Agree key r.2 r'.2) : c.Sound t := by
  cases c with
  | insert o height malloc mallocR =>
      obtain ⟨hpos, hmax, -, hfreshR⟩ := hpossible
      exact h.sound_insert hpos hmax hfreshR hs ht hagree
  | delete k => exact h.sound_delete hcmp hs ht hagree
  | search k => exact h.sound_search hcmp hs ht hr

end Sound

/-! ### Runs -/

theorem AgreeRun.agree {calls : List (PairCall O)} (h : AgreeRun key s t calls) :
    Agree key s t := by
  cases calls with
  | nil => exact h
  | cons c calls => exact h.1

/-- From lists in step, the agreement holds along a run exactly if every call meets the
condition. -/
theorem Paired.agreeRun_iff_sound (hcmp : ComparesInt cmp) (h : Paired cmp key s t L M)
    {calls : List (PairCall O)}
    (hpossible : Along key (fun s t c => c.Possible s t) s t calls) :
    AgreeRun key s t calls ↔ Along key (fun _ t c => c.Sound t) s t calls := by
  induction calls generalizing s t L M with
  | nil => exact iff_of_true h.agree trivial
  | cons c calls ih =>
      obtain ⟨hc, hrest⟩ := hpossible
      constructor
      · rintro ⟨-, r, hs, r', ht, hr, hrun⟩
        have hsound := h.sound hcmp hc hs ht hr hrun.agree
        obtain ⟨answer, s', t', L', M', hs', ht', hpaired⟩ := h.step hcmp hc hsound
        obtain rfl : (answer, s') = r := Option.some.inj (hs'.symm.trans hs)
        obtain rfl : (answer, t') = r' := Option.some.inj (ht'.symm.trans ht)
        refine ⟨hsound, ?_⟩
        intro q hq q' hq'
        obtain rfl : (answer, s') = q := Option.some.inj (hs'.symm.trans hq)
        obtain rfl : (answer, t') = q' := Option.some.inj (ht'.symm.trans hq')
        exact (ih hpaired (hrest _ hs' _ ht')).1 hrun
      · rintro ⟨hsound, hlater⟩
        obtain ⟨r, s', t', L', M', hs, ht, hpaired⟩ := h.step hcmp hc hsound
        refine ⟨h.agree, (r, s'), hs, (r, t'), ht, rfl, ?_⟩
        exact (ih hpaired (hrest _ hs _ ht)).2 (hlater _ hs _ ht)

/-- A new list of each kind, at the addresses given for the heads, with the functions of the first
one set. -/
def sklistInits (cmp : ℤ → ℤ → ℤ) (key : O → ℤ) (destroy : Bool) (maxLevel : ℤ)
    (head headR : NodeId) : Option (Sklist ℤ O × SklistR) := do
  let s ← Sklist.sklistInit maxLevel true (some head)
  let t ← SklistR.sklistInit maxLevel true (some headR)
  some (s.setFunctions cmp key destroy, t)

/-- The two functions make a list of at least one level. -/
theorem sklistInits_isSome_iff (cmp : ℤ → ℤ → ℤ) (key : O → ℤ) (destroy : Bool) (maxLevel : ℤ)
    (head headR : NodeId) :
    (sklistInits cmp key destroy maxLevel head headR).isSome = true ↔ 1 ≤ maxLevel := by
  by_cases hpos : maxLevel ≤ 0
  · apply iff_of_false
    · simp [sklistInits, Sklist.sklistInit, hpos]
    · omega
  · have hneg : ¬ maxLevel < 0 := by omega
    apply iff_of_true
    · simp [sklistInits, Sklist.sklistInit, SklistR.sklistInit, hpos, hneg]
    · omega

theorem paired_sklistInits {destroy : Bool} {maxLevel : ℤ} {head headR : NodeId}
    {pair : Sklist ℤ O × SklistR}
    (hpair : sklistInits cmp key destroy maxLevel head headR = some pair) :
    Paired cmp key pair.1 pair.2 (fun _ => []) fun _ => [] := by
  simp only [sklistInits, Option.bind_eq_bind, Option.bind_eq_some_iff, Option.some.injEq] at hpair
  obtain ⟨s, hinit, t, hinitR, rfl⟩ := hpair
  exact paired_init hinit hinitR destroy

/-- From `sklist_init` on, with any calls, heights and addresses, the two lists have the same keys
on every level, the same size and the same answers, and no call of the recursive functions leaves
its link arrays, exactly if there is a level and every call meets the condition. -/
theorem agreeRun_iff (hcmp : ComparesInt cmp) (destroy : Bool) (maxLevel : ℤ)
    (head headR : NodeId) (calls : List (PairCall O))
    (hpossible : ∀ pair ∈ sklistInits cmp key destroy maxLevel head headR,
      Along key (fun s t c => c.Possible s t) pair.1 pair.2 calls) :
    (∃ pair ∈ sklistInits cmp key destroy maxLevel head headR,
        AgreeRun key pair.1 pair.2 calls) ↔
      1 ≤ maxLevel ∧ ∀ pair ∈ sklistInits cmp key destroy maxLevel head headR,
        Along key (fun _ t c => c.Sound t) pair.1 pair.2 calls := by
  have hmade := sklistInits_isSome_iff cmp key destroy maxLevel head headR
  have hrun : ∀ pair ∈ sklistInits cmp key destroy maxLevel head headR,
      (AgreeRun key pair.1 pair.2 calls ↔
        Along key (fun _ t c => c.Sound t) pair.1 pair.2 calls) := by
    intro pair hpair
    exact (paired_sklistInits hpair).agreeRun_iff_sound hcmp (hpossible pair hpair)
  constructor
  · rintro ⟨pair, hpair, hagree⟩
    refine ⟨hmade.1 (Option.isSome_iff_exists.2 ⟨pair, hpair⟩), ?_⟩
    intro other hother
    obtain rfl : pair = other := Option.mem_unique hpair hother
    exact (hrun pair hpair).1 hagree
  · rintro ⟨hlevel, hsound⟩
    obtain ⟨pair, hpair⟩ := Option.isSome_iff_exists.1 (hmade.2 hlevel)
    exact ⟨pair, hpair, (hrun pair hpair).2 (hsound pair hpair)⟩

theorem comparesInt_sub : ComparesInt fun a b : ℤ => a - b := by
  constructor
  · intro a b
    omega
  · intro a b
    omega

/-- Two nodes, the higher one with the key of the head, are searched for and deleted. -/
theorem agreeRun_iff_twoNodes :
    ∃ pair ∈ sklistInits (fun a b => a - b) (fun o : ℤ => o) false 2 0 0,
      AgreeRun (fun o => o) pair.1 pair.2
        [.insert 1 1 (some 1) (some 3), .insert (-1) 2 (some 2) (some 4), .search (-1), .search 4,
          .delete (-1), .delete 1, .search 1] := by
  apply (agreeRun_iff comparesInt_sub false 2 0 0 _ _).2
  · decide +kernel
  · decide +kernel

/-- On a new list a search reads `link[-1]`, where `skiplist.c` answers that there is no such key.
With the key 1 on the list, the search for -1 finds the head, and deleting 7 leaves the size 0. -/
theorem not_agreeRun :
    ∃ pair ∈ sklistInits (fun a b => a - b) (fun o : ℤ => o) false 2 0 0,
      ∀ calls ∈ [[.search 5], [.insert 1 1 (some 1) (some 1), .search (-1)],
          [.insert 1 1 (some 1) (some 1), .delete 7]],
        Along (fun o => o) (fun s t c => PairCall.Possible s t c) pair.1 pair.2 calls ∧
          ¬ AgreeRun (fun o => o) pair.1 pair.2 calls := by
  decide +kernel

end Miscellany
