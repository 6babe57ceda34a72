import Miscellany.SkipList.Insert

/-!
# Deleting from the skip list

On each level, `sklist_delete` unlinks the first node with the key. With several nodes
of one key these need not be the same node on all levels, but the node unlinked from the
bottom list, which is destroyed, is on no other level any more: where it is on a level, it
is the first one there too. On sequences of nodes, each level list loses its first match,
and this keeps the levels nested.

A level list that becomes empty is the topmost one that was not, because those above it
have become empty before; so decrementing `level` once for each keeps it the number of
levels in use.
-/

namespace Miscellany

namespace Sklist

variable {K O : Type} {s t : Sklist K O} {L : ℕ → List NodeId} {i : ℕ}

/-! ### One level -/

/-- The last node of a prefix links to itself only if it is the head of an empty list. -/
theorem getLastD_eq_headD_iff {h : NodeId} {l m : List NodeId} (hnodup : (h :: (l ++ m)).Nodup) :
    l.getLastD h = m.headD h ↔ l ++ m = [] := by
  constructor
  · intro heq
    rw [← List.cons_append] at hnodup
    have hlast := getLastD_mem_cons h l
    cases m with
    | nil =>
        rw [List.headD_nil] at heq
        cases l with
        | nil => rfl
        | cons x l =>
            rw [List.getLastD_cons] at heq
            have hmem := getLastD_mem_cons x l
            rw [heq] at hmem
            rw [List.append_nil] at hnodup
            exact absurd hmem (List.nodup_cons.1 hnodup).1
    | cons y m =>
        rw [heq, List.headD_cons] at hlast
        exact absurd rfl ((List.nodup_append.1 hnodup).2.2 y hlast y (by simp))
  · intro hnil
    obtain ⟨rfl, rfl⟩ := List.append_eq_nil_iff.1 hnil
    rfl

/-- Unlinking the node behind the prefix `l` from its level list. -/
def cutLevel (s : Sklist K O) (i : ℕ) (l m : List NodeId) : Sklist K O :=
  { s.setLink (l.getLastD s.head) i (m.headD s.head) with
    level := if l ++ m = [] then s.level - 1 else s.level }

theorem freed_cutLevel (s : Sklist K O) (i : ℕ) (l m : List NodeId) :
    Freed s (s.cutLevel i l m) none :=
  (linksOnly_setLink s _ i _).freed _

section Cut

variable {l m : List NodeId} {x : NodeId}

theorem Linked.walk_cutLevel (h : Linked s L) (hi : i < s.maxLevel) (hL : L i = l ++ x :: m) :
    Walk ((s.cutLevel i l m).linkAt i) s.head (l ++ m) s.head := by
  have hwalk := h.walk i hi
  have hnodup := h.nodup i
  rw [hL] at hwalk hnodup
  have hcut := walk_cut hwalk hnodup
  rw [← linkAt_setLink_self] at hcut
  exact hcut

theorem linkAt_cutLevel_of_ne {j : ℕ} (hji : j ≠ i) :
    (s.cutLevel i l m).linkAt j = s.linkAt j :=
  linkAt_setLink_of_ne s _ _ hji

/-- The members of the rest of a level list. -/
theorem Linked.mem_cut (h : Linked s L) (hL : L i = l ++ x :: m) :
    ∀ p ∈ l ++ m, s.HasLink p i ∧ (s.node p).obj.isSome := by
  intro p hp
  have hmem : p ∈ L i := by
    rw [hL]
    exact List.perm_middle.mem_iff.2 (List.mem_cons_of_mem x hp)
  exact ⟨h.mem i p hmem, h.obj i p hmem⟩

/-- Above the bottom level nothing else is to be done. -/
theorem Linked.cutLevel (h : Linked s L) (hi : i < s.maxLevel) (hL : L i = l ++ x :: m)
    (hzero : i ≠ 0) : Linked (s.cutLevel i l m) (Function.update L i (l ++ m)) := by
  have hnodup := h.nodup i
  rw [hL] at hnodup
  refine h.update (s.freed_cutLevel i l m) (h.walk_cutLevel hi hL)
    (fun j hj => linkAt_cutLevel_of_ne hj) (nodup_splice_iff.1 hnodup).2 (h.mem_cut hL) ?_ (by simp)
  rw [Function.update_of_ne (Ne.symm hzero)]
  have hprev : (s.cutLevel i l m).prevAt = s.prevAt := prevAt_setLink s _ i _
  rw [hprev]
  exact h.prev

/-- The bottom level: the link backwards, freeing the node and counting. -/
def cutBottom (s : Sklist K O) (l m : List NodeId) (x : NodeId) : Sklist K O :=
  { ((s.cutLevel 0 l m).setPrev (m.headD s.head) (l.getLastD s.head)).destroyNode x with
    size := s.size - 1 }

theorem freed_cutBottom (s : Sklist K O) (l m : List NodeId) (x : NodeId) :
    Freed s (s.cutBottom l m x) (some x) := by
  have honly := linksOnly_setPrev (s.cutLevel 0 l m) (m.headD s.head) (l.getLastD s.head)
  have hcut := s.freed_cutLevel 0 l m
  refine ⟨?_, fun p => ?_, fun p => ?_, ?_, rfl, ?_⟩
  · rfl
  · exact (honly.level p).trans (hcut.height p)
  · exact (honly.obj p).trans (hcut.obj p)
  · rfl
  · change s.destroyed ++ (if s.destroy then _ else []) = _
    rw [honly.obj, hcut.obj]
    rfl

/-- Read backwards, the node is cut out behind the nodes that follow it. -/
theorem Linked.walk_prev_cutBottom (h : Linked s L) (hL : L 0 = l ++ x :: m) :
    Walk (s.cutBottom l m x).prevAt s.head (l ++ m).reverse s.head := by
  have hback := h.prev
  have hnodup := h.nodup 0
  rw [hL] at hback hnodup
  have hsplit : (l ++ x :: m).reverse = m.reverse ++ x :: l.reverse := by simp
  have hnodup' : (s.head :: (m.reverse ++ x :: l.reverse)).Nodup := by
    rw [← hsplit, List.nodup_cons, List.nodup_reverse, List.mem_reverse]
    exact List.nodup_cons.1 hnodup
  rw [hsplit] at hback
  have hcut := walk_cut hback hnodup'
  have hprev : (s.cutBottom l m x).prevAt =
      Function.update s.prevAt (m.headD s.head) (some (l.getLastD s.head)) := by
    change ((s.cutLevel 0 l m).setPrev _ _).prevAt = _
    rw [prevAt_setPrev]
    exact congrArg (fun f => Function.update f _ _) (prevAt_setLink s _ 0 _)
  rw [headD_reverse, getLastD_reverse, ← hprev, ← List.reverse_append] at hcut
  exact hcut

/-- On the bottom level the node is freed; it must be on no other level. -/
theorem Linked.cutBottom (h : Linked s L) (hi : 0 < s.maxLevel) (hL : L 0 = l ++ x :: m)
    (hgone : ∀ j, j ≠ 0 → x ∉ L j) :
    Linked (s.cutBottom l m x) (Function.update L 0 (l ++ m)) := by
  have hnodup := h.nodup 0
  rw [hL] at hnodup
  obtain ⟨hx, hnodup'⟩ := nodup_splice_iff.1 hnodup
  have hlink : ∀ j, (s.cutBottom l m x).linkAt j = (s.cutLevel 0 l m).linkAt j := fun j =>
    linkAt_setPrev (s.cutLevel 0 l m) _ _ j
  refine h.update (s.freed_cutBottom l m x) ?_ (fun j hj => ?_) hnodup' (h.mem_cut hL) ?_ ?_
  · rw [hlink]
    exact h.walk_cutLevel hi hL
  · rw [hlink]
    exact linkAt_cutLevel_of_ne hj
  · rw [Function.update_self]
    exact h.walk_prev_cutBottom hL
  · intro y hy j
    obtain rfl : x = y := Option.some.inj hy
    by_cases hj : j = 0
    · subst hj
      rw [Function.update_self]
      exact hx
    · rw [Function.update_of_ne hj, List.mem_cons, not_or]
      exact ⟨fun heq => hx (heq ▸ List.mem_cons_self), hgone j hj⟩

end Cut

/-- The body of the loop of `sklist_delete` behind the inner loop, at the end of the list. -/
theorem Linked.deleteLink_last (h : Linked s L) (hi : i < s.maxLevel) (getKey : O → K)
    (found : K → Bool) :
    s.deleteLink getKey found i ((L i).getLastD s.head) = some s := by
  have hread := h.readLink hi (List.append_nil (L i)).symm
  rw [List.headD_nil] at hread
  simp only [Sklist.deleteLink, hread, Option.bind_eq_bind, Option.bind_some, if_true]

section Body

variable {l m : List NodeId} {x : NodeId}

/-- Before a node with another key. -/
theorem Linked.deleteLink_of_not_found (h : Linked s L) (hi : i < s.maxLevel)
    (hL : L i = l ++ x :: m) (getKey : O → K) {found : K → Bool}
    (hx : s.keySatisfies getKey found x = false) :
    s.deleteLink getKey found i (l.getLastD s.head) = some s := by
  have hmem : x ∈ L i := by simp [hL]
  have hread := h.readLink hi hL
  obtain ⟨k, hkey, hfound⟩ := h.readKey hmem getKey
  rw [List.headD_cons] at hread
  rw [hfound] at hx
  simp only [Sklist.deleteLink, hread, Option.bind_eq_bind, Option.bind_some,
    if_neg (h.ne_head hmem), hkey, hx, Bool.false_eq_true, if_false]

theorem cutLevel_eq (hnodup : (s.head :: (l ++ m)).Nodup) :
    (if l.getLastD s.head = m.headD s.head then
      { s.setLink (l.getLastD s.head) i (m.headD s.head) with
        level := (s.setLink (l.getLastD s.head) i (m.headD s.head)).level - 1 }
      else s.setLink (l.getLastD s.head) i (m.headD s.head)) = s.cutLevel i l m := by
  unfold cutLevel
  have hiff := getLastD_eq_headD_iff hnodup
  by_cases heq : l.getLastD s.head = m.headD s.head
  · rw [if_pos heq, if_pos (hiff.1 heq)]
    rfl
  · rw [if_neg heq, if_neg fun hnil => heq (hiff.2 hnil)]
    rfl

/-- Before a node with the key. -/
theorem Linked.deleteLink_of_found (h : Linked s L) (hi : i < s.maxLevel)
    (hL : L i = l ++ x :: m) (getKey : O → K) {found : K → Bool}
    (hx : s.keySatisfies getKey found x = true) :
    s.deleteLink getKey found i (l.getLastD s.head) =
      some (if i = 0 then s.cutBottom l m x else s.cutLevel i l m) := by
  have hmem : x ∈ L i := by simp [hL]
  have hread := h.readLink hi hL
  have hL' : L i = (l ++ [x]) ++ m := by simp [hL]
  have hreadRest := h.readLink hi hL'
  obtain ⟨k, hkey, hfound⟩ := h.readKey hmem getKey
  rw [List.headD_cons] at hread
  rw [List.getLastD_concat] at hreadRest
  rw [hfound] at hx
  have hnodup := h.nodup i
  rw [hL] at hnodup
  obtain ⟨hxcut, hnodup'⟩ := nodup_splice_iff.1 hnodup
  have hlinkNode : s.HasLink (l.getLastD s.head) i := by
    refine h.hasLink hi ?_
    rw [hL]
    exact getLastD_mem_append s.head l (x :: m)
  have hreadNode : (s.setLink (l.getLastD s.head) i (m.headD s.head)).readLink
      (l.getLastD s.head) i = some (m.headD s.head) := by
    rw [readLink_eq ((linksOnly_setLink s _ i _).hasLink.2 hlinkNode), linkAt_setLink_self,
      Function.update_self]
  simp only [Sklist.deleteLink, hread, Option.bind_eq_bind, Option.bind_some,
    if_neg (h.ne_head hmem), hkey, hx, if_true, hreadRest, writeLink_eq hlinkNode, hreadNode,
    cutLevel_eq hnodup']
  by_cases hzero : i = 0
  · subst hzero
    have hcut := s.freed_cutLevel 0 l m
    have hreadX : (s.cutLevel 0 l m).readLink x 0 = some (m.headD s.head) := by
      have hlinkX : (s.cutLevel 0 l m).HasLink x 0 := by
        rw [HasLink, hcut.heap, hcut.height]
        exact h.mem 0 x hmem
      have hxnode : x ≠ l.getLastD s.head := fun heq =>
        hxcut (heq ▸ getLastD_mem_append s.head l m)
      rw [readLink_eq hlinkX]
      change (s.setLink (l.getLastD s.head) 0 (m.headD s.head)).linkAt 0 x = _
      rw [linkAt_setLink_self, Function.update_of_ne hxnode, ← readLink_eq (h.mem 0 x hmem)]
      exact hreadRest
    have hheap : m.headD s.head ∈ (s.cutLevel 0 l m).heap := by
      have hmemRest : m.headD s.head ∈ s.head :: L 0 := by
        rw [hL']
        exact headD_mem_append s.head (l ++ [x]) m
      rw [hcut.heap]
      exact h.mem_heap hmemRest
    simp only [if_true, hreadX, Option.bind_some, writePrev_eq hheap]
    rfl
  · simp only [if_neg hzero]

end Body

/-- One round of the loop, behind the inner loop: the level list loses its first match. -/
theorem Linked.deleteLink (h : Linked s L) (hi : i < s.maxLevel) {p : NodeId → Bool}
    (getKey : O → K) (found : K → Bool) (hup : UpClosed p (L i))
    (hqp : ∀ a ∈ L i, s.keySatisfies getKey found a = true → p a = true)
    (hfirst : ∀ b rest, (L i).filter p = b :: rest → s.keySatisfies getKey found b = false →
      ∀ a ∈ rest, s.keySatisfies getKey found a = false)
    (hgone : i = 0 → ∀ x, (L 0).find? (s.keySatisfies getKey found) = some x →
      ∀ j, j ≠ 0 → x ∉ L j) :
    ∃ t, s.deleteLink getKey found i (((L i).filter fun a => !p a).getLastD s.head) = some t ∧
      Freed s t (if i = 0 then (L 0).find? (s.keySatisfies getKey found) else none) ∧
      Linked t (Function.update L i ((L i).eraseP (s.keySatisfies getKey found))) ∧
      t.level = if L i ≠ [] ∧ (L i).eraseP (s.keySatisfies getKey found) = [] then s.level - 1
        else s.level := by
  set q := s.keySatisfies getKey found with hq
  set l := (L i).filter fun a => !p a with hl
  have hsplit := hup.filter_append_filter.symm
  rw [← hl] at hsplit
  rcases hup.eraseP_cases hqp hfirst with ⟨hend, hnone⟩ | ⟨x, rest, hm, hx, hfind, herase⟩
  -- Without a match nothing is written.
  · have heq : s.deleteLink getKey found i (l.getLastD s.head) = some s := by
      rcases hend with hm | ⟨x, rest, hm, hx⟩
      · rw [hm, List.append_nil] at hsplit
        rw [← hsplit]
        exact h.deleteLink_last hi getKey found
      · rw [hm] at hsplit
        exact h.deleteLink_of_not_found hi hsplit getKey hx
    have hself := List.eraseP_of_forall_not hnone
    have hlevel : ¬ (L i ≠ [] ∧ L i = []) := fun hc => hc.1 hc.2
    rw [hself, Function.update_eq_self, if_neg hlevel]
    refine ⟨s, heq, ?_, h, rfl⟩
    split_ifs with hzero
    · subst hzero
      rw [List.find?_eq_none.2 hnone]
      exact Freed.refl s
    · exact Freed.refl s
  · rw [hm] at hsplit
    have heq := h.deleteLink_of_found hi hsplit getKey hx
    have hnonempty : L i ≠ [] := by
      rw [hsplit]
      simp
    have hlevel : (if L i ≠ [] ∧ l ++ rest = [] then s.level - 1 else s.level) =
        if l ++ rest = [] then s.level - 1 else s.level :=
      if_congr (and_iff_right hnonempty) rfl rfl
    rw [herase, hlevel]
    by_cases hzero : i = 0
    · subst hzero
      rw [if_pos rfl] at heq ⊢
      rw [hfind]
      exact ⟨_, heq, s.freed_cutBottom l rest x, h.cutBottom hi hsplit (hgone rfl x hfind), rfl⟩
    · rw [if_neg hzero] at heq ⊢
      exact ⟨_, heq, s.freed_cutLevel i l rest, h.cutLevel hi hsplit hzero, rfl⟩

/-! ### All levels -/

/-- The level lists, of which those from `i` on have lost their first match. -/
def eraseLists (q : NodeId → Bool) (L : ℕ → List NodeId) (i j : ℕ) : List NodeId :=
  if j < i then L j else (L j).eraseP q

variable {q : NodeId → Bool}

theorem eraseLists_succ_self (q : NodeId → Bool) (L : ℕ → List NodeId) (i : ℕ) :
    eraseLists q L (i + 1) i = L i := if_pos (Nat.lt_succ_self i)

theorem update_eraseLists (q : NodeId → Bool) (L : ℕ → List NodeId) (i : ℕ) :
    Function.update (eraseLists q L (i + 1)) i ((L i).eraseP q) = eraseLists q L i := by
  funext j
  rcases Nat.lt_trichotomy j i with hj | hj | hj
  · rw [Function.update_of_ne (by omega), eraseLists, eraseLists, if_pos (by omega), if_pos hj]
  · subst hj
    rw [Function.update_self, eraseLists, if_neg (lt_irrefl j)]
  · rw [Function.update_of_ne (by omega), eraseLists, eraseLists, if_neg (by omega),
      if_neg (by omega)]

/-- The level lists from `i` on have lost their first match, so a list that becomes empty is the
last one that was not. -/
theorem eraseLists_nonempty (hnested : ∀ j, (L (j + 1)).Sublist (L j)) {n : ℕ}
    (hlevel : ∀ j, eraseLists q L (i + 1) j ≠ [] ↔ j < n) (j : ℕ) :
    eraseLists q L i j ≠ [] ↔ j < if L i ≠ [] ∧ (L i).eraseP q = [] then n - 1 else n := by
  have hself := hlevel i
  have hj := hlevel j
  rw [eraseLists_succ_self] at hself
  by_cases hempty : L i ≠ [] ∧ (L i).eraseP q = []
  · have hlast : ¬ i + 1 < n := by
      rw [← hlevel, eraseLists, if_neg (lt_irrefl _), not_not]
      have hsub := (hnested i).eraseP (p := q)
      rw [hempty.2, List.sublist_nil] at hsub
      exact hsub
    have hn : n = i + 1 := by
      have hlt := hself.1 hempty.1
      omega
    rw [if_pos hempty, hn, Nat.add_sub_cancel]
    rw [hn] at hj
    rcases Nat.lt_trichotomy j i with hji | hji | hji
    · rw [eraseLists, if_pos (by omega)] at hj ⊢
      rw [hj]
      omega
    · subst hji
      rw [eraseLists, if_neg (lt_irrefl j), hempty.2]
      simp
    · rw [eraseLists, if_neg (by omega)] at hj ⊢
      rw [hj]
      omega
  · rw [if_neg hempty]
    by_cases hji : j = i
    · subst hji
      rw [eraseLists, if_neg (lt_irrefl j), ← hself]
      refine ⟨fun hne hnil => hne (by rw [hnil]; rfl), fun hne hnil => hempty ⟨hne, hnil⟩⟩
    · rw [← hj, ← update_eraseLists, Function.update_of_ne hji]

section Loop

variable {cmp : K → K → ℤ} {key : O → K} {s₀ : Sklist K O}

/-- The nodes whose key is not less than `k`. -/
def notBelow (s : Sklist K O) (cmp : K → K → ℤ) (key : O → K) (k : K) : NodeId → Bool :=
  s.keySatisfies key fun a => cmp k a ≤ 0

/-- The nodes whose key is `k`. -/
def hasKey (s : Sklist K O) (cmp : K → K → ℤ) (key : O → K) (k : K) : NodeId → Bool :=
  s.keySatisfies key fun a => cmp k a = 0

theorem hasKey_notBelow {k : K} {a : NodeId} (ha : s.hasKey cmp key k a = true) :
    s.notBelow cmp key k a = true := by
  cases ho : (s.node a).obj with
  | none => simp [hasKey, keySatisfies, ho] at ha
  | some o =>
      rw [hasKey, keySatisfies_eq ho, decide_eq_true_iff] at ha
      rw [notBelow, keySatisfies_eq ho, decide_eq_true_iff]
      exact ha.le

/-- Behind a node with a greater key no node has the key. -/
theorem hasKey_eq_false (hcmp : Comparator cmp) {k : K} {a b : NodeId}
    (hle : s.KeyLe cmp key b a) (hbelow : s.notBelow cmp key k b = true)
    (hb : s.hasKey cmp key k b = false) : s.hasKey cmp key k a = false := by
  cases hob : (s.node b).obj with
  | none => simp [notBelow, keySatisfies, hob] at hbelow
  | some o =>
      rw [notBelow, keySatisfies_eq hob, decide_eq_true_iff] at hbelow
      rw [hasKey, keySatisfies_eq hob, decide_eq_false_iff_not] at hb
      cases hoa : (s.node a).obj with
      | none => simp [hasKey, keySatisfies, hoa]
      | some o' =>
          have hlt := hcmp.lt_of_lt_of_le (lt_of_le_of_ne hbelow hb) (hle o o' hob hoa)
          rw [hasKey, keySatisfies_eq hoa, decide_eq_false_iff_not]
          exact hlt.ne

theorem Represents.hasKey_first (hcmp : Comparator cmp) (h : Represents s cmp key L) (k : K)
    (i : ℕ) {b : NodeId} {rest : List NodeId}
    (hfilter : (L i).filter (s.notBelow cmp key k) = b :: rest)
    (hb : s.hasKey cmp key k b = false) : ∀ a ∈ rest, s.hasKey cmp key k a = false := by
  intro a ha
  have hsorted : (b :: rest).Pairwise (s.KeyLe cmp key) := by
    rw [← hfilter]
    exact h.sorted.sublist (List.filter_sublist.trans (h.sublist_bottom i))
  have hbelow : s.notBelow cmp key k b = true := by
    have hmem : b ∈ (L i).filter (s.notBelow cmp key k) := by
      rw [hfilter]
      exact List.mem_cons_self
    exact (List.mem_filter.1 hmem).2
  exact hasKey_eq_false hcmp ((List.pairwise_cons.1 hsorted).1 a ha) hbelow hb

/-- The first match of the bottom list is on no level list that has lost its first match. -/
theorem Represents.notMem_eraseP (h : Represents s cmp key L) {x : NodeId}
    (hx : (L 0).find? q = some x) (j : ℕ) : x ∉ (L j).eraseP q :=
  notMem_eraseP_of_sublist (h.sublist_bottom j) (List.nodup_cons.1 (h.nodup 0)).2 hx

/-- The round of the loop of `sklist_delete` at level `i`, with the levels above treated. The field
`level` may be greater, by `d`, than the number of the lists that are not empty. -/
theorem Represents.deleteRound (hcmp : Comparator cmp) (h : Represents s₀ cmp key L) (k : K)
    (hi : i < s₀.maxLevel) {s : Sklist K O} (hfreed : Freed s₀ s none)
    (hlinked : Linked s (eraseLists (s₀.hasKey cmp key k) L (i + 1))) {d : ℕ}
    (hlevel : ∀ j, eraseLists (s₀.hasKey cmp key k) L (i + 1) j ≠ [] ↔ j + d < s.level)
    {node : NodeId}
    (hnode : node = s₀.head ∨ node ∈ L i ∧ s₀.notBelow cmp key k node = false) :
    ∃ node' t, s.walkLevel key (fun a => cmp k a ≤ 0) i s.heap.length node = some node' ∧
      s.deleteLink key (fun a => cmp k a = 0) i node' = some t ∧
      (node' = s₀.head ∨ node' ∈ L i ∧ s₀.notBelow cmp key k node' = false) ∧
      Freed s₀ t (if i = 0 then (L 0).find? (s₀.hasKey cmp key k) else none) ∧
      Linked t (eraseLists (s₀.hasKey cmp key k) L i) ∧
      ∀ j, eraseLists (s₀.hasKey cmp key k) L i j ≠ [] ↔ j + d < t.level := by
  set p := s₀.notBelow cmp key k with hp
  set q := s₀.hasKey cmp key k with hq
  have hpkeys : s.keySatisfies key (fun a => decide (cmp k a ≤ 0)) = p := hfreed.keySatisfies key _
  have hqkeys : s.keySatisfies key (fun a => decide (cmp k a = 0)) = q := hfreed.keySatisfies key _
  have hheap : s.heap = s₀.heap := hfreed.heap
  have hi' : i < s.maxLevel := by
    rw [hfreed.maxLevel]
    exact hi
  have hup : UpClosed p (L i) := h.upClosed (hcmp.decide_le k) i
  have hself := eraseLists_succ_self q L i
  have hlen : (eraseLists q L (i + 1) i).length < s.heap.length := by
    rw [hself, hheap]
    exact h.length_lt i
  have hwalk := hlinked.walkLevel hi' key (fun a => decide (cmp k a ≤ 0))
    (by rw [hself, hpkeys]; exact hup) (by rw [hself, hpkeys, hfreed.head]; exact hnode) hlen
  obtain ⟨t, ht, hfreed', hlinked', hlevel'⟩ := hlinked.deleteLink hi' key
    (fun a => decide (cmp k a = 0)) (by rw [hself]; exact hup)
    (fun a _ ha => by
      rw [hqkeys] at ha
      exact hasKey_notBelow ha)
    (fun b rest hfilter hb => by
      rw [hqkeys] at hb ⊢
      rw [hself] at hfilter
      exact h.hasKey_first hcmp k i hfilter hb)
    (fun hzero x hx j hj => by
      subst hzero
      rw [hqkeys, hself] at hx
      rw [eraseLists, if_neg (by omega)]
      exact h.notMem_eraseP hx j)
  rw [hself, hpkeys] at hwalk
  rw [hself] at ht
  rw [hself, hqkeys, update_eraseLists] at hlinked'
  rw [hself, hqkeys] at hlevel'
  refine ⟨_, t, hwalk, ht, ?_, ?_, hlinked', fun j => ?_⟩
  · rw [hfreed.head]
    exact getLastD_filter_mem s₀.head (List.Sublist.refl (L i))
  · refine hfreed.trans ?_
    rw [hqkeys] at hfreed'
    by_cases hzero : i = 0
    · subst hzero
      rw [hself] at hfreed'
      exact hfreed'
    · rw [if_neg hzero] at hfreed' ⊢
      exact hfreed'
  · have hcount : ∀ j, eraseLists q L (i + 1) j ≠ [] ↔ j < s.level - d := by
      intro j
      rw [hlevel]
      omega
    rw [hlevel', eraseLists_nonempty h.nested hcount]
    split_ifs
    · omega
    · omega

/-- The loop of `sklist_delete` over the levels up to `i`, with the levels above treated. -/
theorem Represents.deleteLoop (hcmp : Comparator cmp) (h : Represents s₀ cmp key L) (k : K)
    (hi : i < s₀.maxLevel) {s : Sklist K O} (hfreed : Freed s₀ s none)
    (hlinked : Linked s (eraseLists (s₀.hasKey cmp key k) L (i + 1))) {d : ℕ}
    (hlevel : ∀ j, eraseLists (s₀.hasKey cmp key k) L (i + 1) j ≠ [] ↔ j + d < s.level)
    {node : NodeId}
    (hnode : node = s₀.head ∨ node ∈ L i ∧ s₀.notBelow cmp key k node = false) :
    ∃ t, Sklist.deleteLoop key (fun a => cmp k a ≤ 0) (fun a => cmp k a = 0) (i + 1) node s =
        some t ∧
      Freed s₀ t ((L 0).find? (s₀.hasKey cmp key k)) ∧
      Linked t (fun j => (L j).eraseP (s₀.hasKey cmp key k)) ∧
      ∀ j, (L j).eraseP (s₀.hasKey cmp key k) ≠ [] ↔ j + d < t.level := by
  induction i generalizing s node with
  | zero =>
      obtain ⟨node', t, hwalk, ht, -, hfreed', hlinked', hlevel'⟩ :=
        h.deleteRound hcmp k hi hfreed hlinked hlevel hnode
      refine ⟨t, ?_, hfreed', hlinked', hlevel'⟩
      simp only [Sklist.deleteLoop, hwalk, Option.bind_eq_bind, Option.bind_some, ht]
  | succ i ih =>
      obtain ⟨node', u, hwalk, hu, hnode', hfreed', hlinked', hlevel'⟩ :=
        h.deleteRound hcmp k hi hfreed hlinked hlevel hnode
      have hnode'' : node' = s₀.head ∨ node' ∈ L i ∧ s₀.notBelow cmp key k node' = false :=
        hnode'.imp_right fun hmem => ⟨(h.nested i).subset hmem.1, hmem.2⟩
      obtain ⟨t, ht, hrest⟩ := ih (Nat.lt_of_succ_lt hi) hfreed' hlinked' hlevel' hnode''
      refine ⟨t, ?_, hrest⟩
      rw [Sklist.deleteLoop]
      simp only [hwalk, Option.bind_eq_bind, Option.bind_some, hu]
      exact ht

/-! ### The new list -/

/-- Above the levels in use there is nothing to delete. -/
theorem eraseLists_eq_self {L : ℕ → List NodeId} {n : ℕ} (h : ∀ j, L j ≠ [] → j < n)
    (q : NodeId → Bool) : eraseLists q L n = L := by
  funext j
  rw [eraseLists]
  split_ifs with hj
  · rfl
  · have hnil : L j = [] := by
      by_contra hne
      exact hj (h j hne)
    rw [hnil]
    rfl

theorem Represents.eraseLists_level (h : Represents s cmp key L) (q : NodeId → Bool)
    (hi : s.level ≤ i) : eraseLists q L i = L :=
  eraseLists_eq_self (fun j hne => lt_of_lt_of_le ((h.nonempty j).1 hne) hi) q

theorem Represents.of_freed (h : Represents s cmp key L)
    (hfreed : Freed s t ((L 0).find? q)) (hlinked : Linked t fun j => (L j).eraseP q)
    (hlevel : ∀ j, (L j).eraseP q ≠ [] ↔ j < t.level) :
    Represents t cmp key fun j => (L j).eraseP q := by
  refine ⟨hlinked, ?_, ?_, fun j => (h.nested j).eraseP, ?_, hlevel, ?_, ?_, ?_⟩
  · rw [hfreed.rest]
    exact h.cmpKey
  · rw [hfreed.rest]
    exact h.getKey
  · refine (h.sorted.sublist List.eraseP_sublist).imp fun {a b} hle => ?_
    rw [KeyLe, hfreed.obj, hfreed.obj]
    exact hle
  · rw [hfreed.maxLevel]
    by_contra hlt
    have hne := (hlevel s.maxLevel).2 (not_le.1 hlt)
    have hmax : L s.maxLevel ≠ [] := by
      intro hnil
      rw [hnil] at hne
      exact hne rfl
    have hle := h.levelLe
    have hlt' := (h.nonempty s.maxLevel).1 hmax
    omega
  · rw [hfreed.size, h.size]
    cases hfind : (L 0).find? q with
    | none =>
        rw [List.eraseP_of_forall_not (List.find?_eq_none.1 hfind)]
        rfl
    | some x =>
        obtain ⟨u, v, hsplit, -, -, herase⟩ := find?_eq_some_split hfind
        rw [herase, hsplit]
        simp only [Option.elim_some, List.length_append, List.length_cons]
        push_cast
        omega
  · rw [hfreed.heap, hfreed.head]
    cases hfind : (L 0).find? q with
    | none =>
        rw [List.eraseP_of_forall_not (List.find?_eq_none.1 hfind)]
        exact h.heap
    | some x =>
        obtain ⟨u, v, hsplit, -, -, herase⟩ := find?_eq_some_split hfind
        have hperm := h.heap
        rw [hsplit] at hperm
        have hcut := (hperm.trans (perm_splice s.head x u v)).erase x
        rw [List.erase_cons_head] at hcut
        rw [herase]
        exact hcut

/-- What `sklist_delete` does: every level list loses its first node with the key, and the one on
the bottom list is freed. The field `level`, which may be greater than the number `n` of the lists
that are not empty, is decremented as this number is. -/
theorem Represents.sklistDelete_raised (hcmp : Comparator cmp) {n : ℕ}
    (h : Represents { s with level := n } cmp key L) (hn : n ≤ s.level)
    (hmax : s.level ≤ s.maxLevel) (k : K) :
    ∃ t, s.sklistDelete (some k) = some (0, t) ∧ t.level ≤ s.level ∧
      Represents { t with level := t.level - (s.level - n) } cmp key
        (fun j => (L j).eraseP (s.hasKey cmp key k)) ∧
      Freed s t ((L 0).find? (s.hasKey cmp key k)) := by
  set q := s.hasKey cmp key k with hq
  have hlists : eraseLists q L s.level = L := h.eraseLists_level q hn
  have hget : s.getKey = some key := h.getKey
  have hset : s.cmpKey = some cmp := h.cmpKey
  have hcount : ∀ j, L j ≠ [] ↔ j < n := h.nonempty
  cases hlevel : s.level with
  | zero =>
      have hnil : ∀ j, L j = [] := by
        intro j
        by_contra hne
        have hlt := (hcount j).1 hne
        omega
      have hsame : (fun j => (L j).eraseP q) = L := by
        funext j
        rw [hnil j]
        rfl
      have hzero : n = s.level - (0 - n) := by omega
      refine ⟨s, ?_, hlevel.le, ?_, ?_⟩
      · simp [Sklist.sklistDelete, hget, hset, hlevel, Sklist.deleteLoop]
      · rw [hsame, ← hzero]
        exact h
      · rw [hnil 0]
        exact Freed.refl s
  | succ m =>
      have hlt : m < s.maxLevel := by omega
      have hlinked : Linked s (eraseLists q L (m + 1)) := by
        rw [← hlevel, hlists]
        exact h.toLinked.setLevel s.level
      have hraised : ∀ j, eraseLists q L (m + 1) j ≠ [] ↔ j + (m + 1 - n) < s.level := by
        intro j
        rw [← hlevel, hlists, hcount]
        omega
      have hsame : Freed { s with level := n } s none := (LinksOnly.refl _).freed s.level
      obtain ⟨t, ht, hfreed, hlinked', hlevel'⟩ :=
        h.deleteLoop hcmp k hlt hsame hlinked hraised (Or.inl rfl)
      refine ⟨t, ?_, ?_, ?_, ⟨hfreed.rest, hfreed.height, hfreed.obj, hfreed.heap, hfreed.size,
        hfreed.destroyed⟩⟩
      · simp only [Sklist.sklistDelete, hget, hset, hlevel, Option.bind_eq_bind, ht,
          Option.bind_some]
      · by_contra hgt
        have hne := (hlevel' n).2 (by omega)
        have hnil : L n = [] := by
          by_contra hne'
          exact lt_irrefl n ((hcount n).1 hne')
        rw [hnil] at hne
        exact hne rfl
      · refine h.of_freed ⟨?_, hfreed.height, hfreed.obj, hfreed.heap, hfreed.size,
          hfreed.destroyed⟩ (hlinked'.setLevel _) fun j => ?_
        · rw [hfreed.rest]
        · exact (hlevel' j).trans Nat.lt_sub_iff_add_lt.symm

/-- `sklist_delete` where `level` is the number of the lists that are not empty. -/
theorem Represents.sklistDelete (hcmp : Comparator cmp) (h : Represents s cmp key L) (k : K) :
    ∃ t, s.sklistDelete (some k) = some (0, t) ∧
      Represents t cmp key (fun j => (L j).eraseP (s.hasKey cmp key k)) ∧
      Freed s t ((L 0).find? (s.hasKey cmp key k)) := by
  obtain ⟨t, ht, -, hrep, hfreed⟩ := h.sklistDelete_raised hcmp le_rfl h.levelLe k
  rw [Nat.sub_self, Nat.sub_zero] at hrep
  exact ⟨t, ht, hrep, hfreed⟩

end Loop

end Sklist

end Miscellany
