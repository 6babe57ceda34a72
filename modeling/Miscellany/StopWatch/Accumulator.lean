import Mathlib.Algebra.BigOperators.Group.List.Basic
import Miscellany.Library.Decimal
import Miscellany.Library.SortedKeys
import Miscellany.StopWatch.Sum

/-!
# The time accumulator

The class `time_accumulator` collects records, each the begin and the end of something that is
named by a group and an item, and prints how many records there are and how long they take together.
A `std::map` is an ordered map, and a file is what has been written into it.

What is printed is a report on the list of the records that had been added before the last call of
`accumulate` (`print_run`).
-/

namespace Miscellany

open InputStream

/-- The characters of a text. -/
def latin (text : String) : List UInt8 := text.toList.map fun c => UInt8.ofNat c.toNat

/-- What is written after `std::setw`. -/
def setw (w : ℕ) (text : List UInt8) : List UInt8 := List.replicate (w - text.length) 32 ++ text

/-- The names of the group and of the item. -/
abbrev KeyType := List UInt8 × List UInt8

/-- The begin and the end. -/
abbrev DataType := Stime × Stime

/-- The number of the records, and the sum of their times. -/
abbrev ResultType := ℕ × StimeDuration

abbrev ResultMapType := Std.ExtTreeMap (List UInt8) ResultType

/-- The order of `std::pair`. -/
def compareKey : KeyType → KeyType → Ordering :=
  compareLex (compareOn Prod.fst) (compareOn Prod.snd)

instance : Std.TransCmp compareKey :=
  inferInstanceAs (Std.TransCmp (compareLex (compareOn Prod.fst) (compareOn Prod.snd)))

instance : Std.LawfulEqCmp compareKey where
  compare_self := Std.ReflCmp.compare_self
  eq_of_compare := by
    intro a b h
    rw [compareKey, compareLex_eq_eq] at h
    exact Prod.ext (Std.LawfulEqCmp.eq_of_compare h.1) (Std.LawfulEqCmp.eq_of_compare h.2)

structure TimeAccumulator where
  data : Std.ExtTreeMap KeyType (List DataType) compareKey
  result : Std.ExtTreeMap (List UInt8) ResultMapType

namespace TimeAccumulator

def new : TimeAccumulator := ⟨∅, ∅⟩

def add (a : TimeAccumulator) (key : KeyType) (val : DataType) : TimeAccumulator :=
  { a with data := a.data.insert key ((a.data[key]?).getD [] ++ [val]) }

/-- The inner loop of `accumulate`. -/
def sumOf (records : List DataType) : StimeDuration :=
  records.foldl (fun sum vit => sum.add (vit.2.sub vit.1)) ⟨0⟩

/-- A step of the outer loop. -/
def setResult (result : Std.ExtTreeMap (List UInt8) ResultMapType) (key : KeyType)
    (records : List DataType) : Std.ExtTreeMap (List UInt8) ResultMapType :=
  result.insert key.1 ((result[key.1]?.getD ∅).insert key.2 (records.length, sumOf records))

def accumulate (a : TimeAccumulator) : TimeAccumulator :=
  { a with result := a.data.foldl setResult ∅ }

/-- The lines of `do_print` in front of the items. -/
def heading (groupName : List UInt8) : List UInt8 :=
  latin "-----------------------------" ++ groupName ++ latin "-----------------------------\n" ++
    (setw 30 (latin "Item Name") ++ setw 20 (latin "Record Num") ++ setw 10 (latin "Time") ++
      latin "\n")

/-- The line of an item. -/
def itemLine (itemName : List UInt8) (recordNum : ℕ) (time : ℤ) : List UInt8 :=
  setw 30 itemName ++ setw 20 (decimal recordNum) ++ setw 10 (signedDecimal time) ++ latin "\n"

/-- The last line of `do_print`. -/
def totalLine (totalRecords totalTime : ℕ) : List UInt8 :=
  setw 50 (decimal totalRecords) ++ setw 10 (decimal totalTime) ++ latin "\n"

/-- `total_time_of_item`, a double that is converted to `long`. -/
def totalTimeOfItem (r : ResultType) : ℤ := wrapLong r.2.totalMilliseconds

/-- The file and the local variables `total_records` and `total_time`, which have the type
`size_t`. -/
structure Printing where
  ofs : List UInt8
  totalRecords : ℕ
  totalTime : ℕ

/-- A step of the loop of `do_print`. -/
def Printing.item (p : Printing) (itemName : List UInt8) (r : ResultType) : Printing where
  ofs := p.ofs ++ itemLine itemName r.1 (totalTimeOfItem r)
  totalRecords := (p.totalRecords + r.1) % 2 ^ 64
  totalTime := ((p.totalTime + totalTimeOfItem r) % 2 ^ 64).toNat

def doPrint (ofs groupName : List UInt8) (result : ResultMapType) : List UInt8 :=
  let p := result.foldl Printing.item ⟨ofs ++ heading groupName, 0, 0⟩
  p.ofs ++ totalLine p.totalRecords p.totalTime

/-- The file that `print` writes. -/
def print (a : TimeAccumulator) : List UInt8 := a.result.foldl doPrint []

/-! ### Calls -/

inductive Call
  | add (key : KeyType) (val : DataType)
  | accumulate

def step (a : TimeAccumulator) : Call → TimeAccumulator
  | .add key val => a.add key val
  | .accumulate => a.accumulate

def run (calls : List Call) : TimeAccumulator := calls.foldl step new

end TimeAccumulator

/-! ### Reports -/

/-- A record with its group and item. -/
abbrev Record := KeyType × DataType

namespace Record

def group (r : Record) : List UInt8 := r.1.1

def item (r : Record) : List UInt8 := r.1.2

/-- In milliseconds. -/
def time (r : Record) : ℤ := (r.2.2.sub r.2.1).milliseconds

end Record

namespace Report

open TimeAccumulator (heading itemLine totalLine)

def groupRecords (records : List Record) (group : List UInt8) : List Record :=
  records.filter fun r => r.group = group

def itemRecords (records : List Record) (item : List UInt8) : List Record :=
  records.filter fun r => r.item = item

/-- The sum of the times. -/
def total (records : List Record) : ℤ := (records.map Record.time).sum

/-- The line of an item. -/
def ofItem (records : List Record) (item : List UInt8) : List UInt8 :=
  let rs := itemRecords records item
  itemLine item rs.length (total rs)

/-- The table of a group. -/
def ofGroup (records : List Record) (group : List UInt8) : List UInt8 :=
  let rs := groupRecords records group
  heading group ++ (ascending compare (rs.map Record.item)).flatMap (ofItem rs) ++
    totalLine rs.length (total rs % 2 ^ 64).toNat

/-- The table of each group. -/
def ofRecords (records : List Record) : List UInt8 :=
  (ascending compare (records.map Record.group)).flatMap (ofGroup records)

end Report

/-- The records that have been added, and those among them that have been so before the last call
of `accumulate`. -/
structure RecordLog where
  added : List Record
  accumulated : List Record

namespace RecordLog

open TimeAccumulator (Call)

def step (l : RecordLog) : Call → RecordLog
  | .add key val => { l with added := l.added ++ [(key, val)] }
  | .accumulate => { l with accumulated := l.added }

def ofCalls (calls : List Call) : RecordLog := calls.foldl step ⟨[], []⟩

end RecordLog

/-! ### The maps -/

namespace TimeAccumulator

open Report (groupRecords itemRecords total)

/-- The map of the records. -/
def dataOf (records : List Record) : Std.ExtTreeMap KeyType (List DataType) compareKey :=
  records.foldl (fun m r => m.insert r.1 ((m[r.1]?).getD [] ++ [r.2])) ∅

theorem dataOf_append (records : List Record) (r : Record) :
    dataOf (records ++ [r]) =
      (dataOf records).insert r.1 (((dataOf records)[r.1]?).getD [] ++ [r.2]) := by
  rw [dataOf, List.foldl_append]
  rfl

theorem mem_dataOf {records : List Record} {k : KeyType} :
    k ∈ dataOf records ↔ k ∈ records.map Prod.fst := by
  induction records using List.reverseRecOn with
  | nil => simp [dataOf]
  | append_singleton records r ih =>
      rw [dataOf_append, Std.ExtTreeMap.mem_insert, Std.LawfulEqCmp.compare_eq_iff_eq, ih,
        List.map_append, List.mem_append, List.map_singleton, List.mem_singleton, or_comm, eq_comm]

/-- The records of a key stand in the order in which they have been added. -/
theorem getD_dataOf (records : List Record) (k : KeyType) :
    ((dataOf records)[k]?).getD [] = (records.filter fun r => r.1 = k).map Prod.snd := by
  induction records using List.reverseRecOn with
  | nil => simp [dataOf]
  | append_singleton records r ih =>
      rw [dataOf_append, Std.ExtTreeMap.getElem?_insert, List.filter_append, List.map_append]
      by_cases hk : r.1 = k
      · subst hk
        rw [if_pos Std.ReflCmp.compare_self, Option.getD_some, ih]
        simp
      · rw [if_neg (fun h => hk (Std.LawfulEqCmp.eq_of_compare h)), ih]
        simp [hk]

theorem getElem?_dataOf {records : List Record} {k : KeyType} (hk : k ∈ records.map Prod.fst) :
    (dataOf records)[k]? = some ((records.filter fun r => r.1 = k).map Prod.snd) := by
  rw [← getD_dataOf]
  obtain ⟨v, hv⟩ := Option.isSome_iff_exists.1
    (Std.ExtTreeMap.mem_iff_isSome_getElem?.1 (mem_dataOf.2 hk))
  rw [hv, Option.getD_some]

/-- The results of the records in a map. -/
def resultOf (data : Std.ExtTreeMap KeyType (List DataType) compareKey) :
    Std.ExtTreeMap (List UInt8) ResultMapType := data.foldl setResult ∅

/-- A run keeps the records that have been added, and the results of those that had been added
before the last call of `accumulate`. -/
theorem run_eq (calls : List Call) :
    run calls = ⟨dataOf (RecordLog.ofCalls calls).added,
      resultOf (dataOf (RecordLog.ofCalls calls).accumulated)⟩ := by
  induction calls using List.reverseRecOn with
  | nil =>
      have hresult : resultOf (dataOf []) = ∅ := by
        rw [resultOf, Std.ExtTreeMap.foldl_eq_foldl_toList]
        rfl
      change new = _
      rw [new, RecordLog.ofCalls, List.foldl_nil, hresult]
      rfl
  | append_singleton calls c ih =>
      have hlog : RecordLog.ofCalls (calls ++ [c]) = (RecordLog.ofCalls calls).step c := by
        rw [RecordLog.ofCalls, List.foldl_append]
        rfl
      have hrun : run (calls ++ [c]) = (run calls).step c := by
        rw [run, List.foldl_append]
        rfl
      rw [hlog, hrun, ih]
      cases c with
      | add key val => rw [step, add, RecordLog.step, dataOf_append]
      | accumulate => rfl

/-! ### The results -/

/-- The table of a group, which is empty if there is none. -/
def groupResult (result : Std.ExtTreeMap (List UInt8) ResultMapType) (group : List UInt8) :
    ResultMapType := (result[group]?).getD ∅

variable {l : List (KeyType × List DataType)} {group item : List UInt8}

/-- The loop of `accumulate` through a list of the map. -/
def resultLoop (l : List (KeyType × List DataType)) : Std.ExtTreeMap (List UInt8) ResultMapType :=
  l.foldl (fun result mit => setResult result mit.1 mit.2) ∅

theorem resultOf_eq (data : Std.ExtTreeMap KeyType (List DataType) compareKey) :
    resultOf data = resultLoop data.toList := Std.ExtTreeMap.foldl_eq_foldl_toList

theorem resultLoop_append (l : List (KeyType × List DataType)) (mit : KeyType × List DataType) :
    resultLoop (l ++ [mit]) = setResult (resultLoop l) mit.1 mit.2 := by
  rw [resultLoop, List.foldl_append]
  rfl

theorem mem_resultLoop : group ∈ resultLoop l ↔ ∃ mit ∈ l, mit.1.1 = group := by
  induction l using List.reverseRecOn with
  | nil => simp [resultLoop]
  | append_singleton l mit ih =>
      rw [resultLoop_append, setResult, Std.ExtTreeMap.mem_insert,
        Std.LawfulEqCmp.compare_eq_iff_eq, ih]
      simp only [List.mem_append, List.mem_singleton, or_and_right, exists_or, exists_eq_left]
      exact or_comm

/-- A result that is stored replaces the one with the same key only. -/
theorem getElem?_groupResult_setResult (result : Std.ExtTreeMap (List UInt8) ResultMapType)
    (key : KeyType) (records : List DataType) :
    (groupResult (setResult result key records) group)[item]? =
      if key = (group, item) then some (records.length, sumOf records)
      else (groupResult result group)[item]? := by
  unfold groupResult setResult
  rw [Std.ExtTreeMap.getElem?_insert]
  by_cases hgroup : key.1 = group
  · rw [if_pos (Std.LawfulEqCmp.compare_eq_iff_eq.2 hgroup), Option.getD_some,
      Std.ExtTreeMap.getElem?_insert, hgroup]
    by_cases hitem : key.2 = item
    · rw [if_pos (Std.LawfulEqCmp.compare_eq_iff_eq.2 hitem), if_pos (Prod.ext hgroup hitem)]
    · rw [if_neg (fun h => hitem (Std.LawfulEqCmp.eq_of_compare h)),
        if_neg (fun h => hitem (congrArg Prod.snd h))]
  · rw [if_neg (fun h => hgroup (Std.LawfulEqCmp.eq_of_compare h)),
      if_neg (fun h => hgroup (congrArg Prod.fst h))]

theorem getElem?_resultLoop (hl : (l.map Prod.fst).Nodup) {records : List DataType}
    (hmem : ((group, item), records) ∈ l) :
    (groupResult (resultLoop l) group)[item]? = some (records.length, sumOf records) := by
  induction l using List.reverseRecOn with
  | nil => cases hmem
  | append_singleton l mit ih =>
      rw [List.map_append, List.nodup_append] at hl
      rw [resultLoop_append, getElem?_groupResult_setResult]
      rcases List.mem_append.1 hmem with hprev | hlast
      · have hne : mit.1 ≠ (group, item) :=
          (hl.2.2 _ (List.mem_map_of_mem hprev) _ (List.mem_singleton_self _)).symm
        rw [if_neg hne]
        exact ih hl.1 hprev
      · rw [← List.mem_singleton.1 hlast, if_pos rfl]

theorem mem_groupResult_resultLoop :
    item ∈ groupResult (resultLoop l) group ↔ ∃ mit ∈ l, mit.1 = (group, item) := by
  rw [Std.ExtTreeMap.mem_iff_isSome_getElem?]
  induction l using List.reverseRecOn with
  | nil => simp [resultLoop, groupResult]
  | append_singleton l mit ih =>
      rw [resultLoop_append, getElem?_groupResult_setResult]
      simp only [List.mem_append, List.mem_singleton, or_and_right, exists_or, exists_eq_left]
      by_cases hkey : mit.1 = (group, item)
      · simp [hkey]
      · rw [if_neg hkey, ih]
        simp [hkey]

/-! ### The results of the records -/

variable {records : List Record}

theorem mem_resultOf : group ∈ resultOf (dataOf records) ↔ group ∈ records.map Record.group := by
  rw [resultOf_eq, mem_resultLoop, List.mem_map]
  constructor
  · rintro ⟨⟨k, rs⟩, hmem, rfl⟩
    have hkey : k ∈ dataOf records := by
      rw [Std.ExtTreeMap.mem_iff_isSome_getElem?,
        Std.ExtTreeMap.mem_toList_iff_getElem?_eq_some.1 hmem]
      rfl
    obtain ⟨r, hr, rfl⟩ := List.mem_map.1 (mem_dataOf.1 hkey)
    exact ⟨r, hr, rfl⟩
  · rintro ⟨r, hr, rfl⟩
    have hget := getElem?_dataOf (List.mem_map_of_mem (f := Prod.fst) hr)
    exact ⟨_, Std.ExtTreeMap.mem_toList_iff_getElem?_eq_some.2 hget, rfl⟩

theorem filter_key_eq (records : List Record) (group item : List UInt8) :
    (records.filter fun r => r.1 = (group, item)) =
      itemRecords (groupRecords records group) item := by
  rw [itemRecords, groupRecords, List.filter_filter]
  apply List.filter_congr
  intro r _
  rw [← Bool.decide_and, decide_eq_decide, Prod.ext_iff, and_comm]
  rfl

theorem mem_keys_iff : (group, item) ∈ records.map Prod.fst ↔
    item ∈ (groupRecords records group).map Record.item := by
  simp only [List.mem_map, groupRecords, List.mem_filter, decide_eq_true_eq, Prod.ext_iff]
  exact ⟨fun ⟨r, hr, hg, hi⟩ => ⟨r, ⟨hr, hg⟩, hi⟩, fun ⟨r, ⟨hr, hg⟩, hi⟩ => ⟨r, hr, hg, hi⟩⟩

/-- The result of an item of a group. -/
def itemResult (records : List Record) (item : List UInt8) : ResultType :=
  ((itemRecords records item).length, sumOf ((itemRecords records item).map Prod.snd))

theorem itemResult_fst (records : List Record) (item : List UInt8) :
    (itemResult records item).1 = (itemRecords records item).length := rfl

theorem toList_groupResult (records : List Record) (group : List UInt8) :
    (groupResult (resultOf (dataOf records)) group).toList =
      (ascending compare ((groupRecords records group).map Record.item)).map fun item =>
        (item, itemResult (groupRecords records group) item) := by
  have hnodup : ((dataOf records).toList.map Prod.fst).Nodup := by
    rw [Std.ExtTreeMap.map_fst_toList_eq_keys]
    exact Std.ExtTreeMap.nodup_keys
  have hget : ∀ item, (group, item) ∈ records.map Prod.fst →
      ((group, item), (itemRecords (groupRecords records group) item).map Prod.snd) ∈
        (dataOf records).toList := by
    intro item hitem
    rw [Std.ExtTreeMap.mem_toList_iff_getElem?_eq_some, getElem?_dataOf hitem, filter_key_eq]
  rw [resultOf_eq]
  apply toList_eq_map
  · intro item
    rw [← mem_keys_iff, mem_groupResult_resultLoop]
    constructor
    · rintro ⟨⟨k, rs⟩, hmem, rfl⟩
      rw [← mem_dataOf, Std.ExtTreeMap.mem_iff_isSome_getElem?,
        Std.ExtTreeMap.mem_toList_iff_getElem?_eq_some.1 hmem]
      rfl
    · exact fun hitem => ⟨_, hget item hitem, rfl⟩
  · intro item hitem
    rw [getElem?_resultLoop hnodup (hget item (mem_keys_iff.2 hitem)), itemResult,
      List.length_map]

theorem toList_resultOf (records : List Record) :
    (resultOf (dataOf records)).toList =
      (ascending compare (records.map Record.group)).map fun group =>
        (group, groupResult (resultOf (dataOf records)) group) := by
  apply toList_eq_map
  · exact fun group => mem_resultOf
  · intro group hgroup
    obtain ⟨r, hr⟩ := Option.isSome_iff_exists.1
      (Std.ExtTreeMap.mem_iff_isSome_getElem?.1 (mem_resultOf.2 hgroup))
    rw [groupResult, hr, Option.getD_some]

/-! ### Sums -/

theorem sumOf_append (vals : List DataType) (v : DataType) :
    sumOf (vals ++ [v]) = (sumOf vals).add (v.2.sub v.1) := by
  rw [sumOf, List.foldl_append]
  rfl

theorem milliseconds_sumOf (records : List Record) :
    (sumOf (records.map Prod.snd)).milliseconds = wrapLong (total records) := by
  induction records using List.reverseRecOn with
  | nil => rfl
  | append_singleton records r ih =>
      rw [List.map_append, List.map_singleton, sumOf_append, StimeDuration.add, ih, total,
        total, List.map_append, List.sum_append, wrapLong, wrapLong, Int.bmod_add_bmod,
        List.map_singleton, List.sum_singleton]
      rfl

/-- The times of day fit in an `int`, so a difference has less than 33 digits. -/
theorem natAbs_time_lt (r : Record) : r.time.natAbs < 2 ^ 32 := by
  have hofTime : ∀ t : Stime, -2 ^ 31 ≤ t.timeOfDay.milliseconds ∧
      t.timeOfDay.milliseconds < 2 ^ 31 := by
    intro t
    rw [Stime.timeOfDay, StimeDuration.ofTime]
    exact ⟨Int.le_bmod (by decide), Int.bmod_lt (by decide)⟩
  have hend := hofTime r.2.2
  have hbegin := hofTime r.2.1
  rw [Record.time, Stime.sub, StimeDuration.sub, StopWatch.wrapLong_of_range (by omega) (by omega)]
  change (r.2.2.timeOfDay.milliseconds - r.2.1.timeOfDay.milliseconds).natAbs < 2 ^ 32
  omega

theorem natAbs_total_le (records : List Record) :
    (total records).natAbs ≤ records.length * (2 ^ 32 - 1) := by
  induction records with
  | nil => exact Nat.le_refl 0
  | cons r records ih =>
      have hr := natAbs_time_lt r
      have hcons : total (r :: records) = r.time + total records := by
        rw [total, List.map_cons, List.sum_cons, ← total]
      rw [hcons, List.length_cons]
      omega

/-- A double holds the sum of the times of that many records. -/
theorem totalTimeOfItem_itemResult {item : List UInt8} (h : records.length ≤ 2 ^ 21) :
    totalTimeOfItem (itemResult records item) = total (itemRecords records item) := by
  have hle : (itemRecords records item).length ≤ records.length := List.length_filter_le _ _
  have htotal := natAbs_total_le (itemRecords records item)
  have hlt : (total (itemRecords records item)).natAbs < 2 ^ 53 := by omega
  have hround : roundInt 53 (total (itemRecords records item)) =
      total (itemRecords records item) := by
    have hnat := roundNat_eq_iff.2 (hasDigits_of_lt hlt)
    rw [roundInt, hnat]
    split_ifs
    · omega
    · omega
  have hwrap := StopWatch.wrapLong_of_range
    (n := total (itemRecords records item)) (by omega) (by omega)
  rw [totalTimeOfItem, itemResult, StimeDuration.totalMilliseconds, milliseconds_sumOf, hwrap,
    hround, hwrap]

/-! ### Printing -/

/-- The local variables after some items. -/
theorem foldl_item (items : List (List UInt8)) (f : List UInt8 → ResultType) (ofs : List UInt8)
    (m : ℕ) (t : ℤ) :
    (items.map fun item => (item, f item)).foldl (fun p x => Printing.item p x.1 x.2)
        ⟨ofs, m % 2 ^ 64, (t % 2 ^ 64).toNat⟩ =
      ⟨ofs ++ items.flatMap fun item => itemLine item (f item).1 (totalTimeOfItem (f item)),
        (m + (items.map fun item => (f item).1).sum) % 2 ^ 64,
        ((t + (items.map fun item => totalTimeOfItem (f item)).sum) % 2 ^ 64).toNat⟩ := by
  induction items generalizing ofs m t with
  | nil => simp
  | cons item items ih =>
      have hstep : Printing.item ⟨ofs, m % 2 ^ 64, (t % 2 ^ 64).toNat⟩ item (f item) =
          ⟨ofs ++ itemLine item (f item).1 (totalTimeOfItem (f item)), (m + (f item).1) % 2 ^ 64,
            ((t + totalTimeOfItem (f item)) % 2 ^ 64).toNat⟩ := by
        have hnonneg : 0 ≤ t % 2 ^ 64 := Int.emod_nonneg t (by decide)
        rw [Printing.item, Nat.mod_add_mod, Int.toNat_of_nonneg hnonneg, Int.emod_add_emod]
      rw [List.map_cons, List.foldl_cons, hstep, ih, List.flatMap_cons, List.map_cons,
        List.sum_cons, List.map_cons, List.sum_cons, List.append_assoc, Nat.add_assoc,
        Int.add_assoc]

/-- The records of the items are all the records. -/
theorem flatMap_itemRecords_perm (records : List Record) :
    ((ascending compare (records.map Record.item)).flatMap (itemRecords records)).Perm records :=
  flatMap_filter_perm (nodup_ascending compare _) fun _ hr =>
    mem_ascending.2 (List.mem_map_of_mem hr)

theorem sum_length_itemRecords (records : List Record) :
    ((ascending compare (records.map Record.item)).map fun item =>
      (itemRecords records item).length).sum = records.length := by
  rw [← List.length_flatMap, (flatMap_itemRecords_perm records).length_eq]

theorem sum_total_itemRecords (records : List Record) :
    ((ascending compare (records.map Record.item)).map fun item =>
      total (itemRecords records item)).sum = total records := by
  have hperm := (flatMap_itemRecords_perm records).map Record.time
  rw [total, ← hperm.sum_eq, List.map_flatMap, List.flatMap_def, List.sum_flatten, List.map_map]
  rfl

/-- `do_print` writes the table of a group. -/
theorem doPrint_eq (ofs group : List UInt8) (h : records.length ≤ 2 ^ 21) :
    doPrint ofs group (groupResult (resultOf (dataOf records)) group) =
      ofs ++ Report.ofGroup records group := by
  have hle : (groupRecords records group).length ≤ 2 ^ 21 := (List.length_filter_le _ _).trans h
  have htime : ∀ item, totalTimeOfItem (itemResult (groupRecords records group) item) =
      total (itemRecords (groupRecords records group) item) :=
    fun item => totalTimeOfItem_itemResult hle
  have hloop := foldl_item (ascending compare ((groupRecords records group).map Record.item))
    (itemResult (groupRecords records group)) (ofs ++ heading group) 0 0
  simp only [htime, itemResult_fst, Int.zero_add, Nat.zero_add, sum_total_itemRecords,
    sum_length_itemRecords, Nat.zero_mod, Int.zero_emod, Int.toNat_zero] at hloop
  rw [Nat.mod_eq_of_lt (by omega)] at hloop
  rw [doPrint, Std.ExtTreeMap.foldl_eq_foldl_toList, toList_groupResult, hloop, Report.ofGroup]
  simp only [List.append_assoc]
  rfl

/-- Whatever is added and accumulated, and in whatever order, `print` writes the report on the
records that had been added before the last call of `accumulate`. -/
theorem print_run (calls : List Call) (h : (RecordLog.ofCalls calls).accumulated.length ≤ 2 ^ 21) :
    (run calls).print = Report.ofRecords (RecordLog.ofCalls calls).accumulated := by
  rw [run_eq]
  generalize (RecordLog.ofCalls calls).accumulated = records at h ⊢
  rw [print, Std.ExtTreeMap.foldl_eq_foldl_toList]
  dsimp only
  rw [toList_resultOf, List.foldl_map, Report.ofRecords]
  simp only [doPrint_eq _ _ h]
  exact List.flatMap_eq_foldl.symm

/-- One of the three records is added too late. -/
theorem print_run_twoRecords :
    let r₁ : Record := ((latin "load", latin "b"), (⟨10, 0, 0, 0⟩, ⟨10, 0, 1, 500⟩))
    let r₂ : Record := ((latin "load", latin "a"), (⟨10, 0, 2, 0⟩, ⟨10, 0, 2, 250⟩))
    (run [.add r₁.1 r₁.2, .add r₂.1 r₂.2, .accumulate, .add r₁.1 r₂.2]).print =
      Report.ofRecords [r₁, r₂] := print_run _ (by decide)

end TimeAccumulator

namespace Report

variable {records records' : List Record}

theorem total_perm (h : records.Perm records') : total records = total records' :=
  (h.map Record.time).sum_eq

theorem ofItem_perm (h : records.Perm records') (item : List UInt8) :
    ofItem records item = ofItem records' item := by
  have hitem : (itemRecords records item).Perm (itemRecords records' item) := h.filter _
  rw [ofItem, ofItem, hitem.length_eq, total_perm hitem]

theorem ofGroup_perm (h : records.Perm records') (group : List UInt8) :
    ofGroup records group = ofGroup records' group := by
  have hgroup : (groupRecords records group).Perm (groupRecords records' group) := h.filter _
  have hitems : ascending compare ((groupRecords records group).map Record.item) =
      ascending compare ((groupRecords records' group).map Record.item) :=
    ascending_congr fun _ => (hgroup.map Record.item).mem_iff
  rw [ofGroup, ofGroup, hgroup.length_eq, total_perm hgroup, hitems]
  rw [funext (ofItem_perm hgroup)]

/-- The order in which the records have been added does not matter. -/
theorem ofRecords_perm (h : records.Perm records') : ofRecords records = ofRecords records' := by
  have hgroups : ascending compare (records.map Record.group) =
      ascending compare (records'.map Record.group) :=
    ascending_congr fun _ => (h.map Record.group).mem_iff
  rw [ofRecords, ofRecords, hgroups]
  rw [funext (ofGroup_perm h)]

end Report

end Miscellany
