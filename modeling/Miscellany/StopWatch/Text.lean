import Miscellany.Sstring.Integer
import Miscellany.Sstring.Parts
import Miscellany.StopWatch.Basic

/-!
# Times as text

`to_string` and `parse` of the class `stime`, and the parts of a `stime_duration`. The text of a
time is written into an array of 16 characters. What is written there is read back as the same time
(`parse_toString`), and the text of a time of the local clock always fits.
-/

namespace Miscellany

open InputStream Pgr

/-- The conversion `%0wd` of `sprintf`. -/
def zeroPadded (w : ℕ) (n : ℤ) : List Byte :=
  let digits := decimal n.natAbs
  if n < 0 then 45 :: (List.replicate (w - 1 - digits.length) 48 ++ digits)
  else List.replicate (w - digits.length) 48 ++ digits

namespace Stime

/-- `to_string`. Writing beyond the end of `buf` is a fault. -/
def toString (t : Stime) : Option (List Byte) :=
  let text := zeroPadded 2 t.hour ++ 58 :: (zeroPadded 2 t.minute ++ 58 ::
    (zeroPadded 2 t.second ++ 46 :: zeroPadded 3 t.millisecond))
  if text.length < 16 then some text else none

/-- `parse`. An access beyond the end of `parts` is a fault. -/
def parse (timeStr : List Byte) : Option Stime :=
  match split timeStr [58, 46] true with
  | h :: m :: s :: ms :: _ =>
      some ⟨(strToInt h 10).2, (strToInt m 10).2, (strToInt s 10).2, (strToInt ms 10).2⟩
  | _ => none

end Stime

namespace StimeDuration

/-- The parts are those of the truncating division of C. -/
def hours (d : StimeDuration) : ℤ := Int.bmod (d.milliseconds.tdiv 3600000) (2 ^ 32)

def minutes (d : StimeDuration) : ℤ := (d.milliseconds.tmod 3600000).tdiv 60000

def seconds (d : StimeDuration) : ℤ := ((d.milliseconds.tmod 3600000).tmod 60000).tdiv 1000

def millisecondsPart (d : StimeDuration) : ℤ :=
  ((d.milliseconds.tmod 3600000).tmod 60000).tmod 1000

end StimeDuration

/-! ### The parts of a duration -/

namespace StimeDuration

variable {d : StimeDuration}

/-- A duration is put together from its parts, unless it is too long for the constructor. -/
theorem ofTime_parts (hd : IntegerType.int.Has d.milliseconds) :
    ofTime d.hours d.minutes d.seconds d.millisecondsPart = d := by
  obtain ⟨hlower, hupper⟩ := hd
  simp only [IntegerType.int] at hlower hupper
  have hhours := Int.mul_tdiv_add_tmod d.milliseconds 3600000
  have hminutes := Int.mul_tdiv_add_tmod (d.milliseconds.tmod 3600000) 60000
  have hseconds := Int.mul_tdiv_add_tmod ((d.milliseconds.tmod 3600000).tmod 60000) 1000
  have habs : (d.milliseconds.tdiv 3600000).natAbs = d.milliseconds.natAbs / 3600000 :=
    Int.natAbs_tdiv _ _
  have hfit : d.hours = d.milliseconds.tdiv 3600000 := by
    rw [hours]
    exact Int.bmod_eq_of_le_mul_two (by omega) (by omega)
  have hsum : ((d.hours * 60 + d.minutes) * 60 + d.seconds) * 1000 + d.millisecondsPart =
      d.milliseconds := by
    rw [hfit, minutes, seconds, millisecondsPart]
    omega
  rw [ofTime, hsum, Int.bmod_eq_of_le_mul_two (by omega) (by omega)]

/-- The parts of a time of the local clock are the parts of its time of day. -/
theorem parts_timeOfDay_curTime (now : ℤ) :
    let d := (Stime.curTime now).timeOfDay
    (⟨d.hours, d.minutes, d.seconds, d.millisecondsPart⟩ : Stime) = Stime.curTime now := by
  have hday : (Stime.curTime now).timeOfDay.milliseconds = now % 86400000 := by
    simp only [Stime.timeOfDay, ofTime, Stime.curTime]
    rw [Int.bmod_eq_of_le_mul_two (by omega) (by omega)]
    omega
  have h0 : 0 ≤ now % 86400000 := by omega
  have hhour : 0 ≤ now % 86400000 % 3600000 := by omega
  have hminute : 0 ≤ now % 86400000 % 3600000 % 60000 := by omega
  simp only [hours, minutes, seconds, millisecondsPart, hday, Int.tdiv_eq_ediv_of_nonneg h0,
    Int.tmod_eq_emod_of_nonneg h0, Int.tdiv_eq_ediv_of_nonneg hhour,
    Int.tmod_eq_emod_of_nonneg hhour, Int.tdiv_eq_ediv_of_nonneg hminute,
    Int.tmod_eq_emod_of_nonneg hminute]
  rw [Int.bmod_eq_of_le_mul_two (by omega) (by omega), Stime.curTime, Stime.mk.injEq]
  omega

end StimeDuration

/-! ### A number that is padded with zeros -/

variable {w : ℕ} {n : ℤ}

theorem digitsVal_replicate_append (k : ℕ) (ds : List UInt8) :
    digitsVal 10 (List.replicate k 48 ++ ds) = digitsVal 10 ds := by
  induction k with
  | zero => rfl
  | succ k ih => rw [List.replicate_succ, List.cons_append, digitsVal_zero_cons, ih]

/-- The digits with zeros in front. -/
theorem isDigit_padded {k m : ℕ} {c : UInt8} (hc : c ∈ List.replicate k 48 ++ decimal m) :
    isDigit 10 c = true := by
  rcases List.mem_append.1 hc with hc | hc
  · rw [List.eq_of_mem_replicate hc]
    decide
  · exact isDigit_of_mem_decimal hc

/-- The sign and the digits. -/
theorem zeroPadded_cases (w : ℕ) (n : ℤ) :
    ∃ k, zeroPadded w n =
      (if n < 0 then [45] else []) ++ (List.replicate k 48 ++ decimal n.natAbs) := by
  unfold zeroPadded
  split_ifs
  · exact ⟨_, rfl⟩
  · exact ⟨_, rfl⟩

theorem zeroPadded_ne_nil (w : ℕ) (n : ℤ) : zeroPadded w n ≠ [] := by
  obtain ⟨k, hk⟩ := zeroPadded_cases w n
  rw [hk]
  simp [decimal_ne_nil]

/-- There is no delimiter of `parse` and no space in the text of a number. -/
theorem mem_zeroPadded {c : UInt8} (hc : c ∈ zeroPadded w n) :
    ([58, 46] : List UInt8).contains c = false ∧ isSpace c = false := by
  obtain ⟨k, hk⟩ := zeroPadded_cases w n
  rw [hk, List.mem_append] at hc
  rcases hc with hc | hc
  · split_ifs at hc
    · rw [List.mem_singleton.1 hc]
      decide
    · cases hc
  · have hdigit := isDigit_padded hc
    refine ⟨?_, isSpace_of_isDigit (isDigit_sixteen hdigit)⟩
    rw [Bool.eq_false_iff, Ne, List.contains_iff_mem]
    intro hmem
    simp only [List.mem_cons, List.not_mem_nil, or_false] at hmem
    rcases hmem with rfl | rfl
    · exact absurd hdigit (by decide)
    · exact absurd hdigit (by decide)

/-- The number is read back. -/
theorem strToInt_zeroPadded (hn : IntegerType.int.Has n) :
    strToInt (zeroPadded w n) 10 = (true, n) := by
  obtain ⟨k, hk⟩ := zeroPadded_cases w n
  obtain ⟨c, cs, hcons⟩ := List.exists_cons_of_ne_nil (zeroPadded_ne_nil w n)
  have htrim : trim (zeroPadded w n) = c :: cs := by
    rw [trim_eq, strip_of_forall fun x hx => (mem_zeroPadded hx).2, hcons]
  have hdigits : List.replicate k 48 ++ decimal n.natAbs ≠ [] := by simp [decimal_ne_nil]
  have hsign : signOf (c :: cs) = (decide (n < 0), List.replicate k 48 ++ decimal n.natAbs) := by
    rw [← hcons, hk]
    split_ifs with hneg
    · rw [decide_eq_true hneg]
      rfl
    · obtain ⟨d, ds, hd⟩ := List.exists_cons_of_ne_nil hdigits
      rw [decide_eq_false hneg, List.nil_append, hd]
      refine signOf_of_isDigit (isDigit_sixteen (isDigit_padded (k := k) (m := n.natAbs) ?_)) ds
      rw [hd]
      exact List.mem_cons_self
  have hval : n = signed (decide (n < 0)) (digitsVal 10 (decimal n.natAbs)) := by
    rw [digitsVal_decimal, signed]
    by_cases hneg : n < 0
    · rw [decide_eq_true hneg, if_pos rfl]
      omega
    · rw [decide_eq_false hneg, if_neg (by decide)]
      omega
  have hspace : isSpace c = false := (mem_zeroPadded (hcons ▸ List.mem_cons_self)).2
  have hbody := dropMark_of_ne (by decide : (10 : ℕ) ≠ 16) (signOf (c :: cs)).2
  generalize hr : extractInteger .int (c :: cs) 10 = r
  have hwhole : r.2.fail = false ∧ r.2.eof = true ∧ r.1 = n := by
    have hextract : extractInteger .int (c :: cs) 10 =
        (ofBytes (c :: cs)).extractSigned 10 (-2 ^ 31) (2 ^ 31 - 1) 0 := rfl
    rw [← hr, hextract, extractSigned_whole_iff hspace hbody.symm, hsign]
    refine ⟨hdigits, fun d hd => isDigit_padded hd, ?_, hn.1, hn.2⟩
    rw [digitsVal_replicate_append]
    exact hval
  obtain ⟨hfail, heof, hread⟩ := hwhole
  have hminus : ¬ (r.1 < 0 && signNum (c :: cs) != -1) = true := by
    rw [hread, Bool.and_eq_true, decide_eq_true_eq, bne_iff_ne]
    rintro ⟨hneg, hne⟩
    rw [Ne, signNum_eq_neg_one_iff, hsign, decide_eq_true hneg] at hne
    exact hne rfl
  have hresult : strToInt (zeroPadded w n) 10 =
      if !r.2.fail && r.2.eof then
        if r.1 < 0 && signNum (c :: cs) != -1 then (false, 0) else (true, r.1)
      else (false, 0) := by
    rw [strToInt, strToInteger, htrim, ← hr]
    rfl
  rw [hresult, hfail, heof, if_neg hminus, hread]
  rfl

/-! ### Times -/

namespace Stime

variable {t : Stime} {str : List Byte}

/-- The parts of the text of a time. -/
theorem split_append_cons {u rest : List Byte} {d : Byte} (hu : u ≠ [])
    (hnone : ∀ c ∈ u, ([58, 46] : List Byte).contains c = false)
    (hd : ([58, 46] : List Byte).contains d = true) (hrest : rest ≠ []) :
    split (u ++ d :: rest) [58, 46] true = u :: split rest [58, 46] true := by
  have hkept : isKept true u = true := by simp [isKept, hu]
  rw [split_eq_parts (by simp), split_eq_parts hrest,
    List.splitOnP_append_cons_of_forall_mem hnone d hd, List.filter_cons_of_pos hkept]

theorem split_single {u : List Byte} (hu : u ≠ [])
    (hnone : ∀ c ∈ u, ([58, 46] : List Byte).contains c = false) :
    split u [58, 46] true = [u] := by
  have hkept : isKept true u = true := by simp [isKept, hu]
  rw [split_eq_parts hu, List.splitOnP_eq_singleton hnone, List.filter_cons_of_pos hkept,
    List.filter_nil]

/-- What `to_string` writes, `parse` reads. -/
theorem parse_toString (hhour : IntegerType.int.Has t.hour) (hminute : IntegerType.int.Has t.minute)
    (hsecond : IntegerType.int.Has t.second) (hmillisecond : IntegerType.int.Has t.millisecond)
    (h : t.toString = some str) : parse str = some t := by
  have hnone : ∀ w n, ∀ c ∈ zeroPadded w n, ([58, 46] : List Byte).contains c = false :=
    fun _ _ _ hc => (mem_zeroPadded hc).1
  have hcolon : ([58, 46] : List Byte).contains 58 = true := by decide
  have hpoint : ([58, 46] : List Byte).contains 46 = true := by decide
  rw [toString] at h
  split_ifs at h
  cases h
  rw [parse, split_append_cons (zeroPadded_ne_nil _ _) (hnone _ _) hcolon (by simp),
    split_append_cons (zeroPadded_ne_nil _ _) (hnone _ _) hcolon (by simp),
    split_append_cons (zeroPadded_ne_nil _ _) (hnone _ _) hpoint (zeroPadded_ne_nil _ _),
    split_single (zeroPadded_ne_nil _ _) (hnone _ _)]
  simp only [strToInt_zeroPadded hhour, strToInt_zeroPadded hminute, strToInt_zeroPadded hsecond,
    strToInt_zeroPadded hmillisecond]

/-- A number without a sign is written with as many digits as it is padded to. -/
theorem length_zeroPadded {w : ℕ} {n : ℤ} (hw : 0 < w) (h0 : 0 ≤ n) (h : n < 10 ^ w) :
    (zeroPadded w n).length = w := by
  have hlt : n.natAbs < 10 ^ w := by
    rw [← Int.ofNat_lt, Int.natAbs_of_nonneg h0]
    exact_mod_cast h
  have hlen := length_decimal hw hlt
  rw [zeroPadded, if_neg (Int.not_lt.2 h0), List.length_append, List.length_replicate]
  omega

/-- The text of a time of the local clock has twelve characters, and is read back as this time. -/
theorem parse_toString_curTime (now : ℤ) :
    ∃ str, (curTime now).toString = some str ∧ str.length = 12 ∧
      parse str = some (curTime now) := by
  have hhour : (zeroPadded 2 (curTime now).hour).length = 2 :=
    length_zeroPadded (by decide) (by simp only [curTime]; omega) (by simp only [curTime]; omega)
  have hminute : (zeroPadded 2 (curTime now).minute).length = 2 :=
    length_zeroPadded (by decide) (by simp only [curTime]; omega) (by simp only [curTime]; omega)
  have hsecond : (zeroPadded 2 (curTime now).second).length = 2 :=
    length_zeroPadded (by decide) (by simp only [curTime]; omega) (by simp only [curTime]; omega)
  have hmillisecond : (zeroPadded 3 (curTime now).millisecond).length = 3 :=
    length_zeroPadded (by decide) (by simp only [curTime]; omega) (by simp only [curTime]; omega)
  have hlen : (zeroPadded 2 (curTime now).hour ++ 58 :: (zeroPadded 2 (curTime now).minute ++
      58 :: (zeroPadded 2 (curTime now).second ++
        46 :: zeroPadded 3 (curTime now).millisecond))).length = 12 := by
    simp only [List.length_append, List.length_cons, hhour, hminute, hsecond, hmillisecond]
  have htext : (curTime now).toString = some _ := if_pos (hlen.trans_lt (by decide))
  refine ⟨_, htext, hlen, parse_toString ?_ ?_ ?_ ?_ htext⟩
  all_goals simp only [IntegerType.Has, IntegerType.int, curTime]; omega

end Stime

end Miscellany
