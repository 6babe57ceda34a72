import Miscellany.IcuEncoding.Convert
import Miscellany.Library.Parts

/-!
# Round trips between encodings

Both arrays of `convert` are large enough for every text, and the second one has room for the null
character behind the output (`convert_eq`). But the string that is returned is made of the array up
to the first null character. So a text is converted as a whole, and back, if and only if it has no
null character (`roundTrips_iff`).
-/

namespace Miscellany

open Icu

namespace Encoding

/-- The text is converted as a whole, and converting it back gives the text, where `t` and `u` are
what the strings that are written have been. -/
def RoundTrips (alloc : ℤ → Bool) (a b : UConverter) (ca cb : Charset) (s t u : List UInt8) :
    Prop :=
  (∃ err, convert alloc (some (ofConverter a)) (some (ofConverter b)) s t =
    some (cb.fromUnicode (ca.toUnicode s), err) ∧ err.isError = false) ∧
  ∃ err, convert alloc (some (ofConverter b)) (some (ofConverter a))
    (cb.fromUnicode (ca.toUnicode s)) u = some (s, err) ∧ err.isError = false

/-! ### Arrays -/

theorem isError_of_le {code : ℤ} (h : code ≤ 0) : (EncodingError.mk code).isError = false :=
  decide_eq_false (Int.not_lt.2 h)

theorem toInt_of_range {n : ℤ} (hlo : 0 ≤ n) (hhi : n < 2 ^ 31) : toInt n = n := by
  apply Int.bmod_eq_of_le
  · omega
  · omega

section

variable {α : Type} (null : α) {capacity : ℤ} {out : List α}

theorem code_conversion_le (h : out.length ≤ capacity) :
    (conversion null capacity out).code ≤ 0 := by
  rw [conversion]
  split_ifs with hlt heq
  · exact Int.le_refl 0
  · exact (by decide : stringNotTerminatedWarning ≤ 0)
  · omega

theorem code_conversion_of_lt (h : out.length < capacity) :
    (conversion null capacity out).code = zeroError := if_pos h

/-- The output is in front in the array. -/
theorem prefix_stored_conversion (h : out.length ≤ capacity) :
    out <+: (conversion null capacity out).stored := by
  have hle : out.length ≤ capacity.toNat := by omega
  have htake : out = (out ++ [null]).take out.length := by rw [List.take_left]
  have hprefix := List.take_prefix_take_left hle (l := out ++ [null])
  rwa [← htake] at hprefix

/-- The null character is behind the output. -/
theorem stored_conversion_of_lt (h : out.length < capacity) :
    (conversion null capacity out).stored = out ++ [null] := by
  rw [conversion, List.take_of_length_le]
  rw [List.length_append, List.length_singleton]
  omega

end

theorem ofArray_append (out : List UInt8) :
    ofArray (out ++ [0]) = some (out.takeWhile (· != 0)) := by
  have hzero : (out ++ [0]).contains 0 = true := by simp
  have htake : (out ++ [0]).takeWhile (· != 0) = out.takeWhile (· != 0) := by
    rw [List.takeWhile_append]
    split_ifs with hall
    · rw [(List.takeWhile_prefix _).eq_of_length hall]
      exact List.append_nil out
    · rfl
  rw [ofArray, if_pos hzero, htake]

/-! ### One conversion -/

variable {alloc : ℤ → Bool} {a b : UConverter} {ca cb : Charset} {s : List UInt8}

/-- The first array has room for all code units. -/
theorem length_le_wbufSize (ha : Documented a ca) (hs : ca.Valid s) (hlen : s.length < 2 ^ 30) :
    ∃ wbufSize, toInt (toInt (s.length / a.minCharSize) * 2) = wbufSize ∧
      (ca.toUnicode s).length ≤ wbufSize ∧ wbufSize ≤ s.length * 2 := by
  have hle : ((ca.toUnicode s).length : ℤ) ≤ s.length / a.minCharSize :=
    Int.le_ediv_of_mul_le ha.minCharSize_pos (ha.length_toUnicode s hs)
  have hself : (s.length : ℤ) / a.minCharSize ≤ s.length :=
    Int.ediv_le_self _ (Int.natCast_nonneg _)
  rw [toInt_of_range (n := s.length / a.minCharSize) (by omega) (by omega),
    toInt_of_range (by omega) (by omega)]
  exact ⟨_, rfl, by omega, by omega⟩

/-- The second array has room for the output and a null character. -/
theorem length_lt_bufSize (hb : Documented b cb) {text : List Wchar} (htext : cb.Exists text)
    (hlen : text.length < 2 ^ 28) :
    ∃ bufSize, maxBytesForString text.length b.maxCharSize = bufSize ∧
      (cb.fromUnicode text).length < bufSize := by
  have hle := hb.length_fromUnicode text htext
  have hpos := hb.maxCharSize_pos
  have hmax := hb.maxCharSize_le
  have hroom : ((text.length : ℤ) + 10) * b.maxCharSize =
      text.length * b.maxCharSize + 10 * b.maxCharSize := Int.add_mul _ _ _
  have hprod : (text.length : ℤ) * b.maxCharSize ≤ text.length * 3 :=
    Int.mul_le_mul_of_nonneg_left hmax (Int.natCast_nonneg _)
  rw [maxBytesForString, toInt_of_range (by omega) (by omega)]
  exact ⟨_, rfl, by omega⟩

theorem toUnicode_ofConverter (ha : Documented a ca) (hs : ca.Valid s) {capacity : ℤ}
    (hcapacity : 0 ≤ capacity) :
    (ofConverter a).toUnicode s s.length capacity =
      .ofConversion (conversion 0 capacity (ca.toUnicode s)) :=
  congrArg Converted.ofConversion (ha.toUChars s capacity hs hcapacity)

theorem fromUnicode_ofConverter (hb : Documented b cb) {src text : List Wchar}
    (hsrc : text <+: src) (htext : cb.Exists text) {capacity : ℤ} (hcapacity : 0 ≤ capacity) :
    (ofConverter b).fromUnicode src text.length capacity =
      .ofConversion (conversion 0 capacity (cb.fromUnicode text)) :=
  congrArg Converted.ofConversion (hb.fromUChars src text capacity hsrc htext hcapacity)

theorem convert_nil (pSrc pDst : Encoding) (t : List UInt8) :
    convert alloc (some pSrc) (some pDst) [] t = some ([], ⟨zeroError⟩) := rfl

/-- A conversion in which both arrays can be allocated and there is no error. -/
theorem convert_of_ne_nil (pSrc pDst : Encoding) {wbufSize bufSize : ℤ} {r : Converted Wchar}
    {r' : Converted UInt8} (hs : s ≠ []) (hlen : toInt s.length = s.length)
    (hwbufSize : toInt (toInt (s.length / pSrc.getMinCharSize) * 2) = wbufSize)
    (hwbuf : alloc (wbufSize * 2) = true) (hr : pSrc.toUnicode s s.length wbufSize = r)
    (herr : r.err.isError = false) (hbufSize : pDst.getMaxByteCount r.length = bufSize)
    (hbuf : alloc bufSize = true)
    (hr' : pDst.fromUnicode r.stored r.length bufSize = r')
    (herr' : r'.err.isError = false) (t : List UInt8) :
    convert alloc (some pSrc) (some pDst) s t =
      (ofArray r'.stored).map fun str => (str, r'.err) := by
  have hempty : s.isEmpty = false := List.isEmpty_eq_false_iff.2 hs
  simp only [convert, hempty, hlen, hwbufSize, hwbuf, hr, herr, hbufSize, hbuf, hr', herr',
    Bool.not_true, Bool.false_eq_true, if_false]

/-- What is returned is the output up to the first null character. -/
theorem convert_eq (halloc : ∀ n, 0 ≤ n → alloc n = true) (ha : Documented a ca)
    (hb : Documented b cb) (hs : ca.Valid s) (htext : cb.Exists (ca.toUnicode s))
    (hlen : s.length < 2 ^ 30) (hunits : (ca.toUnicode s).length < 2 ^ 28) (t : List UInt8) :
    convert alloc (some (ofConverter a)) (some (ofConverter b)) s t =
      some ((cb.fromUnicode (ca.toUnicode s)).takeWhile (· != 0), ⟨zeroError⟩) := by
  obtain ⟨wbufSize, hwbufSize, hroom, hle⟩ := length_le_wbufSize ha hs hlen
  obtain ⟨bufSize, hbufSize, hroom'⟩ := length_lt_bufSize hb htext hunits
  by_cases hempty : s = []
  · -- Nothing is converted, and there is no output.
    have hnil : ca.toUnicode s = [] := by
      rw [hempty, List.length_nil] at hle
      exact List.eq_nil_of_length_eq_zero (by omega)
    have hout := hb.length_fromUnicode _ htext
    rw [hnil, List.length_nil, Int.natCast_zero, Int.zero_mul] at hout
    have hnil' : cb.fromUnicode [] = [] := List.eq_nil_of_length_eq_zero (by omega)
    rw [hnil, hnil', hempty]
    exact convert_nil _ _ t
  · have hwbuf : alloc (wbufSize * 2) = true := halloc _ (by omega)
    have hbuf : alloc bufSize = true := halloc _ (by omega)
    have hsize := toInt_of_range (Int.natCast_nonneg s.length) (by omega)
    have hto := toUnicode_ofConverter ha hs (Int.le_trans (Int.natCast_nonneg _) hroom)
    have herr := isError_of_le (code_conversion_le 0 hroom)
    have hfrom := fromUnicode_ofConverter hb (prefix_stored_conversion 0 hroom) htext
      (Int.le_trans (Int.natCast_nonneg _) (Int.le_of_lt hroom'))
    have hcode := code_conversion_of_lt 0 hroom'
    have herr' := isError_of_le (Int.le_of_eq hcode)
    have hstored := stored_conversion_of_lt 0 hroom'
    have hconvert := convert_of_ne_nil (ofConverter a) (ofConverter b) hempty hsize hwbufSize
      hwbuf hto herr hbufSize hbuf hfrom herr' t
    rw [hconvert, Converted.ofConversion, hstored, ofArray_append, hcode]
    rfl

/-! ### Round trips -/

/-- The output has a null character if the text has one. -/
theorem zero_mem_iff (ha : Documented a ca) (hb : Documented b cb) (hs : ca.Valid s)
    (htext : cb.Exists (ca.toUnicode s)) : 0 ∈ cb.fromUnicode (ca.toUnicode s) ↔ 0 ∈ s := by
  rw [← hb.zero_mem_toUnicode _ (hb.valid_fromUnicode _ htext),
    hb.toUnicode_fromUnicode _ htext, ha.zero_mem_toUnicode s hs]

/-- The output is not too long to be converted back. -/
theorem length_lt (ha : Documented a ca) (hb : Documented b cb) (hs : ca.Valid s)
    (htext : cb.Exists (ca.toUnicode s)) (hlen : s.length < 2 ^ 28) :
    (ca.toUnicode s).length < 2 ^ 28 ∧ (cb.fromUnicode (ca.toUnicode s)).length < 2 ^ 30 := by
  have hunits : ((ca.toUnicode s).length : ℤ) ≤ s.length / a.minCharSize :=
    Int.le_ediv_of_mul_le ha.minCharSize_pos (ha.length_toUnicode s hs)
  have hself : (s.length : ℤ) / a.minCharSize ≤ s.length :=
    Int.ediv_le_self _ (Int.natCast_nonneg _)
  have hout := hb.length_fromUnicode _ htext
  have hprod : ((ca.toUnicode s).length : ℤ) * b.maxCharSize ≤ (ca.toUnicode s).length * 3 :=
    Int.mul_le_mul_of_nonneg_left hb.maxCharSize_le (Int.natCast_nonneg _)
  constructor
  · omega
  · omega

/-- A text is converted as a whole, and back, if and only if it has no null character. -/
theorem roundTrips_iff (halloc : ∀ n, 0 ≤ n → alloc n = true) (ha : Documented a ca)
    (hb : Documented b cb) (hs : ca.Valid s) (htext : cb.Exists (ca.toUnicode s))
    (hlen : s.length < 2 ^ 28) (t u : List UInt8) :
    RoundTrips alloc a b ca cb s t u ↔ 0 ∉ s := by
  obtain ⟨hunits, hout⟩ := length_lt ha hb hs htext hlen
  have hback := hb.toUnicode_fromUnicode _ htext
  have hconvert := convert_eq halloc ha hb hs htext (by omega) hunits t
  rw [← zero_mem_iff ha hb hs htext, ← takeWhile_bne_eq_self_iff]
  constructor
  · rintro ⟨⟨err, h, -⟩, -⟩
    rw [hconvert] at h
    exact (Prod.mk.inj (Option.some.inj h)).1
  · intro htake
    have hvalid := hb.valid_fromUnicode _ htext
    have htext' : ca.Exists (cb.toUnicode (cb.fromUnicode (ca.toUnicode s))) := by
      rw [hback]
      exact ha.exists_toUnicode s hs
    have hunits' : (cb.toUnicode (cb.fromUnicode (ca.toUnicode s))).length < 2 ^ 28 := by
      rw [hback]
      exact hunits
    have hconvert' := convert_eq halloc hb ha hvalid htext' hout hunits' u
    -- What is converted back has no null character either.
    have hzero : 0 ∉ s := by
      rw [← zero_mem_iff ha hb hs htext, ← takeWhile_bne_eq_self_iff]
      exact htake
    rw [htake] at hconvert
    rw [hback, ha.fromUnicode_toUnicode s hs, takeWhile_bne_eq_self_iff.2 hzero] at hconvert'
    exact ⟨⟨_, hconvert, rfl⟩, _, hconvert', rfl⟩

/-! ### Texts in ASCII -/

/-- The part of both encodings that they have in common. -/
def ascii : Charset where
  Valid s := ∀ c ∈ s, c < 128
  Exists text := ∀ c ∈ text, c < 128
  toUnicode s := s.map UInt8.toUInt16
  fromUnicode text := text.map UInt16.toUInt8

/-- A converter for texts in ASCII. -/
def asciiConverter (name : String) (maxCharSize : ℤ) : UConverter where
  name := name
  minCharSize := 1
  maxCharSize := maxCharSize
  toUChars capacity src srcSize := conversion 0 capacity (ascii.toUnicode (src.take srcSize.toNat))
  fromUChars capacity src srcSize :=
    conversion 0 capacity (ascii.fromUnicode (src.take srcSize.toNat))

theorem documented_asciiConverter (name : String) {maxCharSize : ℤ} (hpos : 0 < maxCharSize)
    (hle : maxCharSize ≤ 3) : Documented (asciiConverter name maxCharSize) ascii where
  exists_toUnicode := by
    intro s hs c hc
    obtain ⟨d, hd, rfl⟩ := List.mem_map.1 hc
    have hlt := hs d hd
    rw [UInt8.lt_iff_toNat_lt] at hlt
    rw [UInt16.lt_iff_toNat_lt, UInt8.toNat_toUInt16]
    exact hlt
  valid_fromUnicode := by
    intro text htext c hc
    obtain ⟨d, hd, rfl⟩ := List.mem_map.1 hc
    have hlt := htext d hd
    rw [UInt16.lt_iff_toNat_lt] at hlt
    rw [UInt8.lt_iff_toNat_lt, UInt16.toNat_toUInt8]
    exact Nat.lt_of_le_of_lt (Nat.mod_le _ _) hlt
  fromUnicode_toUnicode := by
    intro s _
    change (s.map UInt8.toUInt16).map UInt16.toUInt8 = s
    rw [List.map_map]
    exact (List.map_congr_left fun c _ => UInt8.toUInt8_toUInt16 c).trans (List.map_id s)
  toUnicode_fromUnicode := by
    intro text htext
    change (text.map UInt16.toUInt8).map UInt8.toUInt16 = text
    rw [List.map_map]
    refine (List.map_congr_left fun c hc => ?_).trans (List.map_id text)
    have hlt := htext c hc
    rw [UInt16.lt_iff_toNat_lt] at hlt
    have h128 : (128 : UInt16).toNat = 128 := rfl
    rw [Function.comp_apply, id, ← UInt16.toNat_inj, UInt8.toNat_toUInt16, UInt16.toNat_toUInt8]
    omega
  toUChars := by
    intro s capacity _ _
    change conversion 0 capacity (ascii.toUnicode (s.take (s.length : ℤ).toNat)) = _
    rw [Int.toNat_natCast, List.take_length]
  fromUChars := by
    intro src text capacity hsrc _ _
    change conversion 0 capacity (ascii.fromUnicode (src.take (text.length : ℤ).toNat)) = _
    rw [Int.toNat_natCast, ← List.prefix_iff_eq_take.1 hsrc]
  minCharSize_pos := Int.one_pos
  maxCharSize_pos := hpos
  maxCharSize_le := hle
  length_toUnicode := by
    intro s _
    change ((s.map UInt8.toUInt16).length : ℤ) * 1 ≤ s.length
    rw [List.length_map]
    omega
  length_fromUnicode := by
    intro text _
    change ((text.map UInt16.toUInt8).length : ℤ) ≤ text.length * maxCharSize
    have hprod : (text.length : ℤ) * 1 ≤ text.length * maxCharSize :=
      Int.mul_le_mul_of_nonneg_left hpos (Int.natCast_nonneg _)
    rw [List.length_map]
    omega
  zero_mem_toUnicode := by
    intro s _
    change 0 ∈ s.map UInt8.toUInt16 ↔ 0 ∈ s
    rw [List.mem_map]
    constructor
    · rintro ⟨c, hc, hzero⟩
      have hnat := congrArg UInt16.toNat hzero
      rw [UInt8.toNat_toUInt16] at hnat
      have hc0 : c = 0 := UInt8.toNat_inj.1 hnat
      exact hc0 ▸ hc
    · intro hzero
      exact ⟨0, hzero, rfl⟩

/-- `ucnv_open` for texts in ASCII. -/
def asciiOpen (name : String) : Option UConverter :=
  if name = "gbk" then some (asciiConverter "GBK" 2)
  else if name = "utf-8" then some (asciiConverter "UTF-8" 3)
  else none

/-- The string `"ab"`. -/
theorem roundTrips_ab :
    gbk asciiOpen = some (ofConverter (asciiConverter "GBK" 2)) ∧
      utf8 asciiOpen = some (ofConverter (asciiConverter "UTF-8" 3)) ∧
      RoundTrips (fun _ => true) (asciiConverter "GBK" 2) (asciiConverter "UTF-8" 3) ascii ascii
        [97, 98] [] [] := by
  have hgbk := documented_asciiConverter "GBK" (by decide : (0 : ℤ) < 2) (by decide)
  have hutf8 := documented_asciiConverter "UTF-8" (by decide : (0 : ℤ) < 3) (by decide)
  have hvalid : ascii.Valid [97, 98] := by simp [ascii]
  refine ⟨rfl, rfl, ?_⟩
  exact (roundTrips_iff (fun _ _ => rfl) hgbk hutf8 hvalid (hgbk.exists_toUnicode _ hvalid)
    (by decide) [] []).2 (by decide)

/-- The string `"a\0b"`. -/
theorem not_roundTrips_null :
    ascii.Valid [97, 0, 98] ∧
      convert (fun _ => true) (gbk asciiOpen) (utf8 asciiOpen) [97, 0, 98] [] =
        some ([97], ⟨zeroError⟩) ∧
      ¬ RoundTrips (fun _ => true) (asciiConverter "GBK" 2) (asciiConverter "UTF-8" 3) ascii ascii
        [97, 0, 98] [] [] := by
  have hconvert : convert (fun _ => true) (gbk asciiOpen) (utf8 asciiOpen) [97, 0, 98] [] =
      some ([97], ⟨zeroError⟩) := by decide
  refine ⟨?_, hconvert, ?_⟩
  · simp [ascii]
  · rintro ⟨⟨err, h, -⟩, -⟩
    have heq := hconvert.symm.trans h
    exact absurd (Prod.mk.inj (Option.some.inj heq)).1 (by decide)

end Encoding

end Miscellany
