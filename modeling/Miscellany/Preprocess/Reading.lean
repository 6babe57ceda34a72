import Miscellany.Preprocess.SrcFile
import Miscellany.Sstring.Parts

/-!
# Reading a source file

`read` pushes an entry for each line up to the first one that has more than 255 characters: there
`getline` fails, and nothing tells the caller (`readLoop_eq`). So a file is read as a whole if and
only if it has no such line, no null character, and no more lines than an `int` can count.
-/

namespace Miscellany

open InputStream WbaStr

namespace SrcFile

/-- The entries of the lines, which are numbered from `count + 1` on. -/
def entriesFrom (filename : String) : ℤ → List (List Byte) → List SrcLine
  | _, [] => []
  | count, line :: rest =>
      SrcLine.new (line.takeWhile (· != 0)) filename (addInt count 1) ::
        entriesFrom filename (addInt count 1) rest

/-- `getline` does not fail at the line. -/
def isShort (line : List Byte) : Bool := line.length ≤ 255

/-- The file has one entry more for each line of the text, with its number and its words. -/
def ReadsAll (f : SrcFile) (filename : String) (text : List Byte) : Prop :=
  ∃ g new, f.read filename text = some g ∧ g.data = f.data ++ new ∧
    new.length = (lines lf text).length ∧
    ∀ (k : ℕ) (line : List Byte), (lines lf text)[k]? = some line →
      ∃ entry : SrcLine, new[k]? = some entry ∧ entry.line = k + 1 ∧ entry.file = filename ∧
        RunsOf (· != 32) line entry.data

/-! ### The loop -/

theorem isShort_of_le {line : List Byte} (h : line.length ≤ 255) : isShort line = true :=
  decide_eq_true h

theorem not_isShort_of_lt {line : List Byte} (h : 255 < line.length) : ¬ isShort line = true := by
  rw [isShort, decide_eq_true_eq]
  exact Nat.not_le.2 h

theorem data_foldl_pushLine (f : SrcFile) (entries : List SrcLine) :
    (entries.foldl pushLine f).data = f.data ++ entries := by
  induction entries generalizing f with
  | nil => rw [List.foldl_nil, List.append_nil]
  | cons entry entries ih =>
      rw [List.foldl_cons, ih, pushLine, List.append_assoc]
      rfl

theorem readLoop_fail {s : InputStream} (h : (s.getlineBuf 256).2.fail = true) (filename : String)
    (fuel : ℕ) (count : ℤ) (f : SrcFile) :
    readLoop filename (fuel + 1) s count f = some f := by
  rw [readLoop, h]
  rfl

theorem readLoop_line {s s' : InputStream} {line : List Byte} (h : s.getlineBuf 256 = (line, s'))
    (hs' : s'.fail = false) (filename : String) (fuel : ℕ) (count : ℤ) (f : SrcFile) :
    readLoop filename (fuel + 1) s count f =
      readLoop filename fuel s' (addInt count 1)
        (f.pushLine (SrcLine.new (line.takeWhile (· != 0)) filename (addInt count 1))) := by
  rw [readLoop, h, hs']
  rfl

/-- The last line, without an end. -/
theorem readLoop_last (filename : String) {fuel : ℕ} {line : List Byte} (hlf : lf ∉ line)
    (hfuel : line.length < fuel) (count : ℤ) (f : SrcFile) :
    readLoop filename fuel (ofBytes line) count f =
      some ((entriesFrom filename count ((lines lf line).takeWhile isShort)).foldl pushLine f) := by
  obtain ⟨fuel, rfl⟩ := Nat.exists_eq_succ_of_ne_zero (Nat.ne_zero_of_lt hfuel)
  by_cases hempty : line = []
  · rw [hempty, lines_nil]
    exact readLoop_fail rfl filename fuel count f
  rw [lines_of_notMem hlf hempty]
  by_cases hshort : line.length ≤ 255
  · have hget := getlineBuf_ofBytes (n := 256) hlf hshort
    have hne : line.isEmpty = false := List.isEmpty_eq_false_iff.2 hempty
    -- One more turn of the loop meets the end of the file.
    have hpos : 0 < line.length := List.length_pos_iff.2 hempty
    obtain ⟨fuel, rfl⟩ := Nat.exists_eq_succ_of_ne_zero (n := fuel) (by omega)
    rw [readLoop_line hget hne, readLoop_fail (fail_getlineBuf_of_eof rfl 256),
      List.takeWhile_cons_of_pos (isShort_of_le hshort)]
    rfl
  · have hfail : ((ofBytes line).getlineBuf 256).2.fail = true := by
      apply fail_getlineBuf
      rw [takeWhile_bne_eq_self_iff.2 hlf]
      exact Nat.not_le.1 hshort
    rw [readLoop_fail hfail, List.takeWhile_cons_of_neg (not_isShort_of_lt (Nat.not_le.1 hshort))]
    rfl

/-- The loop pushes the entries of the lines up to the first one that is too long. -/
theorem readLoop_eq (filename : String) {fuel : ℕ} {text : List Byte} (hfuel : text.length < fuel)
    (count : ℤ) (f : SrcFile) :
    readLoop filename fuel (ofBytes text) count f =
      some ((entriesFrom filename count ((lines lf text).takeWhile isShort)).foldl pushLine f) := by
  induction fuel generalizing text count f with
  | zero => exact absurd hfuel (Nat.not_lt_zero _)
  | succ fuel ih =>
      by_cases hmem : lf ∈ text
      · obtain ⟨line, rest, rfl, hlf⟩ := List.eq_append_cons_of_mem hmem
        rw [lines_append_cons hlf]
        by_cases hshort : line.length ≤ 255
        · rw [readLoop_line (getlineBuf_ofBytes_append hlf hshort rest) rfl,
            List.takeWhile_cons_of_pos (isShort_of_le hshort), ih]
          · rfl
          · rw [List.length_append, List.length_cons] at hfuel
            omega
        · have hfail : ((ofBytes (line ++ lf :: rest)).getlineBuf 256).2.fail = true := by
            apply fail_getlineBuf
            rw [(takeWhile_ne_lf hlf rest).1]
            exact Nat.not_le.1 hshort
          rw [readLoop_fail hfail,
            List.takeWhile_cons_of_neg (not_isShort_of_lt (Nat.not_le.1 hshort))]
          rfl
      · exact readLoop_last filename hmem hfuel count f

/-- `read` always returns, and does not change the entries that are there. -/
theorem read_eq (f : SrcFile) (filename : String) (text : List Byte) :
    f.read filename text =
      some ((entriesFrom filename 0 ((lines lf text).takeWhile isShort)).foldl pushLine f) :=
  readLoop_eq filename (Nat.lt_succ_self text.length) 0 f

/-! ### The entries -/

theorem line_new (str : List Byte) (file : String) (line : ℤ) :
    (SrcLine.new str file line).line = line := rfl

theorem data_new (str : List Byte) (file : String) (line : ℤ) :
    (SrcLine.new str file line).data = Pgr.split str [32] true := rfl

theorem length_entriesFrom (filename : String) (count : ℤ) (ls : List (List Byte)) :
    (entriesFrom filename count ls).length = ls.length := by
  induction ls generalizing count with
  | nil => rfl
  | cons line ls ih => rw [entriesFrom, List.length_cons, List.length_cons, ih]

/-- The count is kept in an `int`. -/
theorem getElem?_entriesFrom (filename : String) (m : ℤ) (ls : List (List Byte)) (k : ℕ) :
    (entriesFrom filename (Int.bmod m (2 ^ 32)) ls)[k]? =
      ls[k]?.map fun line =>
        SrcLine.new (line.takeWhile (· != 0)) filename (Int.bmod (m + k + 1) (2 ^ 32)) := by
  have hnext : addInt (Int.bmod m (2 ^ 32)) 1 = Int.bmod (m + 1) (2 ^ 32) := by
    rw [addInt, Int.bmod_add_bmod]
  induction ls generalizing m k with
  | nil => rfl
  | cons line ls ih =>
      rw [entriesFrom, hnext]
      cases k with
      | zero => simp
      | succ k =>
          have hcount : m + 1 + (k : ℤ) + 1 = m + (k + 1 : ℕ) + 1 := by omega
          rw [List.getElem?_cons_succ, List.getElem?_cons_succ, ih, hcount]
          rw [addInt, Int.bmod_add_bmod]

theorem bmod_count {k : ℕ} (h : k + 1 < 2 ^ 31) : Int.bmod ((0 : ℤ) + k + 1) (2 ^ 32) = k + 1 := by
  rw [Int.bmod_eq_of_le]
  · omega
  · omega
  · omega

/-- A line is split at its spaces. -/
theorem runsOf_iff_split {line : List Byte} {words : List (List Byte)} :
    RunsOf (· != 32) line words ↔ words = Pgr.split line [32] true := by
  have hspace : (fun c : Byte => !List.contains [32] c) = (· != 32) := by
    funext c
    rw [List.contains_cons, List.contains_nil, Bool.or_false]
    rfl
  rw [runsOf_iff, Pgr.split_eq, hspace]

/-- What is in front of the first null character has the words of the line only if there is none. -/
theorem runsOf_takeWhile_iff {line : List Byte} :
    RunsOf (· != 32) line (Pgr.split (line.takeWhile (· != 0)) [32] true) ↔ 0 ∉ line := by
  rw [runsOf_iff_split]
  constructor
  · intro hsplit hzero
    have hflat := congrArg List.flatten hsplit
    rw [Pgr.flatten_split_true, Pgr.flatten_split_true] at hflat
    have hmem : (0 : Byte) ∈ line.filter fun c => !List.contains [32] c :=
      List.mem_filter.2 ⟨hzero, by decide⟩
    rw [← hflat] at hmem
    have htake := List.mem_takeWhile_imp (List.mem_filter.1 hmem).1
    exact absurd htake (by decide)
  · intro hzero
    rw [takeWhile_bne_eq_self_iff.2 hzero]

/-! ### Whole files -/

/-- What is pushed are the entries of all lines. -/
theorem readsAll_iff_entries (f : SrcFile) (filename : String) (text : List Byte) :
    ReadsAll f filename text ↔
      ((lines lf text).takeWhile isShort).length = (lines lf text).length ∧
      ∀ (k : ℕ) (line : List Byte), (lines lf text)[k]? = some line →
        Int.bmod ((0 : ℤ) + k + 1) (2 ^ 32) = k + 1 ∧ 0 ∉ line := by
  have hentry : ∀ {ls : List (List Byte)} {k : ℕ} {line : List Byte}, ls[k]? = some line →
      (entriesFrom filename 0 ls)[k]? =
        some (SrcLine.new (line.takeWhile (· != 0)) filename
          (Int.bmod ((0 : ℤ) + k + 1) (2 ^ 32))) := by
    intro ls k line hline
    have hget := getElem?_entriesFrom filename 0 ls k
    rwa [Int.zero_bmod, hline] at hget
  constructor
  · rintro ⟨g, new, hread, hdata, hlen, hnew⟩
    have hread' := read_eq f filename text
    rw [hread] at hread'
    rw [Option.some.inj hread', data_foldl_pushLine] at hdata
    have heq := List.append_cancel_left hdata
    rw [← heq, length_entriesFrom] at hlen
    have hall : (lines lf text).takeWhile isShort = lines lf text :=
      (List.takeWhile_prefix isShort).eq_of_length hlen
    rw [hall] at heq
    refine ⟨hlen, fun k line hline => ?_⟩
    obtain ⟨entry, hk, hcount, -, hwords⟩ := hnew k line hline
    rw [← heq, hentry hline] at hk
    rw [← Option.some.inj hk, line_new] at hcount
    rw [← Option.some.inj hk, data_new] at hwords
    exact ⟨hcount, runsOf_takeWhile_iff.1 hwords⟩
  · rintro ⟨hlen, hgood⟩
    have hall : (lines lf text).takeWhile isShort = lines lf text :=
      (List.takeWhile_prefix isShort).eq_of_length hlen
    refine ⟨_, _, read_eq f filename text, data_foldl_pushLine f _, ?_, ?_⟩
    · rw [length_entriesFrom, hlen]
    · intro k line hline
      obtain ⟨hcount, hzero⟩ := hgood k line hline
      rw [hall]
      refine ⟨_, hentry hline, ?_, rfl, ?_⟩
      · rw [line_new, hcount]
      · rw [data_new]
        exact runsOf_takeWhile_iff.2 hzero

/-- A file is read as a whole if and only if each line has at most 255 characters, none of them the
null character, and the lines can be counted. -/
theorem readsAll_iff (f : SrcFile) (filename : String) (text : List Byte) :
    ReadsAll f filename text ↔
      (∀ line ∈ lines lf text, line.length ≤ 255 ∧ 0 ∉ line) ∧
        (lines lf text).length < 2 ^ 31 := by
  rw [readsAll_iff_entries]
  constructor
  · rintro ⟨hlen, hgood⟩
    have hall : ∀ line ∈ lines lf text, isShort line = true := by
      rw [← List.takeWhile_eq_self_iff]
      exact (List.takeWhile_prefix isShort).eq_of_length hlen
    constructor
    · intro line hline
      obtain ⟨k, hk⟩ := List.mem_iff_getElem?.1 hline
      exact ⟨of_decide_eq_true (hall line hline), (hgood k line hk).2⟩
    · -- The line with the number 2 ^ 31 is the first one that is numbered wrong.
      by_contra hmany
      have hlast : 2 ^ 31 - 1 < (lines lf text).length := by omega
      have hcount := (hgood _ _ (List.getElem?_eq_getElem hlast)).1
      exact absurd hcount (by decide)
  · rintro ⟨hgood, hmany⟩
    have hall : (lines lf text).takeWhile isShort = lines lf text := by
      rw [List.takeWhile_eq_self_iff]
      exact fun line hline => isShort_of_le (hgood line hline).1
    refine ⟨congrArg List.length hall, fun k line hk => ?_⟩
    have hlt : k < (lines lf text).length := (List.getElem?_eq_some_iff.1 hk).1
    exact ⟨bmod_count (by omega), (hgood line (List.mem_of_getElem? hk)).2⟩

/-- A line that is too long hides itself and all lines behind it. -/
theorem takeWhile_isShort_of_long {line : List Byte} (hlf : lf ∉ line) (hlong : 255 < line.length)
    (rest : List Byte) : (lines lf (line ++ lf :: rest)).takeWhile isShort = [] := by
  rw [lines_append_cons hlf, List.takeWhile_cons_of_neg (not_isShort_of_lt hlong)]

theorem not_readsAll_long :
    SrcFile.new.read "a.cc" (List.replicate 256 97 ++ lf :: [98, lf]) = some SrcFile.new ∧
      (lines lf (List.replicate 256 97 ++ lf :: [98, lf])).length = 2 ∧
      ¬ ReadsAll SrcFile.new "a.cc" (List.replicate 256 97 ++ lf :: [98, lf]) := by
  have hlf : lf ∉ List.replicate 256 (97 : Byte) := by
    intro hmem
    exact absurd (List.eq_of_mem_replicate hmem) (by decide)
  have hlong : 255 < (List.replicate 256 (97 : Byte)).length := by
    rw [List.length_replicate]
    decide
  have hlines : (lines lf (List.replicate 256 97 ++ lf :: [98, lf])).length = 2 := by
    rw [lines_append_cons hlf, List.length_cons]
    rfl
  have hshort := takeWhile_isShort_of_long hlf hlong [98, lf]
  refine ⟨?_, hlines, ?_⟩
  · rw [read_eq, hshort]
    rfl
  · rw [readsAll_iff_entries, hshort, hlines]
    rintro ⟨hlen, -⟩
    exact absurd hlen (by decide)

end SrcFile

end Miscellany
