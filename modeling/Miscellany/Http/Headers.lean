import Mathlib.Data.List.TakeWhile
import Miscellany.Http.Client

/-!
# The header block

A header field is a name, a colon, spaces or tabs, a value and the end of the line. What a block
of fields says is read off the fields by their names, which are compared without regard to case.

`http_headers` recognises a line by a text anywhere in it, takes the first word off and reads the
second one. A field is read as it is named (`ReadAsNamed`) only if it is spelled as in the source
with a space behind the colon, and a field of another name only if it has neither of the two texts
in it or no second word. The outcome depends on the named fields alone exactly when this holds of
all fields.
-/

namespace Miscellany

namespace HttpClient

open InputStream

def colon : Byte := 58

def cr : Byte := 13

/-- A letter in lower case. -/
def toLower (c : Byte) : Byte := if 65 ≤ c ∧ c ≤ 90 then c + 32 else c

/-- Whether the name is the given text, without regard to case. -/
def sameName (name : List Byte) (text : String) : Bool :=
  name.map toLower == (ascii text).map toLower

/-- A header field. The value is what comes behind the spaces; that of a content length is a number
of the type `size_t`. -/
structure Field where
  name : List Byte
  ows : List Byte
  value : List Byte
  name_ne : name ≠ []
  name_ok : ∀ c ∈ name, c ≠ colon ∧ isSpace c = false
  ows_ok : ∀ c ∈ ows, c = 32 ∨ c = 9
  value_ok : ∀ c ∈ value, c ≠ cr ∧ c ≠ lf
  value_head : ∀ c ∈ value.head?, c ≠ 32 ∧ c ≠ 9
  number : sameName name "Content-Length" = true →
    value ≠ [] ∧ (∀ c ∈ value, isDigit 10 c = true) ∧ digitsVal 10 value < sizeMod

namespace Field

/-- The line of the field, without its end. -/
def line (f : Field) : List Byte := f.name ++ colon :: (f.ows ++ f.value ++ [cr])

def isTransferEncoding (f : Field) : Bool := sameName f.name "Transfer-Encoding"

def isContentLength (f : Field) : Bool := sameName f.name "Content-Length"

def isNamed (f : Field) : Bool := f.isTransferEncoding || f.isContentLength

/-- What the field says, where the transfer encoding and the length were `r`. -/
def apply (f : Field) (r : List Byte × ℕ) : List Byte × ℕ :=
  if f.isTransferEncoding then (f.value, r.2)
  else if f.isContentLength then (r.1, digitsVal 10 f.value)
  else r

end Field

/-- A block of header fields, with the empty line. -/
def block (fields : List Field) : List Byte :=
  fields.flatMap (fun f => f.line ++ [lf]) ++ [cr, lf]

/-- `http_headers`, with what the two references hold before. -/
def httpHeadersInto (transferEncoding : List Byte) (length : ℕ) (response : List Byte) :
    List Byte × ℕ × List Byte :=
  httpHeadersLoop (response.length + 1) (ofBytes response) [] transferEncoding length

/-- The value of the last field with the name of the transfer encoding. -/
def transferEncodingOf (fields : List Field) (transferEncoding : List Byte) : List Byte :=
  ((fields.filter Field.isTransferEncoding).getLast?.map Field.value).getD transferEncoding

/-- The number of the last field with the name of the content length. -/
def contentLengthOf (fields : List Field) (length : ℕ) : ℕ :=
  ((fields.filter Field.isContentLength).getLast?.map fun f => digitsVal 10 f.value).getD length

/-- Every block of the given fields, in any number and order, is consumed and gives the values of
the named fields, and blocks that differ in other fields only have the same outcome. -/
def HeadersLaw (fields : List Field) : Prop :=
  ∀ fs, (∀ f ∈ fs, f ∈ fields) → ∀ transferEncoding length rest,
    httpHeadersInto transferEncoding length (block fs ++ rest) =
      (transferEncodingOf fs transferEncoding, contentLengthOf fs length, rest) ∧
    ∀ gs, (∀ f ∈ gs, f ∈ fields) → gs.filter Field.isNamed = fs.filter Field.isNamed →
      httpHeadersInto transferEncoding length (block gs ++ rest) =
        httpHeadersInto transferEncoding length (block fs ++ rest)

theorem httpHeadersInto_nil_zero (response : List Byte) :
    httpHeadersInto [] 0 response = httpHeaders response := rfl

/-! ### Two words of a line -/

namespace Field

/-- The first word of the line. -/
def head (f : Field) : List Byte :=
  f.name ++ colon :: if f.ows = [] then f.value.takeWhile fun c => !isSpace c else []

/-- What follows the first word. -/
def tail (f : Field) : List Byte :=
  if f.ows = [] then f.value.dropWhile (fun c => !isSpace c) ++ [cr]
  else f.ows ++ f.value ++ [cr]

/-- The line has a second word. -/
def HasSecondWord (f : Field) : Prop := f.tail.dropWhile isSpace ≠ []

theorem head_append_tail (f : Field) : f.head ++ f.tail = f.line := by
  unfold head tail line
  split_ifs with hows
  · rw [hows, List.append_assoc, List.cons_append, ← List.append_assoc (List.takeWhile _ _),
      List.takeWhile_append_dropWhile, List.nil_append]
  · simp

theorem head_ne (f : Field) : f.head ≠ [] := by
  simp [head]

theorem isSpace_head (f : Field) : ∀ c ∈ f.head, isSpace c = false := by
  intro c hc
  rw [head, List.mem_append, List.mem_cons] at hc
  rcases hc with hc | rfl | hc
  · exact (f.name_ok c hc).2
  · rfl
  · split_ifs at hc
    · have hword := List.mem_takeWhile_imp hc
      simpa using hword
    · exact absurd hc List.not_mem_nil

theorem isSpace_ows (f : Field) : ∀ c ∈ f.ows, isSpace c = true := by
  intro c hc
  rcases f.ows_ok c hc with rfl | rfl
  · rfl
  · rfl

theorem tail_cons (f : Field) : ∃ c cs, f.tail = c :: cs ∧ isSpace c = true := by
  unfold tail
  split_ifs with hows
  · cases hdrop : f.value.dropWhile fun c => !isSpace c with
    | nil => exact ⟨cr, [], rfl, rfl⟩
    | cons c cs =>
        have hne : f.value.dropWhile (fun c => !isSpace c) ≠ [] := by simp [hdrop]
        have hc := List.head_dropWhile_not (fun c => !isSpace c) hne
        simp only [hdrop, List.head_cons] at hc
        exact ⟨c, cs ++ [cr], rfl, by simpa using hc⟩
  · obtain ⟨c, cs, hcs⟩ := List.exists_cons_of_ne_nil hows
    refine ⟨c, cs ++ f.value ++ [cr], by simp [hcs], f.isSpace_ows c ?_⟩
    rw [hcs]
    exact List.mem_cons_self

/-- The first word is dumped. -/
theorem headerLine_eq (f : Field) (transferEncoding : List Byte) (length : ℕ) :
    headerLine f.line transferEncoding length =
      if occurs (ascii "Transfer-Encoding") f.line then
        (((ofBytes f.tail).extractWord transferEncoding).1, length)
      else if occurs (ascii "Content-Length") f.line then
        (transferEncoding, ((ofBytes f.tail).extractUnsigned 10 sizeMod length).1)
      else (transferEncoding, length) := by
  have hdump := extractWord_append f.head_ne f.isSpace_head f.tail_cons []
  rw [head_append_tail] at hdump
  rw [headerLine, hdump]

/-! ### Reading a field -/

/-- The field is read as its name says. -/
def ReadAsNamed (f : Field) : Prop :=
  if f.isTransferEncoding then
    occurs (ascii "Transfer-Encoding") f.line = true ∧ f.ows ≠ [] ∧ f.value ≠ [] ∧
      ∀ c ∈ f.value, isSpace c = false
  else if f.isContentLength then
    occurs (ascii "Transfer-Encoding") f.line = false ∧
      occurs (ascii "Content-Length") f.line = true ∧ f.ows ≠ []
  else
    occurs (ascii "Transfer-Encoding") f.line = true ∨
      occurs (ascii "Content-Length") f.line = true → ¬ f.HasSecondWord

/-- Behind spaces, a value that is one word is the second word of the line. -/
theorem dropWhile_tail {f : Field} (hows : f.ows ≠ []) (hne : f.value ≠ [])
    (hword : ∀ c ∈ f.value, isSpace c = false) : f.tail.dropWhile isSpace = f.value ++ [cr] := by
  obtain ⟨c, cs, hcs⟩ := List.exists_cons_of_ne_nil hne
  have hc : isSpace c = false := hword c (by simp [hcs])
  rw [tail, if_neg hows, List.append_assoc, List.dropWhile_append_of_pos f.isSpace_ows, hcs,
    List.cons_append, List.dropWhile_cons_of_neg]
  simp [hc]

/-- Without spaces behind the colon, a value that is one word belongs to the first word. -/
theorem not_hasSecondWord {f : Field} (hows : f.ows = [])
    (hword : ∀ c ∈ f.value, isSpace c = false) : f.tail.dropWhile isSpace = [] := by
  have hdrop : f.value.dropWhile (fun c => !isSpace c) = [] := by
    rw [List.dropWhile_eq_nil_iff]
    intro c hc
    simp [hword c hc]
  rw [tail, if_pos hows, hdrop]
  rfl

/-- Everything that a line can do: it changes nothing, or its second word becomes the transfer
encoding, or the number in its second word the length. -/
theorem headerLine_cases (f : Field) :
    ((occurs (ascii "Transfer-Encoding") f.line = true ∨
        occurs (ascii "Content-Length") f.line = true → ¬ f.HasSecondWord) ∧
      ∀ te len, headerLine f.line te len = (te, len)) ∨
    (occurs (ascii "Transfer-Encoding") f.line = true ∧ f.HasSecondWord ∧
      ∀ te len, headerLine f.line te len =
        ((f.tail.dropWhile isSpace).takeWhile (fun c => !isSpace c), len)) ∨
    (occurs (ascii "Transfer-Encoding") f.line = false ∧
      occurs (ascii "Content-Length") f.line = true ∧ f.HasSecondWord ∧
      ∀ te len, headerLine f.line te len =
        (te, ((ofBytes f.tail).extractUnsigned 10 sizeMod 0).1)) := by
  simp only [headerLine_eq, HasSecondWord]
  cases hte : occurs (ascii "Transfer-Encoding") f.line with
  | true =>
      cases hsecond : f.tail.dropWhile isSpace with
      | nil => exact Or.inl (by simp [extractWord_of_nil hsecond])
      | cons c cs => exact Or.inr (Or.inl (by simp [extractWord_of_cons hsecond]))
  | false =>
      cases hcl : occurs (ascii "Content-Length") f.line with
      | true =>
          cases hsecond : f.tail.dropWhile isSpace with
          | nil => exact Or.inl (by simp [extractUnsigned_of_nil hsecond])
          | cons c cs =>
              refine Or.inr (Or.inr ⟨rfl, rfl, by simp, fun te len => ?_⟩)
              simp [extractUnsigned_of_cons hsecond 10 sizeMod len 0]
      | false => exact Or.inl (by simp)

theorem hasSecondWord_of_ows {f : Field} (hows : f.ows ≠ []) (hne : f.value ≠ [])
    (hword : ∀ c ∈ f.value, isSpace c = false) : f.HasSecondWord := by
  rw [HasSecondWord, dropWhile_tail hows hne hword]
  simp

theorem reads_transferEncoding_iff {f : Field} (hname : f.isTransferEncoding = true) :
    (∀ te len, headerLine f.line te len = f.apply (te, len)) ↔ f.ReadAsNamed := by
  have hlonger : f.value ++ [0] ≠ f.value := by simp
  simp only [apply, ReadAsNamed, hname, if_true]
  rcases f.headerLine_cases with ⟨hkeep, hline⟩ | ⟨hocc, hsecond, hline⟩ | ⟨hocc, -, -, hline⟩
  · simp only [hline, Prod.mk.injEq, and_true]
    refine iff_of_false (fun h => hlonger (h _ 0)) ?_
    rintro ⟨hocc, hows, hne, hword⟩
    exact hkeep (Or.inl hocc) (hasSecondWord_of_ows hows hne hword)
  · simp only [hline, Prod.mk.injEq, and_true, hocc, true_and]
    constructor
    · intro h
      have heq := h [] 0
      have hword : ∀ c ∈ f.value, isSpace c = false := by
        intro c hc
        rw [← heq] at hc
        simpa using List.mem_takeWhile_imp hc
      refine ⟨fun hows => hsecond (not_hasSecondWord hows hword), ?_, hword⟩
      obtain ⟨c, cs, hcs⟩ := List.exists_cons_of_ne_nil hsecond
      have hc : isSpace c = false := by
        have hhead := List.head_dropWhile_not isSpace hsecond
        simpa only [hcs, List.head_cons] using hhead
      rw [← heq, hcs, List.takeWhile_cons_of_pos (by simp [hc])]
      exact List.cons_ne_nil _ _
    · rintro ⟨hows, hne, hword⟩ te len
      have hall : ∀ d ∈ f.value, (!isSpace d) = true := by
        intro d hd
        simp [hword d hd]
      rw [dropWhile_tail hows hne hword, List.takeWhile_append_of_pos hall]
      simp [cr, isSpace]
  · simp only [hline, Prod.mk.injEq]
    refine iff_of_false (fun h => hlonger (h _ 0).1) ?_
    rintro ⟨hocc', -⟩
    rw [hocc] at hocc'
    cases hocc'

theorem reads_contentLength_iff {f : Field} (hte : f.isTransferEncoding = false)
    (hname : f.isContentLength = true) :
    (∀ te len, headerLine f.line te len = f.apply (te, len)) ↔ f.ReadAsNamed := by
  obtain ⟨hne, hdigits, hnumber⟩ := f.number hname
  have hword : ∀ c ∈ f.value, isSpace c = false := fun c hc =>
    isSpace_of_isDigit (isDigit_sixteen (hdigits c hc))
  simp only [apply, ReadAsNamed, hte, hname, if_true, Bool.false_eq_true, if_false]
  rcases f.headerLine_cases with ⟨hkeep, hline⟩ | ⟨hocc, -, hline⟩ | ⟨hocc, hocc', hsecond, hline⟩
  · simp only [hline, Prod.mk.injEq, true_and]
    refine iff_of_false (fun h => Nat.succ_ne_self _ (h [] _)) ?_
    rintro ⟨-, hocc', hows⟩
    exact hkeep (Or.inr hocc') (hasSecondWord_of_ows hows hne hword)
  · simp only [hline, Prod.mk.injEq]
    refine iff_of_false (fun h => Nat.succ_ne_self _ (h [] _).2) ?_
    rintro ⟨hocc', -⟩
    rw [hocc] at hocc'
    cases hocc'
  · have hows : f.ows ≠ [] := fun hows => hsecond (not_hasSecondWord hows hword)
    have hcr : ∀ c ∈ [cr].head?, isDigit 10 c = false := by
      intro c hc
      rw [← Option.some.inj hc]
      decide
    refine iff_of_true (fun te len => ?_) ⟨hocc, hocc', hows⟩
    rw [hline, extractUnsigned_decimal hne hdigits hcr (dropWhile_tail hows hne hword) hnumber]

theorem reads_other_iff {f : Field} (hte : f.isTransferEncoding = false)
    (hcl : f.isContentLength = false) :
    (∀ te len, headerLine f.line te len = f.apply (te, len)) ↔ f.ReadAsNamed := by
  simp only [apply, ReadAsNamed, hte, hcl, Bool.false_eq_true, if_false]
  rcases f.headerLine_cases with ⟨hkeep, hline⟩ | ⟨hocc, hsecond, hline⟩ |
    ⟨-, hocc, hsecond, hline⟩
  · exact iff_of_true hline hkeep
  · refine iff_of_false (fun h => ?_) (fun h => h (Or.inl hocc) hsecond)
    have heq := hline [] 0
    have heq' := hline [0] 0
    rw [h] at heq heq'
    rw [← heq] at heq'
    cases heq'
  · refine iff_of_false (fun h => ?_) (fun h => h (Or.inr hocc) hsecond)
    have heq := hline [] 0
    have heq' := hline [] 1
    rw [h] at heq heq'
    rw [← heq] at heq'
    cases heq'

/-- The line of a field does what the field says exactly when the field is read as it is named. -/
theorem reads_iff (f : Field) :
    (∀ te len, headerLine f.line te len = f.apply (te, len)) ↔ f.ReadAsNamed := by
  cases hte : f.isTransferEncoding with
  | true => exact reads_transferEncoding_iff hte
  | false =>
      cases hcl : f.isContentLength with
      | true => exact reads_contentLength_iff hte hcl
      | false => exact reads_other_iff hte hcl

/-! ### The line of a field -/

theorem lf_notMem_line (f : Field) : lf ∉ f.line := by
  intro hmem
  simp only [line, List.mem_append, List.mem_cons, List.not_mem_nil, or_false] at hmem
  rcases hmem with hname | hcolon | (hows | hvalue) | hcr
  · exact absurd (f.name_ok lf hname).2 (by decide)
  · exact absurd hcolon (by decide)
  · exact absurd (f.ows_ok lf hows) (by decide)
  · exact (f.value_ok lf hvalue).2 rfl
  · exact absurd hcr (by decide)

/-- The line does not end the block. -/
theorem line_ne_cr (f : Field) : (f.line == ascii "\r") = false := by
  apply beq_eq_false_iff_ne.2
  intro hline
  obtain ⟨c, cs, hcs⟩ := List.exists_cons_of_ne_nil f.name_ne
  have hspace : isSpace c = false := (f.name_ok c (by simp [hcs])).2
  rw [line, hcs, List.cons_append] at hline
  have hc : c = cr := (List.cons.inj hline).1
  rw [hc] at hspace
  cases hspace

end Field

/-! ### The block -/

theorem block_cons (f : Field) (fs : List Field) (rest : List Byte) :
    block (f :: fs) ++ rest = f.line ++ lf :: (block fs ++ rest) := by
  simp [block]

/-- The lines are read one after the other, and nothing behind the block is taken. -/
theorem httpHeadersLoop_block (fs : List Field) {fuel : ℕ} (line te : List Byte) (len : ℕ)
    (rest : List Byte) (hfuel : (block fs ++ rest).length < fuel) :
    httpHeadersLoop fuel (ofBytes (block fs ++ rest)) line te len =
      let r := fs.foldl (fun r f => headerLine f.line r.1 r.2) (te, len)
      (r.1, r.2, rest) := by
  induction fs generalizing fuel line te len with
  | nil =>
      obtain ⟨fuel, rfl⟩ := Nat.exists_eq_succ_of_ne_zero (Nat.ne_of_gt (Nat.zero_lt_of_lt hfuel))
      have hblock : block [] ++ rest = ascii "\r" ++ lf :: rest := rfl
      have hend : lf ∉ ascii "\r" := by decide
      rw [hblock, httpHeadersLoop, getline_ofBytes_append hend]
      rfl
  | cons f fs ih =>
      obtain ⟨fuel, rfl⟩ := Nat.exists_eq_succ_of_ne_zero (Nat.ne_of_gt (Nat.zero_lt_of_lt hfuel))
      have hrest : (block fs ++ rest).length < fuel := by
        rw [block_cons, List.length_append, List.length_cons] at hfuel
        omega
      have hstep := ih f.line (headerLine f.line te len).1 (headerLine f.line te len).2 hrest
      rw [block_cons, httpHeadersLoop, getline_ofBytes_append f.lf_notMem_line]
      simp only [ofBytes, f.line_ne_cr, Bool.or_self, Bool.false_eq_true, if_false]
      exact hstep

theorem httpHeadersInto_block (fs : List Field) (te : List Byte) (len : ℕ) (rest : List Byte) :
    httpHeadersInto te len (block fs ++ rest) =
      let r := fs.foldl (fun r f => headerLine f.line r.1 r.2) (te, len)
      (r.1, r.2, rest) :=
  httpHeadersLoop_block fs [] te len rest (Nat.lt_succ_self _)

/-! ### The named fields -/

theorem transferEncodingOf_cons (f : Field) (fs : List Field) (te : List Byte) :
    transferEncodingOf (f :: fs) te =
      transferEncodingOf fs (if f.isTransferEncoding then f.value else te) := by
  unfold transferEncodingOf
  cases hname : f.isTransferEncoding with
  | false => simp [hname]
  | true =>
      rw [List.filter_cons_of_pos hname, List.getLast?_cons]
      cases (fs.filter Field.isTransferEncoding).getLast? with
      | none => rfl
      | some g => rfl

theorem contentLengthOf_cons (f : Field) (fs : List Field) (len : ℕ) :
    contentLengthOf (f :: fs) len =
      contentLengthOf fs (if f.isContentLength then digitsVal 10 f.value else len) := by
  unfold contentLengthOf
  cases hname : f.isContentLength with
  | false => simp [hname]
  | true =>
      rw [List.filter_cons_of_pos hname, List.getLast?_cons]
      cases (fs.filter Field.isContentLength).getLast? with
      | none => rfl
      | some g => rfl

/-- No name is both. -/
theorem Field.isContentLength_eq_false {f : Field} (h : f.isTransferEncoding = true) :
    f.isContentLength = false := by
  have hname := beq_iff_eq.1 h
  rw [isContentLength, sameName, hname]
  decide

theorem foldl_apply (fs : List Field) (te : List Byte) (len : ℕ) :
    fs.foldl (fun r f => f.apply r) (te, len) =
      (transferEncodingOf fs te, contentLengthOf fs len) := by
  induction fs generalizing te len with
  | nil => rfl
  | cons f fs ih =>
      rw [List.foldl_cons, transferEncodingOf_cons, contentLengthOf_cons, Field.apply]
      cases hte : f.isTransferEncoding with
      | true =>
          rw [Field.isContentLength_eq_false hte]
          exact ih f.value len
      | false =>
          cases hcl : f.isContentLength with
          | true => exact ih te (digitsVal 10 f.value)
          | false => exact ih te len

/-- Fields that are not named say nothing. -/
theorem foldl_apply_filter (fs : List Field) (r : List Byte × ℕ) :
    fs.foldl (fun r f => f.apply r) r =
      (fs.filter Field.isNamed).foldl (fun r f => f.apply r) r := by
  induction fs generalizing r with
  | nil => rfl
  | cons f fs ih =>
      cases hnamed : f.isNamed with
      | true =>
          rw [List.filter_cons_of_pos hnamed, List.foldl_cons, List.foldl_cons]
          exact ih _
      | false =>
          rw [Field.isNamed, Bool.or_eq_false_iff] at hnamed
          have happly : f.apply r = r := by
            rw [Field.apply, hnamed.1, hnamed.2]
            rfl
          rw [List.filter_cons_of_neg (by simp [Field.isNamed, hnamed]), List.foldl_cons, happly]
          exact ih r

theorem foldl_headerLine {fs : List Field} (h : ∀ f ∈ fs, f.ReadAsNamed) (r : List Byte × ℕ) :
    fs.foldl (fun r f => headerLine f.line r.1 r.2) r = fs.foldl (fun r f => f.apply r) r := by
  induction fs generalizing r with
  | nil => rfl
  | cons f fs ih =>
      rw [List.forall_mem_cons] at h
      rw [List.foldl_cons, List.foldl_cons, f.reads_iff.2 h.1 r.1 r.2]
      exact ih h.2 _

/-- The outcome depends on the named fields alone, for all blocks of the given fields, exactly when
each of these fields is read as it is named. -/
theorem headersLaw_iff (fields : List Field) :
    HeadersLaw fields ↔ ∀ f ∈ fields, f.ReadAsNamed := by
  constructor
  · intro hlaw f hf
    apply f.reads_iff.1
    intro te len
    have hone : ∀ g ∈ [f], g ∈ fields := by
      intro g hg
      rw [List.mem_singleton.1 hg]
      exact hf
    have hblock := (hlaw [f] hone te len []).1
    rw [httpHeadersInto_block, List.foldl_cons, List.foldl_nil] at hblock
    have happly := foldl_apply [f] te len
    rw [List.foldl_cons, List.foldl_nil] at happly
    rw [happly]
    have hfst : (headerLine f.line te len).1 = transferEncodingOf [f] te :=
      congrArg Prod.fst hblock
    have hsnd : (headerLine f.line te len).2 = contentLengthOf [f] len :=
      congrArg (fun x => x.2.1) hblock
    exact Prod.ext hfst hsnd
  · intro hall fs hfs te len rest
    have hread : ∀ gs : List Field, (∀ f ∈ gs, f ∈ fields) →
        httpHeadersInto te len (block gs ++ rest) =
          (transferEncodingOf gs te, contentLengthOf gs len, rest) := by
      intro gs hgs
      rw [httpHeadersInto_block, foldl_headerLine fun f hf => hall f (hgs f hf), foldl_apply]
    refine ⟨hread fs hfs, fun gs hgs hnamed => ?_⟩
    have hsame := foldl_apply_filter gs (te, len)
    rw [hnamed, ← foldl_apply_filter, foldl_apply, foldl_apply, Prod.mk.injEq] at hsame
    rw [hread gs hgs, hread fs hfs, hsame.1, hsame.2]

theorem forall_mem_of_all {p : Byte → Prop} [DecidablePred p] {l : List Byte}
    (h : l.all (fun c => decide (p c)) = true) : ∀ c ∈ l, p c := by
  intro c hc
  exact of_decide_eq_true (List.all_eq_true.1 h c hc)

theorem forall_mem_head?_of_all {p : Byte → Prop} [DecidablePred p] {l : List Byte}
    (h : l.head?.all (fun c => decide (p c)) = true) : ∀ c ∈ l.head?, p c := by
  intro c hc
  exact of_decide_eq_true ((Option.all_eq_true _ _).1 h c hc)

/-- `Transfer-Encoding: chunked`. -/
def chunkedField : Field where
  name := ascii "Transfer-Encoding"
  ows := ascii " "
  value := ascii "chunked"
  name_ne := by decide
  name_ok := forall_mem_of_all (by decide)
  ows_ok := forall_mem_of_all (by decide)
  value_ok := forall_mem_of_all (by decide)
  value_head := forall_mem_head?_of_all (by decide)
  number := by decide

/-- `X-Note: no Transfer-Encoding`. -/
def noteField : Field where
  name := ascii "X-Note"
  ows := ascii " "
  value := ascii "no Transfer-Encoding"
  name_ne := by decide
  name_ok := forall_mem_of_all (by decide)
  ows_ok := forall_mem_of_all (by decide)
  value_ok := forall_mem_of_all (by decide)
  value_head := forall_mem_head?_of_all (by decide)
  number := by decide

/-- A field with another name replaces the transfer encoding by a word of its own. -/
theorem not_headersLaw_note :
    httpHeaders (block [chunkedField]) = (ascii "chunked", 0, []) ∧
      httpHeaders (block [chunkedField, noteField]) = (ascii "no", 0, []) ∧
      ¬ HeadersLaw [chunkedField, noteField] := by
  have hread : httpHeaders (block [chunkedField, noteField]) = (ascii "no", 0, []) := by
    decide +kernel
  refine ⟨by decide +kernel, hread, ?_⟩
  intro hlaw
  have hblock := (hlaw [chunkedField, noteField] (fun _ hf => hf) [] 0 []).1
  rw [List.append_nil, httpHeadersInto_nil_zero, hread] at hblock
  exact absurd (congrArg Prod.fst hblock) (by decide +kernel)

end HttpClient

end Miscellany
