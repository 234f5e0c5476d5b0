/-
# Where a span is shown

Lines and offsets are said in bytes here: a text is its UTF-8 encoding, the line of an offset is
one more than there are newline bytes in front of it (`lineAt`), and a line is what stands between
two newline bytes, or between one and an end of the text (`Line.Of`).

An offset lies on the line of its number (`Line.Of.start_le_iff`, `Line.Of.le_stop_iff`), and the
lines of a source file are numbered without a gap, so the lines of a span are cut out of them by
number (`Span.excerpt_eq`).  From that follows what is shown for a span, wherever its ends lie.
-/
import BehaviorGraph.Source
import Mathlib.Data.List.TakeWhile

namespace BehaviorGraph

/-! ## 1. Bytes -/

/-- The UTF-8 encoding of a text. -/
def utf8 (text : String) : List UInt8 := text.toByteArray.data.toList

/-- The byte of a newline. -/
def newline : UInt8 := 10

/-- The encoding of some characters of a text. -/
def encode (chars : List Char) : List UInt8 := chars.flatMap String.utf8EncodeChar

theorem utf8_ofList (chars : List Char) : utf8 (String.ofList chars) = encode chars := by
  simp [utf8, encode, List.utf8Encode]

theorem utf8_eq_encode (text : String) : utf8 text = encode text.toList := by
  rw [← utf8_ofList, String.ofList_toList]

theorem length_utf8 (text : String) : (utf8 text).length = text.utf8ByteSize := rfl

/-- **The byte of a newline stands for nothing else.** -/
theorem newline_mem_utf8EncodeChar {c : Char} : newline ∈ String.utf8EncodeChar c ↔ c = '\n' := by
  refine ⟨fun hmem => ?_, by rintro rfl; decide⟩
  have hbyte : ∀ {n : Nat}, newline = UInt8.ofNat n → n % 256 = 10 := by
    intro n heq
    simpa [newline] using (congrArg UInt8.toNat heq).symm
  unfold String.utf8EncodeChar at hmem
  simp only at hmem
  split at hmem
  · have hvalue := hbyte (List.mem_singleton.mp hmem)
    have hten : c.val.toNat = 10 := by omega
    exact Char.ext (UInt32.toNat_inj.mp hten)
  · exfalso
    split at hmem
    · simp only [List.mem_cons, List.not_mem_nil, or_false] at hmem
      rcases hmem with hmem | hmem <;> have hvalue := hbyte hmem <;> omega
    · split at hmem
      · simp only [List.mem_cons, List.not_mem_nil, or_false] at hmem
        rcases hmem with hmem | hmem | hmem <;> have hvalue := hbyte hmem <;> omega
      · simp only [List.mem_cons, List.not_mem_nil, or_false] at hmem
        rcases hmem with hmem | hmem | hmem | hmem <;> have hvalue := hbyte hmem <;> omega

theorem newline_mem_encode {chars : List Char} : newline ∈ encode chars ↔ '\n' ∈ chars := by
  simp [encode, List.mem_flatMap, newline_mem_utf8EncodeChar]

/-! ## 2. Lines of bytes -/

/-- **The number of the line an offset lies on**: one more than there are newlines in front of it.
-/
def lineAt (bytes : List UInt8) (offset : Nat) : Nat := (bytes.take offset).count newline + 1

/-- **A line of a text**, with its number: behind a newline or from the very first byte on, up to
the next newline or the end. -/
structure Line.Of (line : Line) (bytes : List UInt8) : Prop where
  start_le : line.start ≤ bytes.length
  number : line.number = lineAt bytes line.start
  opens : line.start = 0 ∨ bytes[line.start - 1]? = some newline
  text : utf8 line.text = (bytes.drop line.start).takeWhile fun byte => decide (byte ≠ newline)

variable {bytes : List UInt8} {line : Line} {offset offset' : Nat}

theorem lineAt_mono (h : offset ≤ offset') : lineAt bytes offset ≤ lineAt bytes offset' :=
  Nat.succ_le_succ ((List.take_sublist_take_left h).count_le newline)

/-- Behind a newline the next line begins. -/
theorem lineAt_succ (h : bytes[offset]? = some newline) :
    lineAt bytes (offset + 1) = lineAt bytes offset + 1 := by
  rw [lineAt, lineAt, List.take_add_one, h, List.count_append]
  rfl

namespace Line.Of

theorem start_le_iff (h : line.Of bytes) :
    line.start ≤ offset ↔ line.number ≤ lineAt bytes offset := by
  refine ⟨fun hle => h.number ▸ lineAt_mono hle, fun hle => ?_⟩
  by_contra hlt
  obtain hzero | hopens := h.opens
  · omega
  · have hnext := lineAt_succ hopens
    have hmono : lineAt bytes offset ≤ lineAt bytes (line.start - 1) := lineAt_mono (by omega)
    have hnumber := h.number
    rw [show line.start - 1 + 1 = line.start by omega] at hnext
    omega

theorem newline_not_mem (h : line.Of bytes) : newline ∉ utf8 line.text := by
  rw [h.text]
  intro hmem
  simpa using List.mem_takeWhile_imp hmem

/-- What stands behind a line is nothing, or begins with a newline. -/
theorem exists_rest (h : line.Of bytes) : ∃ rest, bytes.drop line.start = utf8 line.text ++ rest ∧
    (rest = [] ∨ rest.head? = some newline) := by
  refine ⟨(bytes.drop line.start).dropWhile fun byte => decide (byte ≠ newline), ?_, ?_⟩
  · rw [h.text, List.takeWhile_append_dropWhile]
  · have hhead := List.head?_dropWhile_not (fun byte => decide (byte ≠ newline))
      (bytes.drop line.start)
    cases hrest : (bytes.drop line.start).dropWhile fun byte => decide (byte ≠ newline) with
    | nil => exact .inl rfl
    | cons byte more =>
      rw [hrest] at hhead
      exact .inr (by simpa using hhead)

/-- There is no newline in a line. -/
theorem lineAt_stop (h : line.Of bytes) : lineAt bytes line.stop = line.number := by
  obtain ⟨rest, hdrop, -⟩ := h.exists_rest
  rw [Line.stop, ← length_utf8, h.number, lineAt, lineAt, List.take_add, List.count_append, hdrop,
    List.take_left', List.count_eq_zero.mpr h.newline_not_mem, Nat.add_zero]
  rfl

theorem stop_le (h : line.Of bytes) : line.stop ≤ bytes.length := by
  obtain ⟨rest, hdrop, -⟩ := h.exists_rest
  have hlength := congrArg List.length hdrop
  have hle := h.start_le
  rw [List.length_drop, List.length_append] at hlength
  rw [Line.stop, ← length_utf8]
  omega

/-- A line that does not end with the text ends with a newline. -/
theorem getElem?_stop (h : line.Of bytes) (hlt : line.stop < bytes.length) :
    bytes[line.stop]? = some newline := by
  obtain ⟨rest, hdrop, hnil | hhead⟩ := h.exists_rest
  · have hlength := congrArg List.length hdrop
    rw [List.length_drop, hnil, List.append_nil, length_utf8] at hlength
    rw [Line.stop] at hlt
    omega
  · rw [Line.stop, ← length_utf8, ← List.getElem?_drop, hdrop,
      List.getElem?_append_right (Nat.le_refl _), Nat.sub_self, ← List.head?_eq_getElem?, hhead]

theorem le_stop_iff (h : line.Of bytes) (hoffset : offset ≤ bytes.length) :
    offset ≤ line.stop ↔ lineAt bytes offset ≤ line.number := by
  refine ⟨fun hle => h.lineAt_stop ▸ lineAt_mono hle, fun hle => ?_⟩
  by_contra hlt
  have hnext := lineAt_succ (h.getElem?_stop (by omega))
  have hmono : lineAt bytes (line.stop + 1) ≤ lineAt bytes offset := lineAt_mono (by omega)
  rw [h.lineAt_stop] at hnext
  omega

/-- **An offset lies on the line of its number**, and on no other. -/
theorem holds_iff (h : line.Of bytes) :
    line.holds offset = true ↔ offset ≤ bytes.length ∧ line.number = lineAt bytes offset := by
  rw [Line.holds, Bool.and_eq_true, decide_eq_true_eq, decide_eq_true_eq, h.start_le_iff]
  constructor
  · rintro ⟨hstart, hstop⟩
    have hoffset := Nat.le_trans hstop h.stop_le
    exact ⟨hoffset, Nat.le_antisymm hstart ((h.le_stop_iff hoffset).mp hstop)⟩
  · rintro ⟨hoffset, hnumber⟩
    exact ⟨Nat.le_of_eq hnumber, (h.le_stop_iff hoffset).mpr (Nat.le_of_eq hnumber.symm)⟩

end Line.Of

/-! ## 3. The lines of a source file -/

theorem splitLines_eq_splitOn (chars : List Char) : splitLines chars = chars.splitOn '\n' := by
  induction chars with
  | nil => rfl
  | cons c rest ih =>
    rw [splitLines, List.splitOn_cons_eq_if_modifyHead, ih]
    by_cases hnewline : c = '\n'
    · simp [hnewline]
    · obtain ⟨line, lines, hlines⟩ := List.exists_cons_of_ne_nil (List.splitOn_ne_nil '\n' rest)
      simp [hnewline, hlines]

/-- Joined pieces are encoded as joined encodings. -/
theorem encode_intercalate (pieces : List (List Char)) :
    encode (['\n'].intercalate pieces) = [newline].intercalate (pieces.map encode) := by
  induction pieces with
  | nil => rfl
  | cons piece rest ih =>
    cases rest with
    | nil => simp
    | cons next rest =>
      have hnewline : String.utf8EncodeChar '\n' = [newline] := by decide
      rw [List.map_cons] at ih
      rw [List.intercalate_cons_cons, List.map_cons, List.map_cons,
        List.intercalate_cons_cons, ← ih]
      simp [encode, hnewline]

theorem newline_not_mem_of_mem_splitLines (chars : List Char) :
    ∀ piece ∈ splitLines chars, '\n' ∉ piece := by
  induction chars with
  | nil => simp [splitLines]
  | cons c rest ih =>
    rw [splitLines]
    split
    · exact List.forall_mem_cons.mpr ⟨by simp, ih⟩
    · rename_i hne
      split
      · simpa using Ne.symm hne
      · rename_i line lines hlines
        rw [hlines] at ih
        obtain ⟨hline, hrest⟩ := List.forall_mem_cons.mp ih
        exact List.forall_mem_cons.mpr ⟨by simpa [Ne.symm hne] using hline, hrest⟩

/-- The encoding of a text is that of its pieces, with a newline between each two. -/
theorem utf8_eq_intercalate (text : String) :
    utf8 text = [newline].intercalate ((splitLines text.toList).map encode) := by
  rw [← encode_intercalate, splitLines_eq_splitOn, List.intercalate_splitOn, utf8_eq_encode]

theorem map_number_placeLines (number start : Nat) (pieces : List (List Char)) :
    (placeLines number start pieces).map Line.number = List.range' number pieces.length := by
  induction pieces generalizing number start with
  | nil => rfl
  | cons piece rest ih => rw [placeLines, List.map_cons, ih, List.length_cons, List.range'_succ]

/-- A piece between two newlines, or between one and an end of the text, is a line. -/
theorem Line.of_append {before rest : List UInt8} {piece : List Char}
    (hbefore : before = [] ∨ before.getLast? = some newline) (hpiece : '\n' ∉ piece)
    (hrest : rest = [] ∨ rest.head? = some newline) :
    Line.Of ⟨before.count newline + 1, before.length, String.ofList piece⟩
      (before ++ (encode piece ++ rest)) where
  start_le := by simp
  number := by rw [lineAt, List.take_left']; rfl
  opens := by
    obtain rfl | hlast := hbefore
    · exact .inl rfl
    · rw [List.getLast?_eq_getElem?] at hlast
      have hlt := (List.getElem?_eq_some_iff.mp hlast).1
      exact .inr (by rw [List.getElem?_append_left hlt, hlast])
  text := by
    have hnone : ∀ byte ∈ encode piece, decide (byte ≠ newline) = true := by
      intro byte hbyte
      refine decide_eq_true ?_
      rintro rfl
      exact hpiece (newline_mem_encode.mp hbyte)
    rw [utf8_ofList, List.drop_left', List.takeWhile_append_of_pos hnone]
    · obtain rfl | hhead := hrest
      · simp
      · cases rest with
        | nil => simp
        | cons byte more =>
          obtain rfl := Option.some.inj hhead
          simp
    · rfl

/-- **Pieces are placed where they are**, if what stands before them is closed by a newline. -/
theorem of_mem_placeLines {pieces : List (List Char)} (hpieces : ∀ piece ∈ pieces, '\n' ∉ piece)
    (before : List UInt8) (hbefore : before = [] ∨ before.getLast? = some newline) :
    ∀ line ∈ placeLines (before.count newline + 1) before.length pieces,
      line.Of (before ++ [newline].intercalate (pieces.map encode)) := by
  induction pieces generalizing before with
  | nil => simp [placeLines]
  | cons piece rest ih =>
    obtain ⟨hpiece, hrest⟩ := List.forall_mem_cons.mp hpieces
    rw [placeLines]
    cases rest with
    | nil =>
      have hline := Line.of_append hbefore hpiece (.inl rfl)
      simpa [placeLines] using hline
    | cons next rest =>
      have hnone : newline ∉ encode piece := fun hmem => hpiece (newline_mem_encode.mp hmem)
      have hlater := ih hrest (before ++ encode piece ++ [newline]) (.inr (by simp))
      rw [List.map_cons, List.map_cons, List.intercalate_cons_cons, List.append_assoc]
      refine List.forall_mem_cons.mpr ⟨Line.of_append hbefore hpiece (.inr rfl), ?_⟩
      have hcount : (before ++ encode piece ++ [newline]).count newline
          = before.count newline + 1 := by
        simp [List.count_append, List.count_eq_zero.mpr hnone]
      have hlength : (before ++ encode piece ++ [newline]).length
          = Line.stop ⟨before.count newline + 1, before.length, String.ofList piece⟩ + 1 := by
        rw [Line.stop, ← length_utf8, utf8_ofList]
        simp [Nat.add_assoc]
      rw [hcount, hlength] at hlater
      simpa using hlater

/-- There is one piece more than there are newlines between them. -/
theorem count_intercalate {pieces : List (List Char)} (hne : pieces ≠ [])
    (hpieces : ∀ piece ∈ pieces, '\n' ∉ piece) :
    ([newline].intercalate (pieces.map encode)).count newline + 1 = pieces.length := by
  induction pieces with
  | nil => exact absurd rfl hne
  | cons piece rest ih =>
    obtain ⟨hpiece, hrest⟩ := List.forall_mem_cons.mp hpieces
    have hnone : newline ∉ encode piece := fun hmem => hpiece (newline_mem_encode.mp hmem)
    cases rest with
    | nil => simpa using List.count_eq_zero.mpr hnone
    | cons next rest =>
      have hlater := ih (List.cons_ne_nil _ _) hrest
      rw [List.map_cons] at hlater
      rw [List.map_cons, List.map_cons, List.intercalate_cons_cons, List.count_append,
        List.count_append, List.count_eq_zero.mpr hnone, List.length_cons, ← hlater,
          List.count_singleton_self]
      omega

namespace SourceFile

variable (file : SourceFile)

/-- **The lines of a file are lines of its text**, numbered from one to the last. -/
theorem of_mem_lines : ∀ line ∈ file.lines, line.Of (utf8 file.text) := by
  rw [utf8_eq_intercalate]
  exact of_mem_placeLines (newline_not_mem_of_mem_splitLines _) [] (.inl rfl)

theorem map_number_lines :
    file.lines.map Line.number = List.range' 1
      (lineAt (utf8 file.text) file.text.utf8ByteSize) := by
  have hne : splitLines file.text.toList ≠ [] := by
    rw [splitLines_eq_splitOn]
    exact List.splitOn_ne_nil _ _
  rw [lines, map_number_placeLines, ← count_intercalate hne (newline_not_mem_of_mem_splitLines _),
    ← utf8_eq_intercalate, lineAt, ← length_utf8, List.take_length]

end SourceFile

/-! ## 4. The lines of a span -/

section Numbered

variable {lines : List Line} {first count : Nat}

/-- The lines up to that of an offset, in lines that are numbered without a gap. -/
theorem linesThrough_eq_take (hof : ∀ line ∈ lines, line.Of bytes)
    (hnumbers : lines.map Line.number = List.range' first count) (hoffset : offset ≤ bytes.length)
    (hfirst : first ≤ lineAt bytes offset) :
    linesThrough offset lines = lines.take (lineAt bytes offset + 1 - first) := by
  induction lines generalizing first count with
  | nil => simp [linesThrough]
  | cons line rest ih =>
    obtain ⟨hline, hrest⟩ := List.forall_mem_cons.mp hof
    cases count with
    | zero => exact absurd hnumbers (by simp)
    | succ count =>
      rw [List.map_cons, List.range'_succ] at hnumbers
      obtain ⟨hnumber, hnumbers⟩ := List.cons.inj hnumbers
      have hstop := hline.le_stop_iff hoffset
      rw [hnumber] at hstop
      rw [linesThrough]
      split
      · rename_i hle
        have hlast := hstop.mp hle
        rw [show lineAt bytes offset + 1 - first = 1 by omega]
        rfl
      · rename_i hlt
        have hlater : first < lineAt bytes offset := Nat.not_le.mp fun hle => hlt (hstop.mpr hle)
        rw [ih hrest hnumbers hlater, ← List.take_succ_cons,
          show lineAt bytes offset + 1 - (first + 1) + 1 = lineAt bytes offset + 1 - first by omega]

/-- An offset beyond the text lies behind all lines. -/
theorem linesThrough_eq_self (hof : ∀ line ∈ lines, line.Of bytes)
    (hoffset : bytes.length < offset) :
    linesThrough offset lines = lines := by
  induction lines with
  | nil => rfl
  | cons line rest ih =>
    obtain ⟨hline, hrest⟩ := List.forall_mem_cons.mp hof
    have hstop := hline.stop_le
    rw [linesThrough, if_neg (by omega), ih hrest]

/-- The lines from that of an offset on. -/
theorem dropWhile_eq_drop (hof : ∀ line ∈ lines, line.Of bytes)
    (hnumbers : lines.map Line.number = List.range' first count) (hoffset : offset ≤ bytes.length)
    (hfirst : first ≤ lineAt bytes offset) :
    (lines.dropWhile fun line => !line.holds offset)
      = lines.drop (lineAt bytes offset - first) := by
  induction lines generalizing first count with
  | nil => simp
  | cons line rest ih =>
    obtain ⟨hline, hrest⟩ := List.forall_mem_cons.mp hof
    cases count with
    | zero => exact absurd hnumbers (by simp)
    | succ count =>
      rw [List.map_cons, List.range'_succ] at hnumbers
      obtain ⟨hnumber, hnumbers⟩ := List.cons.inj hnumbers
      have hholds : line.holds offset = true ↔ offset ≤ bytes.length ∧
          line.number = lineAt bytes offset :=
        hline.holds_iff
      rw [hnumber] at hholds
      by_cases hhere : first = lineAt bytes offset
      · rw [List.dropWhile_cons, hholds.mpr ⟨hoffset, hhere⟩, hhere, Nat.sub_self]
        rfl
      · have hnot : line.holds offset = false := by
          rw [← Bool.not_eq_true, hholds]
          exact fun hboth => hhere hboth.2
        rw [List.dropWhile_cons, hnot, ← show lineAt bytes offset - (first + 1) + 1
          = lineAt bytes offset - first by omega, List.drop_succ_cons]
        exact ih hrest hnumbers (by omega)

theorem mem_of_mem_linesThrough (hline : line ∈ linesThrough offset lines) : line ∈ lines := by
  induction lines with
  | nil => exact hline
  | cons other rest ih =>
    rw [linesThrough] at hline
    split at hline
    · exact List.mem_cons.mpr (.inl (List.mem_singleton.mp hline))
    · exact List.mem_cons.mpr ((List.mem_cons.mp hline).imp_right ih)

end Numbered

namespace Span

variable {span : Span}

theorem of_mem_excerpt (hline : line ∈ span.excerpt) : line.Of (utf8 span.file.text) :=
  span.file.of_mem_lines line (mem_of_mem_linesThrough ((List.dropWhile_sublist _).subset hline))

/-- The lines up to the end of a span are numbered from one to the line of that end. -/
theorem map_number_linesThrough (span : Span) :
    (linesThrough span.stop span.file.lines).map Line.number
    = List.range' 1 (lineAt (utf8 span.file.text) span.stop) := by
  have hof := span.file.of_mem_lines
  have hnumbers := span.file.map_number_lines
  by_cases hstop : span.stop ≤ span.file.text.utf8ByteSize
  · rw [linesThrough_eq_take hof hnumbers hstop (Nat.le_add_left 1 _), Nat.add_sub_cancel,
      List.map_take, hnumbers, List.take_range'_of_length_ge (lineAt_mono hstop)]
  · have hlength := length_utf8 span.file.text
    rw [linesThrough_eq_self hof (by omega), hnumbers, lineAt, lineAt, ← hlength, List.take_length,
      List.take_of_length_le (by omega)]

/-- **The lines of a span are numbered** from the line of its start to the line of its end. -/
theorem map_number_excerpt (hstart : span.start ≤ span.file.text.utf8ByteSize) :
    span.excerpt.map Line.number = List.range' (lineAt (utf8 span.file.text) span.start)
      (lineAt (utf8 span.file.text) span.stop + 1 - lineAt (utf8 span.file.text) span.start) := by
  have hfirst : 1 ≤ lineAt (utf8 span.file.text) span.start := Nat.le_add_left 1 _
  have hof : ∀ line ∈ linesThrough span.stop span.file.lines, line.Of (utf8 span.file.text) :=
    fun line hline => span.file.of_mem_lines line (mem_of_mem_linesThrough hline)
  rw [excerpt, dropWhile_eq_drop hof span.map_number_linesThrough hstart hfirst, List.map_drop,
    span.map_number_linesThrough, List.drop_range']
  congr 1 <;> omega

/-- Beyond its text a file has no lines. -/
theorem excerpt_eq_nil_of_lt (h : span.file.text.utf8ByteSize < span.start) :
    span.excerpt = [] := by
  refine List.dropWhile_eq_nil_iff.mpr fun line hline => ?_
  have hof := span.file.of_mem_lines line (mem_of_mem_linesThrough hline)
  rw [Bool.not_eq_true', ← Bool.not_eq_true, hof.holds_iff]
  exact fun hboth => absurd hboth.1 (Nat.not_le.mpr h)

/-- **A span has lines** exactly if its start lies in the text, and on no later line than its end.
-/
theorem excerpt_ne_nil_iff : span.excerpt ≠ [] ↔ span.start ≤ span.file.text.utf8ByteSize ∧
    lineAt (utf8 span.file.text) span.start ≤ lineAt (utf8 span.file.text) span.stop := by
  by_cases hstart : span.start ≤ span.file.text.utf8ByteSize
  · have hlength := congrArg List.length (map_number_excerpt hstart)
    rw [List.length_map, List.length_range'] at hlength
    rw [← List.length_pos_iff, hlength]
    omega
  · simp [excerpt_eq_nil_of_lt (Nat.not_le.mp hstart), hstart]

/-- **The first line of a span holds its start.** -/
theorem holds_of_excerpt_eq_cons {rest : List Line} (h : span.excerpt = line :: rest) :
    line.number = lineAt (utf8 span.file.text) span.start ∧ line.start ≤ span.start ∧
    span.start ≤ line.stop := by
  have hholds := List.head?_dropWhile_not (fun line => !line.holds span.start)
    (linesThrough span.stop span.file.lines)
  rw [← excerpt, h] at hholds
  simp only [List.head?_cons, Bool.not_eq_eq_eq_not, Bool.not_false] at hholds
  have hof : line.Of (utf8 span.file.text) := of_mem_excerpt (by rw [h]; exact List.mem_cons_self)
  refine ⟨(hof.holds_iff.mp hholds).2, ?_⟩
  simpa [Line.holds] using hholds

/-! ## 5. What is shown for a span -/

end Span

/-- A message under a line, with a marker of `count` characters from a column on. -/
def Line.marked (line : Line) (name message : String) (column count : Nat) : String :=
  let number := toString line.number ++ " "
  name ++ "\n" ++ number ++ "|" ++ line.text ++ "\n"
    ++ String.ofList (List.replicate number.length ' ') ++ "|"
    ++ String.ofList (List.replicate column ' ') ++ String.ofList (List.replicate count '^')
      ++ " " ++ message

namespace Span

variable {span : Span} {message : String}

/-- There is no rendering exactly if there are lines and the marker would have a negative length. -/
theorem format?_eq_none_iff :
    span.format? message = none ↔ span.excerpt ≠ [] ∧ span.stop < span.start := by
  rw [format?]
  cases span.excerpt with
  | nil => simp
  | cons line rest => by_cases hlt : span.stop < span.start <;> simp [hlt]

theorem format?_of_cons {rest : List Line} (h : span.excerpt = line :: rest)
    (hle : span.start ≤ span.stop) :
    span.format? message = some (line.marked span.file.name message (span.start - line.start)
      (min (span.stop - span.start) (line.stop - span.start))) := by
  obtain ⟨-, hstart, hstop⟩ := holds_of_excerpt_eq_cons h
  have hlength :
      span.markerLength line = min (span.stop - span.start) (line.stop - span.start) := by
    rw [markerLength, Line.stop]
    split <;> omega
  rw [format?, h]
  simp only [if_neg (Nat.not_lt.mpr hle), hlength]
  rfl

/-- **How a span within its text is shown**: its lines are those from the line of its start to the
line of its end, and the message stands under the first of them. -/
structure Marked (span : Span) (message : String) : Prop where
  line_eq : span.line = lineAt (utf8 span.file.text) span.start
  numbers : span.excerpt.map Line.number = List.range' (lineAt (utf8 span.file.text) span.start)
    (lineAt (utf8 span.file.text) span.stop + 1 - lineAt (utf8 span.file.text) span.start)
  lines : ∀ line ∈ span.excerpt, line.Of (utf8 span.file.text)
  /-- The marker begins at the column of the start and does not reach beyond the line. -/
  marker : ∃ line rest count, span.excerpt = line :: rest ∧ line.start ≤ span.start ∧
    span.start - line.start + count ≤ line.text.utf8ByteSize ∧
    count = min (span.stop - span.start) (line.text.utf8ByteSize - (span.start - line.start)) ∧
    span.format? message = some (line.marked span.file.name message (span.start - line.start) count)

/-- **How a span without lines is shown**: the message alone. -/
structure Bare (span : Span) (message : String) : Prop where
  no_lines : span.excerpt = []
  line_eq : span.line = 0
  format?_eq : span.format? message = some (span.file.name ++ ": " ++ message)

/-- **What is shown for a span.**  If it lies within its text, the message stands under the line of
its start, with a marker that begins at the column of the start and does not reach beyond that
line, and the lines of the span are those from the line of its start to the line of its end.  There
is no rendering exactly if the span ends before it starts and on the same line; and if it starts
beyond the text, or ends on an earlier line, it has no lines, and only the message is shown. -/
theorem marked_within_and_unrendered_iff (span : Span) (message : String) :
    (span.start ≤ span.stop → span.stop ≤ span.file.text.utf8ByteSize → span.Marked message) ∧
    (span.format? message = none ↔ span.stop < span.start ∧
      span.start ≤ span.file.text.utf8ByteSize ∧
      lineAt (utf8 span.file.text) span.stop = lineAt (utf8 span.file.text) span.start) ∧
    (span.file.text.utf8ByteSize < span.start ∨
      lineAt (utf8 span.file.text) span.stop < lineAt (utf8 span.file.text) span.start →
        span.Bare message) := by
  refine ⟨fun hle hstop => ?_, ?_, fun houtside => ?_⟩
  · have hstart := Nat.le_trans hle hstop
    obtain ⟨line, rest, hexcerpt⟩ :=
      List.exists_cons_of_ne_nil (excerpt_ne_nil_iff.mpr ⟨hstart, lineAt_mono hle⟩)
    obtain ⟨hnumber, hfrom, hto⟩ := holds_of_excerpt_eq_cons hexcerpt
    refine ⟨?_, map_number_excerpt hstart, fun line hline => of_mem_excerpt hline, line, rest,
      min (span.stop - span.start) (line.stop - span.start), hexcerpt, hfrom, ?_, ?_,
      format?_of_cons hexcerpt hle⟩
    · rw [Span.line, hexcerpt, ← hnumber]
    · rw [Line.stop] at hto ⊢
      omega
    · rw [Line.stop]
      omega
  · rw [format?_eq_none_iff, excerpt_ne_nil_iff]
    constructor
    · rintro ⟨⟨hstart, hle⟩, hlt⟩
      exact ⟨hlt, hstart, Nat.le_antisymm (lineAt_mono (Nat.le_of_lt hlt)) hle⟩
    · rintro ⟨hlt, hstart, hsame⟩
      exact ⟨⟨hstart, Nat.le_of_eq hsame.symm⟩, hlt⟩
  · have hnil : span.excerpt = [] := by
      by_contra hne
      obtain ⟨hstart, hle⟩ := excerpt_ne_nil_iff.mp hne
      omega
    refine ⟨hnil, by rw [Span.line, hnil], by rw [format?, hnil]⟩

/-- Two lines, of which the first has one character of two bytes. -/
def accented : SourceFile := ⟨"f.isa", "é\nab\n"⟩

/-- A span from the one to the other, one that ends before it starts on the second line, and one
that ends on the first and starts on the second. -/
theorem marked_within_and_unrendered_iff_accented :
    (Span.mk accented 0 4).line = 1 ∧ (Span.mk accented 0 4).excerpt.map Line.number = [1, 2] ∧
      (Span.mk accented 0 4).format? "m" = some "f.isa\n1 |é\n  |^^ m" ∧
      (Span.mk accented 5 4).format? "m" = none ∧
      (Span.mk accented 4 2).format? "m" = some "f.isa: m" := by
  have hbytes : utf8 accented.text = [195, 169, 10, 97, 98, 10] := by decide
  have hlines : (Span.mk accented 0 4).excerpt = [⟨1, 0, "é"⟩, ⟨2, 3, "ab"⟩] := by decide
  obtain ⟨hinside, -, -⟩ := (Span.mk accented 0 4).marked_within_and_unrendered_iff "m"
  obtain ⟨-, hreversed, -⟩ := (Span.mk accented 5 4).marked_within_and_unrendered_iff "m"
  obtain ⟨-, -, hbefore⟩ := (Span.mk accented 4 2).marked_within_and_unrendered_iff "m"
  simp only [hbytes] at hinside hreversed hbefore
  have hmarked := hinside (by decide) (by decide)
  obtain ⟨line, rest, count, hexcerpt, -, -, rfl, hformat⟩ := hmarked.marker
  obtain ⟨rfl, -⟩ := List.cons.inj (hexcerpt.symm.trans hlines)
  refine ⟨?_, ?_, hformat.trans (by decide), hreversed.mpr ?_, (hbefore (.inr ?_)).format?_eq⟩
  · rw [hmarked.line_eq, hbytes]
    decide
  · rw [hmarked.numbers, hbytes]
    decide
  · decide
  · decide

end Span

end BehaviorGraph
