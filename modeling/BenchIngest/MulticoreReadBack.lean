import BenchIngest.RowReconstruction
import BenchIngest.PerCoreDecoder
import Mathlib.Algebra.Order.BigOperators.Group.List

/-!
# Reading back an exported multi-core file

The exporter writes the results file as CSV: a header line, then one row per
run, a per-core cell holding its values over several lines between quotes.
Reading it, `read_multicore_csv` cuts the text into lines, joins the lines of a
row behind the marker, and tokenizes each joined row.  When the lines of every
row form a logical row the loop recognises, the frame it builds is the table
the exporter wrote, each line feed inside a cell turned into the two characters
of the marker, which the per-core decoder turns back into a line break: when
the header's names are distinct, each latency mean the reader adds is the mean
of the cell as it was written.  And whatever the file, tokenizing fails only
when it is empty, as long as it is short enough that no row passes the field
size limit.
-/

namespace BenchIngest.Multicore

open Py Csv

/-- The text with each line feed written as the two characters of `marker`. -/
def replaceBreaks (s : List Char) : List Char :=
  s.flatMap fun c => if c = '\n' then ['\\', 'n'] else [c]

@[simp] theorem replaceBreaks_nil : replaceBreaks [] = [] := rfl

theorem replaceBreaks_cons (c : Char) (s : List Char) :
    replaceBreaks (c :: s) = (if c = '\n' then ['\\', 'n'] else [c]) ++ replaceBreaks s := by
  simp [replaceBreaks]

theorem replaceBreaks_of_lf_not_mem {s : List Char} (h : '\n' ∉ s) : replaceBreaks s = s := by
  induction s with
  | nil => rfl
  | cons c s ih =>
      simp only [List.mem_cons, not_or] at h
      rw [replaceBreaks_cons, if_neg (Ne.symm h.1), ih h.2, List.singleton_append]

/-- A line without line breaks, ended by a line feed, is a text line. -/
theorem isTextLine_append_lf {l : List Char} (hlf : '\n' ∉ l) (hcr : '\r' ∉ l) :
    IsTextLine (l ++ ['\n']) :=
  ⟨by simp, by simp [hcr], by simpa using hlf⟩

theorem isTextLines_map_append_lf {L : List (List Char)} (h : ∀ l ∈ L, '\n' ∉ l ∧ '\r' ∉ l) :
    IsTextLines (L.map (· ++ ['\n'])) := by
  induction L with
  | nil => exact isTextLines_nil
  | cons l L ih =>
      have hl := h l (List.mem_cons_self l L)
      exact isTextLines_cons (isTextLine_append_lf hl.1 hl.2) (List.getLast?_concat _)
        (ih fun l' hl' => h l' (List.mem_cons_of_mem l hl'))

/-- Lines written one after another, each ended by a line feed, are read back
as they were written. -/
theorem physicalLines_flatMap {L : List (List Char)} (h : ∀ l ∈ L, '\n' ∉ l ∧ '\r' ∉ l) :
    physicalLines (String.mk (L.flatMap (· ++ ['\n']))) = L.map String.mk := by
  rw [physicalLines, List.flatMap_def, readlines_flatten (isTextLines_map_append_lf h),
    List.map_map]
  refine List.map_congr_left fun l hl => ?_
  have hstrip : rstripNewline (l ++ ['\n']) = l := by
    rw [rstripNewline, rdropWhile_append_of_all (by simp), List.rdropWhile_eq_self_iff]
    exact fun hne hlast => (h l hl).1 (of_decide_eq_true hlast ▸ List.getLast_mem hne)
  simp [hstrip]

theorem split_lf_cons (s : List Char) : split ('\n' :: s) '\n' = [] :: split s '\n' := by
  simp [split, List.splitOn]

theorem split_cons_of_ne {c : Char} (hc : c ≠ '\n') (s : List Char) :
    ∃ p ps, split s '\n' = p :: ps ∧ split (c :: s) '\n' = (c :: p) :: ps := by
  obtain ⟨p, ps, hps⟩ := List.exists_cons_of_ne_nil (List.splitOnP_ne_nil (· == '\n') s)
  refine ⟨p, ps, hps, ?_⟩
  simp only [split, List.splitOn, List.splitOnP_cons, beq_iff_eq, hc, if_false] at hps ⊢
  rw [hps]
  rfl

/-- The pieces of a text cut at its line feeds, each ended by a line feed again,
give back the text ended by a line feed; none of them holds a line feed; and
joined by the marker they give the text with its line feeds replaced. -/
theorem split_lf_spec (s : List Char) :
    (split s '\n').flatMap (· ++ ['\n']) = s ++ ['\n'] ∧ (∀ l ∈ split s '\n', '\n' ∉ l) ∧
      ∃ p ps, split s '\n' = p :: ps ∧ p ++ ps.flatMap (['\\', 'n'] ++ ·) = replaceBreaks s := by
  induction s with
  | nil => exact ⟨rfl, by simp [split], [], [], rfl, rfl⟩
  | cons c s ih =>
      obtain ⟨hflat, hnone, p, ps, hps, hjoin⟩ := ih
      by_cases hc : c = '\n'
      · subst hc
        refine ⟨?_, ?_, [], p :: ps, hps ▸ split_lf_cons s, ?_⟩
        · rw [split_lf_cons, List.flatMap_cons, hflat]
          rfl
        · rw [split_lf_cons]
          exact List.forall_mem_cons.mpr ⟨List.not_mem_nil _, hnone⟩
        · rw [replaceBreaks_cons, if_pos rfl, ← hjoin]
          simp
      · obtain ⟨p', ps', hps', hcons⟩ := split_cons_of_ne hc s
        rw [hps] at hps'
        obtain ⟨rfl, rfl⟩ := List.cons.inj hps'
        refine ⟨?_, ?_, c :: p, ps, hcons, ?_⟩
        · have hlf := congrArg (List.cons c) hflat
          rw [hps, List.flatMap_cons] at hlf
          rw [hcons, List.flatMap_cons]
          exact hlf
        · rw [hcons]
          refine List.forall_mem_cons.mpr ⟨?_, fun l hl => hnone l (hps ▸ List.mem_cons_of_mem p hl)⟩
          simp only [List.mem_cons, not_or]
          exact ⟨Ne.symm hc, hnone p (hps ▸ List.mem_cons_self p ps)⟩
        · rw [replaceBreaks_cons, if_neg hc, ← hjoin]
          rfl

theorem replaceBreaks_append (s t : List Char) :
    replaceBreaks (s ++ t) = replaceBreaks s ++ replaceBreaks t :=
  List.flatMap_append _ _ _

theorem length_replaceBreaks_le (s : List Char) : (replaceBreaks s).length ≤ 2 * s.length := by
  induction s with
  | nil => simp
  | cons c s ih =>
      rw [replaceBreaks_cons, List.length_append, List.length_cons]
      split <;> simp <;> omega

theorem replaceBreaks_eq_nil {s : List Char} : replaceBreaks s = [] ↔ s = [] := by
  cases s with
  | nil => simp
  | cons c s =>
      rw [replaceBreaks_cons]
      split <;> simp

theorem quoteBody_replaceBreaks (t : List Char) :
    quoteBody (replaceBreaks t) = replaceBreaks (quoteBody t) := by
  induction t with
  | nil => rfl
  | cons c t ih =>
      by_cases hlf : c = '\n'
      · subst hlf
        simp [replaceBreaks, quoteBody] at ih ⊢
        exact ih
      · by_cases hq : c = '"'
        · subst hq
          simp [replaceBreaks, quoteBody] at ih ⊢
          exact ih
        · simp [replaceBreaks, quoteBody, hlf, hq] at ih ⊢
          exact ih

/-- A written field with its line feeds written as the marker: bare fields hold
none, so only quoted ones change. -/
def fieldWithMarkers (w : WrittenField) : WrittenField where
  text := String.mk (replaceBreaks w.text.data)
  quoted := w.quoted
  plain_of_bare h := by
    have hplain := w.plain_of_bare h
    have hlf : '\n' ∉ w.text.data := fun hm => by
      simpa [plainField, isCrLf] using List.all_eq_true.mp hplain _ hm
    simpa [replaceBreaks_of_lf_not_mem hlf] using hplain

theorem chars_fieldWithMarkers (w : WrittenField) :
    (fieldWithMarkers w).chars = replaceBreaks w.chars := by
  by_cases hq : w.quoted
  · simp [WrittenField.chars, fieldWithMarkers, hq, replaceBreaks_append, replaceBreaks_cons,
      quoteBody_replaceBreaks]
  · simp [WrittenField.chars, fieldWithMarkers, hq]

theorem rowChars_fieldWithMarkers (ws : List WrittenField) :
    rowChars (ws.map fieldWithMarkers) = replaceBreaks (rowChars ws) := by
  have hrest : ∀ vs : List WrittenField,
      ((vs.map fieldWithMarkers).map fun w => ',' :: w.chars).flatten =
        replaceBreaks (vs.map fun w => ',' :: w.chars).flatten := by
    intro vs
    induction vs with
    | nil => rfl
    | cons v vs ih =>
        simp only [List.map_cons, List.flatten_cons, replaceBreaks_append, ih,
          chars_fieldWithMarkers, List.cons_append, replaceBreaks_cons]
        simp
  cases ws with
  | nil => rfl
  | cons w ws =>
      rw [List.map_cons, rowChars, rowChars, hrest, chars_fieldWithMarkers,
        replaceBreaks_append]

/-- A written row with the line feeds of its fields written as the marker. -/
def rowWithMarkers (row : WrittenRow) : WrittenRow where
  fields := row.fields.map fieldWithMarkers
  not_bare_empty w h hq := by
    obtain ⟨w₀, hrow, rfl⟩ : ∃ w₀, row.fields = [w₀] ∧ fieldWithMarkers w₀ = w := by
      rcases hfields : row.fields with _ | ⟨w₀, _ | ⟨w₁, ws⟩⟩ <;> rw [hfields] at h <;>
        simp at h
      exact ⟨w₀, rfl, h⟩
    intro htext
    refine row.not_bare_empty w₀ hrow hq (String.ext ?_)
    simpa [fieldWithMarkers, replaceBreaks_eq_nil] using congrArg String.data htext

/-- A row of the multi-core results file as the exporter writes it: a CSV row
without carriage returns, whose lines form a logical row the reader recognises. -/
structure ExportedRow where
  row : WrittenRow
  lines : LogicalRow
  no_cr : '\r' ∉ rowChars row.fields
  lines_eq : (split (rowChars row.fields) '\n').map String.mk = lines.lines

/-- The results file: the header line, then each row, each ended by a line feed. -/
def exportedText (header : WrittenRow) (rows : List ExportedRow) : String :=
  String.mk ((rowChars header.fields :: rows.map fun r => rowChars r.row.fields).flatMap
    (· ++ ['\n']))

theorem foldl_marker_data (first : String) (continuations : List String) :
    (continuations.foldl (fun text line => text ++ marker ++ line) first).data =
      first.data ++ continuations.flatMap fun line => marker.data ++ line.data := by
  induction continuations generalizing first with
  | nil => simp
  | cons line continuations ih =>
      rw [List.foldl_cons, ih]
      simp

/-- The reader rebuilds an exported row as its text with each line feed written
as the marker. -/
theorem ExportedRow.joined_data (r : ExportedRow) :
    r.lines.joined.data = replaceBreaks (rowChars r.row.fields) := by
  obtain ⟨-, -, p, ps, hps, hjoin⟩ := split_lf_spec (rowChars r.row.fields)
  have hlines := r.lines_eq
  rw [hps, List.map_cons, LogicalRow.lines, List.cons.injEq] at hlines
  have hmarker : marker.data = ['\\', 'n'] := rfl
  rw [← hjoin, LogicalRow.joined, foldl_marker_data, ← hlines.1, ← hlines.2, List.flatMap_map,
    hmarker]

/-- The lines of the results file: the header, then the lines of every row. -/
theorem physicalLines_exportedText {header : WrittenRow} (rows : List ExportedRow)
    (hheader : '\n' ∉ rowChars header.fields ∧ '\r' ∉ rowChars header.fields) :
    physicalLines (exportedText header rows) =
      String.mk (rowChars header.fields) :: rows.flatMap (·.lines.lines) := by
  have htext : (exportedText header rows).data =
      (rowChars header.fields :: rows.flatMap fun r => split (rowChars r.row.fields) '\n').flatMap
        (· ++ ['\n']) := by
    simp only [exportedText, List.flatMap_cons, List.flatMap_map, List.flatMap_assoc,
      fun r : ExportedRow => (split_lf_spec (rowChars r.row.fields)).1]
  have hpieces : ∀ l ∈ rowChars header.fields :: rows.flatMap fun r => split (rowChars r.row.fields) '\n',
      '\n' ∉ l ∧ '\r' ∉ l := by
    refine List.forall_mem_cons.mpr ⟨hheader, fun l hl => ?_⟩
    obtain ⟨r, -, hl⟩ := List.mem_flatMap.mp hl
    obtain ⟨hflat, hnone, -⟩ := split_lf_spec (rowChars r.row.fields)
    refine ⟨hnone l hl, fun hcr => r.no_cr ?_⟩
    have hmem : '\r' ∈ rowChars r.row.fields ++ ['\n'] :=
      hflat ▸ List.mem_flatMap.mpr ⟨l, hl, List.mem_append_left _ hcr⟩
    simpa using hmem
  rw [show exportedText header rows = String.mk (exportedText header rows).data from rfl, htext,
    physicalLines_flatMap hpieces, List.map_cons, List.map_flatMap]
  congr 1
  exact List.flatMap_congr fun r _ => r.lines_eq

theorem padRow_of_length {n : ℕ} {row : List String} (h : row.length = n) : padRow n row = row := by
  simp [padRow, h]

/-- Tokenizing the exported file gives the header's fields, then every row's
fields with each line feed written as the marker. -/
theorem multicoreRows_exportedText {header : WrittenRow} (rows : List ExportedRow)
    (hheader : '\n' ∉ rowChars header.fields ∧ '\r' ∉ rowChars header.fields)
    (hwidth : ∀ r ∈ rows, r.row.fields.length = header.fields.length)
    (hlen : ∀ w ∈ header.fields ++ rows.flatMap (·.row.fields), 2 * w.text.length ≤ fieldLimit) :
    multicoreRows (exportedText header rows) =
      .ok (header.fields.map (·.text),
        rows.map fun r => r.row.fields.map fun w => (fieldWithMarkers w).text) := by
  have hheaderRow : readRow (String.mk (rowChars header.fields)) =
      .ok (header.fields.map (·.text)) :=
    readRow_rowChars header fun w hw => by
      have := hlen w (List.mem_append_left _ hw)
      omega
  have hrow : ∀ r ∈ rows, (readRow r.lines.joined).map (padRow header.fields.length) =
      .ok (r.row.fields.map fun w => (fieldWithMarkers w).text) := fun r hr => by
    have hjoined : r.lines.joined = String.mk (rowChars (rowWithMarkers r.row).fields) :=
      String.ext (by rw [r.joined_data, rowWithMarkers, rowChars_fieldWithMarkers])
    have hfits : ∀ w ∈ (rowWithMarkers r.row).fields, w.text.length ≤ fieldLimit := by
      intro w hw
      obtain ⟨w₀, hw₀, rfl⟩ := List.mem_map.mp hw
      have h₀ := hlen w₀ (List.mem_append_right _ (List.mem_flatMap.mpr ⟨r, hr, hw₀⟩))
      have h₀' : 2 * w₀.text.data.length ≤ fieldLimit := h₀
      have := length_replaceBreaks_le w₀.text.data
      show (replaceBreaks w₀.text.data).length ≤ fieldLimit
      omega
    rw [hjoined, readRow_rowChars _ hfits]
    simp [Except.map, rowWithMarkers, padRow_of_length, hwidth r hr]
  have hlines : rowLines (String.mk (rowChars header.fields) :: rows.flatMap (·.lines.lines)) =
      rows.map (·.lines.joined) := by
    rw [rowLines, List.drop_one, List.tail_cons, ← List.flatMap_map, foldl_rowLinesStep_rows,
      List.nil_append, List.map_map]
    rfl
  unfold multicoreRows
  rw [physicalLines_exportedText rows hheader]
  simp only [hheaderRow, hlines, Except.bind, List.length_map]
  rw [mapM_map_eq_ok (f := fun row_text => (readRow row_text).map (padRow header.fields.length))
    (k := fun r : ExportedRow => r.lines.joined) hrow]
  rfl

/-- The multi-core reader reads back the table the exporter wrote: the header's
fields as the columns, then every row's fields in order, each line feed inside a
field written as the two characters of the marker, when every row has the
header's width and every field, so written, fits the field size limit. -/
theorem readMulticoreCsv_exportedText (header : WrittenRow) (rows : List ExportedRow)
    (hheader : '\n' ∉ rowChars header.fields ∧ '\r' ∉ rowChars header.fields)
    (hwidth : ∀ r ∈ rows, r.row.fields.length = header.fields.length)
    (hlen : ∀ w ∈ header.fields ++ rows.flatMap (·.row.fields), 2 * w.text.length ≤ fieldLimit) :
    readMulticoreCsv (exportedText header rows) =
      .ok ⟨header.fields.map (·.text),
        rows.map fun r => r.row.fields.map fun w => some (fieldWithMarkers w).text⟩ := by
  rw [readMulticoreCsv, multicoreRows_exportedText rows hheader hwidth hlen]
  refine (dataFrame_ok_iff (fun row hrow => ?_) _).mpr ⟨fun row hrow => ?_, by simp⟩ <;>
  · obtain ⟨r, hr, rfl⟩ := List.mem_map.mp hrow
    simp [hwidth r hr]

/-- A per-core cell written over two lines comes back with the marker between
its lines. -/
theorem readMulticoreCsv_wrapped_cell :
    readMulticoreCsv "QD,Per_Core\n1,\"10\n20\"\n" =
      .ok ⟨["QD", "Per_Core"], [[some "1", some "10\\n20"]]⟩ := by
  have h := readMulticoreCsv_exportedText
    ⟨[⟨"QD", false, fun _ => by decide⟩, ⟨"Per_Core", false, fun _ => by decide⟩],
      fun w h => by simp at h⟩
    [⟨⟨[⟨"1", false, fun _ => by decide⟩, ⟨"10\n20", true, fun h => absurd h (by decide)⟩],
        fun w h => by simp at h⟩,
      ⟨"1,\"10", ["20\""], by decide, by decide, by decide⟩, by decide, by decide⟩]
    (by decide) (by decide) (by decide)
  exact h

/-! ## The latency means

`read_multicore_csv` ends by converting each of its numeric columns with
`pd.to_numeric` and adding `col + "_mean"` for each latency column in the frame,
`per_core_mean` of each of its cells.  A name the header repeats selects a frame
rather than a column: `pd.to_numeric` raises on it, and the means of a repeated
latency column are indexed by the repeated name, which the assignment cannot
align with the rows.  The decoder turns the marker back into a line break, so on
an exported file with distinct names the mean is the one of the cell as the
writer wrote it, over all its lines. -/

/-- A frame cell as `parse_per_core_values` sees it. -/
def frameCell : Option String → PerCore.Cell
  | some s => .text s
  | none => .none

/-- The position of the first column of the name. -/
def columnIndex : List String → String → Option ℕ
  | [], _ => none
  | c :: cs, col => if c = col then some 0 else (columnIndex cs col).map (· + 1)

/-- `df[col].apply(per_core_mean)` for a column of the frame. -/
def meanColumn (frame : Frame) (col : String) : Option (List PyFloat) :=
  (columnIndex frame.columns col).map fun i =>
    frame.rows.map fun row => PerCore.perCoreMean (frameCell (row.getD i none))

/-- The columns `read_multicore_csv` converts with `pd.to_numeric`. -/
def numericCols : List String :=
  ["QD", "Qpairs", "IO_Size", "Run_ID", "Core_Count", "IOPS", "Cycles", "Instructions",
    "LLC_Misses", "Dram_Read_Bytes", "Dram_Write_Bytes", "Energy_Joules", "Cycles_Per_IO",
    "Instr_Per_IO", "LLC_Misses_Per_IO", "Dram_Read_Bytes_Per_IO", "Dram_Write_Bytes_Per_IO",
    "Energy_Per_IO", "Polls", "Completions", "Scans_Per_Completion", "Completions_Per_Call",
    "MMIO_Writes_Per_IO", "Submit_Logic_ns", "Polling_Wait_ns", "Completion_Logic_ns",
    "Total_IO_ns"]

/-- The latency columns whose means `read_multicore_csv` adds. -/
def latencyColumns : List String := ["p50_Latency", "p99_Latency", "p99.9_Latency"]

/-- Whether the frame has the name as more than one column. -/
def repeated (frame : Frame) (col : String) : Bool := decide (1 < frame.columns.count col)

/-- The columns `read_multicore_csv` adds: `col + "_mean"` for each latency
column in the frame.  It raises first on a numeric column the header repeats,
then, when the frame has rows, on a repeated latency column. -/
def latencyMeans (frame : Frame) : Except String (List (String × List PyFloat)) :=
  if numericCols.any (repeated frame) then
    .error "arg must be a list, tuple, 1-d array, or Series"
  else if frame.rows ≠ [] ∧ latencyColumns.any (repeated frame) then
    .error "cannot reindex on an axis with duplicate labels"
  else
    .ok (latencyColumns.filterMap fun col => (meanColumn frame col).map ((col ++ "_mean", ·)))

/-- A frame whose columns are distinct raises on none of them. -/
theorem latencyMeans_of_nodup {columns : List String} (rows : List (List (Option String)))
    (h : columns.Nodup) :
    latencyMeans ⟨columns, rows⟩ = .ok (latencyColumns.filterMap fun col =>
      (meanColumn ⟨columns, rows⟩ col).map ((col ++ "_mean", ·))) := by
  have hnot : ∀ cols : List String, cols.any (repeated ⟨columns, rows⟩) = false := fun cols => by
    have hle := List.nodup_iff_count_le_one.mp h
    simpa [repeated] using fun col _ => hle col
  simp only [latencyMeans, hnot, Bool.false_eq_true, and_false, if_false]

theorem unescapeAll_cons_of_ne {c : Char} (hc : c ≠ '\\') (s : List Char) :
    PerCore.unescapeAll (c :: s) = c :: PerCore.unescapeAll s := by
  simp only [PerCore.unescapeAll, replace_cons_of_ne c hc]

/-- Un-escaping gives back a text without backslashes from its markers. -/
theorem unescapeAll_replaceBreaks {s : List Char} (hs : '\\' ∉ s) :
    PerCore.unescapeAll (replaceBreaks s) = s := by
  induction s with
  | nil => rfl
  | cons c s ih =>
      rw [List.mem_cons, not_or] at hs
      rw [replaceBreaks_cons]
      split
      · next hlf =>
          subst hlf
          simpa [ih hs.2] using PerCore.unescapeAll_append_marker [] (replaceBreaks s)
      · rw [List.singleton_append, unescapeAll_cons_of_ne (Ne.symm hs.1), ih hs.2]

theorem perCoreMean_fieldWithMarkers {w : WrittenField} (hw : '\\' ∉ w.text.data) :
    PerCore.perCoreMean (.text (fieldWithMarkers w).text) = PerCore.perCoreMean (.text w.text) := by
  have hvalues : PerCore.parsePerCoreValues (.text (fieldWithMarkers w).text) =
      PerCore.parsePerCoreValues (.text w.text) := by
    have hself : PerCore.unescapeAll w.text.data = w.text.data := by
      simp only [PerCore.unescapeAll, replace_eq_self (PerCore.containsPair_eq_false hw)]
    rw [PerCore.parsePerCoreValues_text, PerCore.parsePerCoreValues_text,
      show (fieldWithMarkers w).text.data = replaceBreaks w.text.data from rfl,
      unescapeAll_replaceBreaks hw, hself]
  simp only [PerCore.perCoreMean, hvalues]

/-- A line holds no line break. -/
def NoBreak (line : String) : Prop := ∀ c ∈ line.data, isCrLf c = false

theorem noBreak_of_lf_cr {l : List Char} (hlf : '\n' ∉ l) (hcr : '\r' ∉ l) : NoBreak (String.mk l) := by
  intro c hc
  have : c ≠ '\n' ∧ c ≠ '\r' := ⟨fun h => hlf (h ▸ hc), fun h => hcr (h ▸ hc)⟩
  simp [isCrLf, this]

theorem noBreak_physicalLines (text : String) : ∀ line ∈ physicalLines text, NoBreak line := by
  intro line hline
  obtain ⟨l, hl, rfl⟩ := List.mem_map.mp hline
  have htext := (isTextLines_readlines text.data).1 l hl
  have hsub : rstripNewline l <+: l.dropLast ∨ '\n' ∉ l := by
    rcases htext.eq_body.2 with h | h
    · left
      rw [h, rstripNewline, List.rdropWhile_concat_pos _ _ _ (by decide), List.dropLast_concat]
      exact List.rdropWhile_prefix _ _
    · exact .inr h
  refine noBreak_of_lf_cr ?_ fun h => htext.no_cr ((List.rdropWhile_prefix _ _).subset h)
  rcases hsub with h | h
  · exact fun hm => htext.no_inner_lf (h.subset hm)
  · exact fun hm => h ((List.rdropWhile_prefix _ _).subset hm)

theorem sum_length_physicalLines_le (text : String) :
    ((physicalLines text).map fun line => line.data.length).sum ≤ text.data.length :=
  calc ((physicalLines text).map fun line => line.data.length).sum
      ≤ ((readlines text.data).map List.length).sum := by
        rw [physicalLines, List.map_map]
        exact List.sum_le_sum fun l _ => (List.rdropWhile_prefix _ _).length_le
    _ = (translateNewlines text.data).length := by rw [← List.length_flatten, flatten_readlines]
    _ ≤ text.data.length := length_translateNewlines_le _

/-- A row the loop has built from lines of total length `n`. -/
def RowFits (n : ℕ) (row : String) : Prop := row.data.length ≤ 3 * n ∧ NoBreak row

theorem RowFits.mono {n m : ℕ} {row : String} (h : RowFits n row) (hnm : n ≤ m) : RowFits m row :=
  ⟨h.1.trans (by omega), h.2⟩

theorem rowLinesStep_fits {acc : List String} {line : String} {n : ℕ}
    (hacc : ∀ row ∈ acc, RowFits n row) (hline : NoBreak line) :
    ∀ row ∈ rowLinesStep acc line, RowFits (n + line.data.length) row := by
  have hold : ∀ row ∈ acc, RowFits (n + line.data.length) row :=
    fun row hrow => (hacc row hrow).mono (by omega)
  unfold rowLinesStep
  split_ifs with hempty hstart hnil
  · exact hold
  · intro row hrow
    rcases List.mem_append.mp hrow with hrow | hrow
    · exact hold row hrow
    · rw [List.mem_singleton.mp hrow]
      exact ⟨by omega, hline⟩
  · exact hold
  · obtain ⟨init, last, rfl⟩ := List.eq_nil_or_concat acc |>.resolve_left hnil
    rw [List.concat_eq_append] at hacc hold ⊢
    rw [List.modifyLast_append_one]
    intro row hrow
    rcases List.mem_append.mp hrow with hrow | hrow
    · exact hold row (List.mem_append_left _ hrow)
    · rw [List.mem_singleton.mp hrow]
      have hlast := hacc last (List.mem_append_right _ (List.mem_singleton_self _))
      have hpos : 0 < line.data.length :=
        List.length_pos.mpr fun h => hempty (String.ext h)
      refine ⟨?_, fun c hc => ?_⟩
      · simp only [String.data_append, List.length_append]
        have hmarker : marker.data.length = 2 := rfl
        have := hlast.1
        omega
      · simp only [String.data_append, List.mem_append] at hc
        rcases hc with (hc | hc) | hc
        · exact hlast.2 c hc
        · have : marker.data = ['\\', 'n'] := rfl
          rw [this] at hc
          rcases List.mem_pair.mp hc with rfl | rfl <;> rfl
        · exact hline c hc

theorem foldl_rowLinesStep_fits (lines acc : List String) (n : ℕ)
    (hacc : ∀ row ∈ acc, RowFits n row) (hlines : ∀ line ∈ lines, NoBreak line) :
    ∀ row ∈ lines.foldl rowLinesStep acc,
      RowFits (n + (lines.map fun line => line.data.length).sum) row := by
  induction lines generalizing acc n with
  | nil => simpa using hacc
  | cons line lines ih =>
      rw [List.foldl_cons, List.map_cons, List.sum_cons, ← Nat.add_assoc]
      exact ih _ _ (rowLinesStep_fits hacc (hlines line (List.mem_cons_self _ _)))
        fun l hl => hlines l (List.mem_cons_of_mem _ hl)

theorem physicalLines_eq_nil {text : String} : physicalLines text = [] ↔ text = "" := by
  rw [physicalLines, List.map_eq_nil_iff, readlines_eq_nil, String.ext_iff]

/-- Tokenizing raises only on an empty file, once the file is short enough
that no row can pass the field size limit: the lines of a file hold no line
break, and neither does a row the loop joins from them. -/
theorem multicoreRows_ok_iff (text : String) (hlen : 3 * text.length ≤ fieldLimit) :
    (∃ header data_rows, multicoreRows text = .ok (header, data_rows)) ↔ text ≠ "" := by
  have hlines := noBreak_physicalLines text
  have hsum := sum_length_physicalLines_le text
  have htext : text.length = text.data.length := rfl
  constructor
  · rintro ⟨header, data_rows, h⟩ rfl
    cases h
  · intro hne
    obtain ⟨first, rest, hphys⟩ := List.exists_cons_of_ne_nil (mt physicalLines_eq_nil.mp hne)
    rw [hphys] at hlines hsum
    rw [List.map_cons, List.sum_cons] at hsum
    obtain ⟨header, hheader⟩ := readRow_ok (hlines first (List.mem_cons_self _ _))
      (show first.data.length ≤ fieldLimit by omega)
    have hrows : ∀ row ∈ rowLines (first :: rest), ∃ padded,
        (readRow row).map (padRow header.length) = .ok padded := by
      intro row hrow
      have hfits := foldl_rowLinesStep_fits rest [] 0 (by simp)
        (fun l hl => hlines l (List.mem_cons_of_mem _ hl)) row hrow
      obtain ⟨fields, hfields⟩ := readRow_ok hfits.2 (show row.data.length ≤ fieldLimit by
        have := hfits.1
        omega)
      exact ⟨_, by rw [hfields]; rfl⟩
    obtain ⟨data_rows, hdata⟩ := exists_mapM_eq_ok hrows
    refine ⟨header, data_rows, ?_⟩
    simp only [multicoreRows, hphys, hheader, Except.bind, hdata]
    rfl

/-- A file written on Windows: its line ends are decoded before tokenizing. -/
theorem multicoreRows_ok_crlf :
    3 * "QD,Per_Core\r\n1,\"10\r\n20\"\r\n".length ≤ fieldLimit ∧
      ((∃ header data_rows, multicoreRows "QD,Per_Core\r\n1,\"10\r\n20\"\r\n" = .ok (header, data_rows)) ↔
        "QD,Per_Core\r\n1,\"10\r\n20\"\r\n" ≠ "") :=
  ⟨by decide, multicoreRows_ok_iff _ (by decide)⟩

end BenchIngest.Multicore
