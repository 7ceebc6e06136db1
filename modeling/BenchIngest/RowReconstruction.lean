import BenchIngest.CsvReader
import BenchIngest.PyNumber

/-!
# Row reconstruction in `read_multicore_csv`

The multi-core results file may spread one logical row over several physical
lines, when a cell held a line break.  `read_multicore_csv` reads the header,
then starts a row at every line that begins with decimal digits, in any script
`\d` matches, and a comma, appends every other nonempty line to the row before
it behind the two characters backslash and `n`, and drops such a line when no
row has started.  Each row is then tokenized and padded with empty cells up to
the header's width.  Padding never shortens a row, and a row wider than the
header makes the construction of the frame fail.
-/

namespace BenchIngest.Multicore

open Py Csv

/-- `re.compile(r"^\d+,").match(line)`. -/
def rowStart (line : String) : Bool :=
  line.data.takeWhile isDecimal ≠ [] && (line.data.dropWhile isDecimal).head? = some ','

/-- The escaped line break the loop puts before a continuation line. -/
def marker : String := "\\n"

/-- One pass of the loop over `lines[1:]`. -/
def rowLinesStep (row_lines : List String) (line : String) : List String :=
  if line = "" then row_lines
  else if rowStart line then row_lines ++ [line]
  else if row_lines = [] then row_lines
  else row_lines.modifyLast (· ++ marker ++ line)

/-- `row_lines` once the loop has read every line after the header. -/
def rowLines (lines : List String) : List String :=
  (lines.drop 1).foldl rowLinesStep []

/-- `row.extend([""] * (header_len - len(row)))` when the row is short. -/
def padRow (header_len : ℕ) (row : List String) : List String :=
  if row.length < header_len then row ++ List.replicate (header_len - row.length) "" else row

/-- A frame: its columns and its rows, a missing cell being `none`. -/
structure Frame where
  columns : List String
  rows : List (List (Option String))
  deriving DecidableEq, Repr

/-- `pd.DataFrame(rows, columns=columns)`: the rows are widened with missing
cells to the widest one, whose width must be the number of columns. -/
def dataFrame (columns : List String) (rows : List (List String)) : Except String Frame :=
  let width := (rows.map List.length).foldl max 0
  let n := columns.length
  if rows ≠ [] ∧ width ≠ n then
    .error s!"{n} columns passed, passed data had {width} columns"
  else .ok ⟨columns, rows.map fun row => row.map some ++ List.replicate (width - row.length) none⟩

/-- The physical lines of the file, `[line.rstrip("\n") for line in f]`. -/
def physicalLines (text : String) : List String :=
  (readlines text.data).map fun line => String.mk (rstripNewline line)

/-- The header and `data_rows` that `read_multicore_csv` builds. -/
def multicoreRows (text : String) : Except String (List String × List (List String)) :=
  match physicalLines text with
  | [] => .error "Empty CSV file"
  | first :: rest =>
      (readRow first).bind fun header =>
        ((rowLines (first :: rest)).mapM fun row_text =>
          (readRow row_text).map (padRow header.length)).map fun data_rows => (header, data_rows)

/-- `read_multicore_csv` up to the frame built from the tokenized rows. -/
def readMulticoreCsv (text : String) : Except String Frame :=
  (multicoreRows text).bind fun (header, data_rows) => dataFrame header data_rows

/-- A logical row as the exporter writes it: a line that starts a row, then
the continuation lines, none of them empty and none starting a row. -/
structure LogicalRow where
  first : String
  continuations : List String
  first_start : rowStart first = true
  continuation_ne : ∀ line ∈ continuations, line ≠ ""
  continuation_not_start : ∀ line ∈ continuations, rowStart line = false

def LogicalRow.lines (row : LogicalRow) : List String :=
  row.first :: row.continuations

/-- The entry the loop should build for a logical row. -/
def LogicalRow.joined (row : LogicalRow) : String :=
  row.continuations.foldl (fun text line => text ++ marker ++ line) row.first

theorem foldl_rowLinesStep_filter (acc lines : List String) :
    lines.foldl rowLinesStep acc = (lines.filter (· ≠ "")).foldl rowLinesStep acc := by
  induction lines generalizing acc with
  | nil => rfl
  | cons line lines ih =>
      by_cases h : line = ""
      · simp [h, rowLinesStep, ih]
      · simp [h, ih]

theorem foldl_rowLinesStep_orphans {orphans : List String}
    (h : ∀ line ∈ orphans, line ≠ "" ∧ rowStart line = false) :
    orphans.foldl rowLinesStep [] = [] := by
  induction orphans with
  | nil => rfl
  | cons line orphans ih =>
      simp only [List.mem_cons, forall_eq_or_imp] at h
      simp [rowLinesStep, h.1.1, h.1.2, ih h.2]

theorem foldl_rowLinesStep_continuations (acc : List String) (first : String)
    {continuations : List String} (hne : ∀ line ∈ continuations, line ≠ "")
    (hstart : ∀ line ∈ continuations, rowStart line = false) :
    continuations.foldl rowLinesStep (acc ++ [first]) =
      acc ++ [continuations.foldl (fun text line => text ++ marker ++ line) first] := by
  induction continuations generalizing first with
  | nil => rfl
  | cons line rest ih =>
      simp only [List.mem_cons, forall_eq_or_imp] at hne hstart
      simp only [List.foldl_cons, rowLinesStep, hne.1, hstart.1, if_false, Bool.false_eq_true,
        List.append_eq_nil, List.cons_ne_nil, and_false, List.modifyLast_append_one]
      exact ih _ hne.2 hstart.2

theorem foldl_rowLinesStep_rows (acc : List String) (rows : List LogicalRow) :
    (rows.flatMap LogicalRow.lines).foldl rowLinesStep acc = acc ++ rows.map LogicalRow.joined := by
  induction rows generalizing acc with
  | nil => simp
  | cons row rows ih =>
      have hfirst : row.first ≠ "" := by
        intro h
        have := row.first_start
        simp [h, rowStart] at this
      simp only [List.flatMap_cons, List.foldl_append, LogicalRow.lines, List.foldl_cons,
        rowLinesStep, hfirst, row.first_start, if_false, if_true,
        foldl_rowLinesStep_continuations acc row.first row.continuation_ne
          row.continuation_not_start, ih, List.map_cons, List.append_assoc, List.singleton_append]
      rfl

theorem map_joined_of_unwrapped {rows : List LogicalRow}
    (hnone : ∀ row ∈ rows, row.continuations = []) :
    rows.map LogicalRow.joined = (rows.flatMap LogicalRow.lines).filter rowStart := by
  induction rows with
  | nil => rfl
  | cons row rows ih =>
      have hrow : row.continuations = [] := hnone row (List.mem_cons_self _ _)
      simp [LogicalRow.lines, LogicalRow.joined, hrow, row.first_start,
        ih fun r hr => hnone r (List.mem_cons_of_mem _ hr)]

/-- The loop of `read_multicore_csv` undoes the line wrapping: after the
header, any interleaving of empty lines with the rows' physical lines, behind
orphan lines that start no row, gives one entry per logical row, in order; and
when no row was wrapped, the entries are the lines that start rows. -/
theorem rowLines_logical_rows (header : String) (orphans : List String)
    (rows : List LogicalRow) (body : List String)
    (horphans : ∀ line ∈ orphans, line ≠ "" ∧ rowStart line = false)
    (hbody : body.filter (· ≠ "") = orphans ++ rows.flatMap LogicalRow.lines) :
    rowLines (header :: body) = rows.map LogicalRow.joined ∧
      ((∀ row ∈ rows, row.continuations = []) →
        rowLines (header :: body) = body.filter rowStart) := by
  have hrows : rowLines (header :: body) = rows.map LogicalRow.joined := by
    simp only [rowLines, List.drop_one, List.tail_cons]
    rw [foldl_rowLinesStep_filter, hbody, List.foldl_append,
      foldl_rowLinesStep_orphans horphans, foldl_rowLinesStep_rows, List.nil_append]
  refine ⟨hrows, fun hnone => ?_⟩
  have hfilter : body.filter rowStart = (body.filter (· ≠ "")).filter rowStart := by
    rw [List.filter_filter]
    congr 1
    funext line
    by_cases h : line = "" <;> simp [h, rowStart]
  rw [hrows, hfilter, hbody, List.filter_append, List.filter_eq_nil_iff.mpr
    (fun line hline => by simp [(horphans line hline).2]), List.nil_append,
    map_joined_of_unwrapped hnone]

theorem rowLines_wrapped_cell :
    rowLines ["QD,p50_Latency", "junk", "1,\"10", "", "20\"", "2,30"] =
      ["1,\"10\\n20\"", "2,30"] :=
  (rowLines_logical_rows "QD,p50_Latency" ["junk"]
    [⟨"1,\"10", ["20\""], by decide, by decide, by decide⟩, ⟨"2,30", [], by decide, by decide, by decide⟩]
    ["junk", "1,\"10", "", "20\"", "2,30"] (by decide) (by decide)).1

theorem foldl_max_spec (a : ℕ) (widths : List ℕ) :
    a ≤ widths.foldl max a ∧ (∀ w ∈ widths, w ≤ widths.foldl max a) ∧
      (widths.foldl max a = a ∨ widths.foldl max a ∈ widths) := by
  induction widths generalizing a with
  | nil => simp
  | cons w widths ih =>
      obtain ⟨hle, hall, hmem⟩ := ih (max a w)
      refine ⟨le_trans (le_max_left a w) hle, ?_, ?_⟩
      · simp only [List.mem_cons, forall_eq_or_imp, List.foldl_cons]
        exact ⟨le_trans (le_max_right a w) hle, hall⟩
      · simp only [List.foldl_cons, List.mem_cons]
        rcases hmem with h | h
        · rcases max_choice a w with hw | hw
          · exact Or.inl (h.trans hw)
          · exact Or.inr (Or.inl (h.trans hw))
        · exact Or.inr (Or.inr h)

/-- A frame is built exactly when the widest row has the header's width, and
then every row of the frame has that width. -/
theorem dataFrame_ok_iff {columns : List String} {rows : List (List String)}
    (hwide : ∀ row ∈ rows, columns.length ≤ row.length) (frame : Frame) :
    dataFrame columns rows = .ok frame ↔
      (∀ row ∈ rows, row.length = columns.length) ∧ frame = ⟨columns, rows.map (·.map some)⟩ := by
  obtain ⟨-, hall, hmem⟩ := foldl_max_spec 0 (rows.map List.length)
  by_cases hrows : rows = []
  · subst hrows
    simp [dataFrame, eq_comm]
  have hexact : (∀ row ∈ rows, row.length = columns.length) ↔
      (rows.map List.length).foldl max 0 = columns.length := by
    constructor
    · intro h
      rcases hmem with h0 | h0
      · obtain ⟨row, hrow⟩ := List.exists_mem_of_ne_nil rows hrows
        have := hall _ (List.mem_map_of_mem _ hrow)
        have := hwide row hrow
        have := h row hrow
        omega
      · obtain ⟨row, hrow, hlen⟩ := List.mem_map.mp h0
        rw [← hlen, h row hrow]
    · intro h row hrow
      have := hall _ (List.mem_map_of_mem _ hrow)
      have := hwide row hrow
      omega
  by_cases hw : (rows.map List.length).foldl max 0 = columns.length
  · have hlen := hexact.mpr hw
    have hpad : rows.map (fun row => row.map some ++
        List.replicate (columns.length - row.length) none) = rows.map (·.map some) :=
      List.map_congr_left fun row hrow => by simp [hlen row hrow]
    simp only [dataFrame, hw, ne_eq, not_true_eq_false, and_false, if_false, Except.ok.injEq]
    rw [hpad]
    exact ⟨fun h => ⟨hlen, h.symm⟩, fun h => h.2.symm⟩
  · simp [dataFrame, hrows, hw, hexact.not.mpr hw]

/-- A data row with more cells than the header is kept whole, and building
the frame from it fails. -/
theorem readMulticoreCsv_wide_row :
    multicoreRows "a,b\n1,2,3\n" = .ok (["a", "b"], [["1", "2", "3"]]) ∧
      readMulticoreCsv "a,b\n1,2,3\n" = .error "2 columns passed, passed data had 3 columns" :=
  ⟨rfl, rfl⟩

end BenchIngest.Multicore
