import BenchIngest.PyDict
import BenchIngest.PyText
import Mathlib.Tactic.Linarith
import Mathlib.Tactic.Ring
import Mathlib.Data.List.Forall2

/-!
# The charts of the phase-1 benchmark

`stage_breakdown_bar` and `_stacked_stage_bar` take the rows of one IO size,
group them by queue depth and draw one bar per depth, whose segments are the
depth's mean stage times as percentages of their total.  The frame holds
numbers or `NaN` after `pd.to_numeric(..., errors="coerce")`: `mean` and
`sum(axis=1)` skip `NaN`, and `groupby` leaves out the rows of a `NaN` depth
and sorts the other depths.

`stage_breakdown_bar` does not read the measured polling column.  It derives
the polling segment as what the cycle-equivalent time `cycles / CPU_GHZ`
leaves after submit and completion, and never lets it fall below zero, so the
total of a bar is the larger of the cycle-equivalent time and submit plus
completion.  Whatever the frame, the segments of a bar that are numbers add up
to 100 when its total is positive and are all zero otherwise.  The cells are
exact numbers here, so these sums, means and percentages are those of exact
arithmetic, the reading under which the scripts' specification states them.
A frame's columns are taken to have distinct names where a result depends on
which column a name selects.
-/

namespace BenchIngest.Phase1

open Py

/-- A cell of the frame: a number, or `NaN` (`none`). -/
abbrev Cell := Option ℚ

/-- The frame `main` passes to the charts, after `to_numeric` and `rename`:
its column names, and its rows, each with one cell per column. -/
structure Table where
  columns : List String
  rows : List (List Cell)
  rows_width : ∀ row ∈ rows, row.length = columns.length

/-- `row[col]`: the cell under the first column of that name. -/
def Table.cell (t : Table) (col : String) (row : List Cell) : Cell :=
  (Dict.get? (t.columns.zip row) col).join

/-- `df[col]`, raising pandas' `KeyError(col)` where the frame has no such
column. -/
def Table.column (t : Table) (col : String) : Except String (List Cell → Cell) :=
  if col ∈ t.columns then pure (t.cell col) else throw col

/-- `CPU_GHZ`, which turns cycles into nanoseconds. -/
def cpuGhz : ℚ := 53 / 10

/-- What a stage chart draws: the "No data" panel, or one bar per queue depth
with the heights of its stacked segments, `none` for a `NaN` height. -/
inductive Chart
  | noData
  | bars (bars : List (ℚ × List Cell))
  deriving DecidableEq

/-- `mean()` of a column of a group: the mean of its numbers, `NaN` when it
has none. -/
def nanMean (cells : List Cell) : Cell :=
  let vals := cells.filterMap id
  if vals = [] then none else some (vals.sum / vals.length)

/-- `sum(axis=1)`, which skips `NaN`. -/
def nanSum (cells : List Cell) : ℚ :=
  (cells.filterMap id).sum

/-- `(100.0 * r[col] / r["Total"]) if r["Total"] > 0 else 0.0`. -/
def percentOf (total : ℚ) (cell : Cell) : Cell :=
  if 0 < total then cell.map (100 * · / total) else some 0

/-- The segments of one bar: each stage mean as a percentage of `Total`, the
sum of the stage means. -/
def stagePercents (means : List Cell) : List Cell :=
  means.map (percentOf (nanSum means))

/-- `groupby(key)`, then `f` of each group: for each depth that is a number,
in increasing order, the depth and `f` of the rows that have it. -/
def groupBy {β : Type} (rows : List (List Cell)) (key : List Cell → Cell)
    (f : List (List Cell) → β) : List (ℚ × β) :=
  (sortedUnique (rows.filterMap key)).map fun q => (q, f (rows.filter (key · = some q)))

/-- `max(0.0, (r["Cycles per IO"] / CPU_GHZ) - r["Submit Logic (ns)"] - r["Completion Logic (ns)"])`:
with a `NaN` operand the comparison fails and `max` keeps `0.0`. -/
def polling : Cell → Cell → Cell → ℚ
  | some submit, some completion, some cycles => max 0 (cycles / cpuGhz - submit - completion)
  | _, _, _ => 0

/-- The segments of a bar of `stage_breakdown_bar`, in the order of `stages`:
submit, the derived polling, completion. -/
def breakdownBar (submit completion cycles : Cell) : List Cell :=
  stagePercents [submit, some (polling submit completion cycles), completion]

/-- `stage_breakdown_bar(df, io_size, ...)`. -/
def stageBreakdownBar (df : Table) (io_size : ℚ) : Except String Chart := do
  let size ← df.column "IO Size (Bytes)"
  let subset := df.rows.filter (size · = some io_size)
  if subset = [] then return .noData else
    let qd ← df.column "Queue Depth"
    let submit ← df.column "Submit Logic (ns)"
    let completion ← df.column "Completion Logic (ns)"
    let cycles ← df.column "Cycles per IO"
    return .bars (groupBy subset qd fun group =>
      breakdownBar (nanMean (group.map submit)) (nanMean (group.map completion))
        (nanMean (group.map cycles)))

/-- `_stacked_stage_bar(df, io_size, qd_col, size_col, stage_cols, ...)`; the
loop over `stage_cols` raises on the first column the frame lacks. -/
def stackedStageBar (df : Table) (io_size : ℚ) (qd_col size_col : String)
    (stage_cols : List String) : Except String Chart := do
  let size ← df.column size_col
  let subset := df.rows.filter (size · = some io_size)
  if subset = [] then return .noData else
    match stage_cols.find? (· ∉ df.columns) with
    | some col => throw ("Missing required column: " ++ col)
    | none =>
      let qd ← df.column qd_col
      return .bars (groupBy subset qd fun group =>
        stagePercents (stage_cols.map fun col => nanMean (group.map (df.cell col))))

/-- The five columns `stage_breakdown_bar` reads, in the order it reads them. -/
def breakdownColumns : List String :=
  ["IO Size (Bytes)", "Queue Depth", "Submit Logic (ns)", "Completion Logic (ns)", "Cycles per IO"]

theorem Table.column_bind {β : Type} (t : Table) (col : String)
    (f : (List Cell → Cell) → Except String β) :
    t.column col >>= f = if col ∈ t.columns then f (t.cell col) else .error col := by
  unfold Table.column
  split <;> rfl

section Percents

/-! The segments of a bar, whatever its stage means. -/

variable {means : List Cell}

theorem length_stagePercents (means : List Cell) : (stagePercents means).length = means.length :=
  List.length_map _ _

theorem filterMap_stagePercents (h : 0 < nanSum means) :
    (stagePercents means).filterMap id = (means.filterMap id).map (100 * · / nanSum means) := by
  rw [stagePercents, List.filterMap_map, List.map_filterMap]
  congr 1
  funext c
  simp [percentOf, h]

theorem sum_stagePercents (h : 0 < nanSum means) :
    ((stagePercents means).filterMap id).sum = 100 := by
  have hshare : ∀ v : ℚ, 100 * v / nanSum means = 100 * (v / (means.filterMap id).sum) :=
    fun v => mul_div_assoc _ _ _
  rw [filterMap_stagePercents h, List.map_congr_left fun v _ => hshare v, List.sum_map_mul_left,
    sum_map_div_sum h.ne', mul_one]

theorem stagePercents_of_nonpos (h : ¬0 < nanSum means) :
    stagePercents means = List.replicate means.length (some 0) := by
  rw [stagePercents, ← List.map_const']
  exact List.map_congr_left fun _ _ => if_neg h

/-- With means that are not negative, every segment lies in `[0, 100]`. -/
theorem stagePercents_mem_percent (hnn : ∀ v ∈ means.filterMap id, 0 ≤ v) :
    ∀ p ∈ (stagePercents means).filterMap id, 0 ≤ p ∧ p ≤ 100 := by
  intro p hp
  by_cases hpos : 0 < nanSum means
  · rw [filterMap_stagePercents hpos] at hp
    obtain ⟨v, hv, rfl⟩ := List.mem_map.mp hp
    have hshare : 100 * v / nanSum means = v / (means.filterMap id).sum * 100 := by
      rw [nanSum]; ring
    rw [hshare]
    exact div_sum_mul_mem_percent hnn hv
  · rw [stagePercents_of_nonpos hpos] at hp
    simp at hp
    simp [hp.2]

end Percents

theorem polling_nonneg (submit completion cycles : Cell) : 0 ≤ polling submit completion cycles := by
  unfold polling
  split
  · exact le_max_left _ _
  · exact le_rfl

/-- With the three means numbers, the total of a bar is the larger of the
cycle-equivalent time and submit plus completion. -/
theorem nanSum_breakdown (s c y : ℚ) :
    nanSum [some s, some (polling (some s) (some c) (some y)), some c] = max (y / cpuGhz) (s + c) := by
  have hsum : nanSum [some s, some (polling (some s) (some c) (some y)), some c] =
      s + max 0 (y / cpuGhz - s - c) + c := by
    simp [nanSum, polling, add_assoc]
  rw [hsum]
  rcases le_total (y / cpuGhz) (s + c) with hle | hle
  · rw [max_eq_left (by linarith), max_eq_right hle]
    ring
  · rw [max_eq_right (by linarith), max_eq_left hle]
    ring

section Groups

variable {β : Type} (rows : List (List Cell)) (key : List Cell → Cell) (f : List (List Cell) → β)

theorem map_fst_groupBy : (groupBy rows key f).map Prod.fst = sortedUnique (rows.filterMap key) := by
  simp [groupBy, List.map_map, Function.comp_def]

theorem mem_groupBy_depths {q : ℚ} :
    q ∈ (groupBy rows key f).map Prod.fst ↔ ∃ row ∈ rows, key row = some q := by
  rw [map_fst_groupBy, mem_sortedUnique, List.mem_filterMap]

variable {rows key f}

theorem mem_groupBy {b : ℚ × β} (h : b ∈ groupBy rows key f) :
    rows.filter (key · = some b.1) ≠ [] ∧ b.2 = f (rows.filter (key · = some b.1)) := by
  obtain ⟨q, hq, rfl⟩ := List.mem_map.mp h
  obtain ⟨row, hrow, hkey⟩ := List.mem_filterMap.mp (mem_sortedUnique.mp hq)
  exact ⟨List.ne_nil_of_mem (List.mem_filter.mpr ⟨hrow, by simpa using hkey⟩), rfl⟩

end Groups

theorem nanMean_nonneg {cells : List Cell} (hnn : ∀ v ∈ cells.filterMap id, 0 ≤ v) {m : ℚ}
    (h : nanMean cells = some m) : 0 ≤ m := by
  by_cases hnil : cells.filterMap id = []
  · simp [nanMean, hnil] at h
  · simp only [nanMean, hnil, if_false, Option.some.injEq] at h
    exact h ▸ div_nonneg (List.sum_nonneg hnn) (Nat.cast_nonneg _)

/-- The segments of a bar of `stage_breakdown_bar` that are numbers add up to
100 when its total is positive, and all three are zero otherwise.  With the
three means numbers the total is the larger of the cycle-equivalent time and
submit plus completion, and with submit and completion not negative every
segment lies in `[0, 100]`. -/
theorem breakdownBar_spec (submit completion cycles : Cell) :
    (breakdownBar submit completion cycles).length = 3 ∧
      (0 < nanSum [submit, some (polling submit completion cycles), completion] →
        ((breakdownBar submit completion cycles).filterMap id).sum = 100) ∧
      (¬0 < nanSum [submit, some (polling submit completion cycles), completion] →
        breakdownBar submit completion cycles = [some 0, some 0, some 0]) ∧
      (∀ s c y : ℚ, submit = some s → completion = some c → cycles = some y →
        nanSum [submit, some (polling submit completion cycles), completion] =
          max (y / cpuGhz) (s + c)) ∧
      ((∀ v ∈ [submit, completion].filterMap id, 0 ≤ v) →
        ∀ p ∈ (breakdownBar submit completion cycles).filterMap id, 0 ≤ p ∧ p ≤ 100) := by
  refine ⟨length_stagePercents _, sum_stagePercents, stagePercents_of_nonpos,
    by rintro s c y rfl rfl rfl; exact nanSum_breakdown s c y, fun hnn => stagePercents_mem_percent ?_⟩
  intro v hv
  obtain ⟨a, ha, hav⟩ := List.mem_filterMap.mp hv
  simp only [List.mem_cons, List.mem_singleton, List.not_mem_nil, or_false] at ha
  rcases ha with rfl | rfl | rfl
  · exact hnn v (List.mem_filterMap.mpr ⟨_, by simp, hav⟩)
  · cases hav
    exact polling_nonneg _ _ _
  · exact hnn v (List.mem_filterMap.mpr ⟨_, by simp, hav⟩)

/-- Column lookups made one after another stop at the first column the frame
lacks. -/
theorem ite_mem_columns {β : Type} (cols : List String) (c₁ c₂ c₃ c₄ : String)
    (x : Except String β) :
    (if c₁ ∈ cols then if c₂ ∈ cols then if c₃ ∈ cols then if c₄ ∈ cols then x
      else .error c₄ else .error c₃ else .error c₂ else .error c₁) =
      match [c₁, c₂, c₃, c₄].find? (· ∉ cols) with
      | some c => .error c
      | none => x := by
  by_cases h₁ : c₁ ∈ cols <;> by_cases h₂ : c₂ ∈ cols <;> by_cases h₃ : c₃ ∈ cols <;>
    by_cases h₄ : c₄ ∈ cols <;> simp [h₁, h₂, h₃, h₄]

/-- `stage_breakdown_bar` with its lookups after the IO size taken together. -/
theorem stageBreakdownBar_eq (df : Table) (io_size : ℚ) :
    stageBreakdownBar df io_size =
      if "IO Size (Bytes)" ∈ df.columns then
        if df.rows.filter (df.cell "IO Size (Bytes)" · = some io_size) = [] then .ok .noData
        else match ["Queue Depth", "Submit Logic (ns)", "Completion Logic (ns)", "Cycles per IO"].find?
            (· ∉ df.columns) with
          | some col => .error col
          | none => .ok (.bars (groupBy (df.rows.filter (df.cell "IO Size (Bytes)" · = some io_size))
              (df.cell "Queue Depth") fun group =>
                breakdownBar (nanMean (group.map (df.cell "Submit Logic (ns)")))
                  (nanMean (group.map (df.cell "Completion Logic (ns)")))
                  (nanMean (group.map (df.cell "Cycles per IO")))))
      else .error "IO Size (Bytes)" := by
  simp only [stageBreakdownBar, Table.column_bind]
  rw [ite_mem_columns]
  rfl

theorem stackedStageBar_eq_bars {df : Table} {io_size : ℚ} {qd_col size_col : String}
    {stage_cols : List String} {bars : List (ℚ × List Cell)}
    (h : stackedStageBar df io_size qd_col size_col stage_cols = .ok (.bars bars)) :
    bars = groupBy (df.rows.filter (df.cell size_col · = some io_size)) (df.cell qd_col)
      fun group => stagePercents (stage_cols.map fun col => nanMean (group.map (df.cell col))) := by
  simp only [stackedStageBar, Table.column_bind] at h
  by_cases hsize : size_col ∈ df.columns
  · by_cases hsub : df.rows.filter (df.cell size_col · = some io_size) = []
    · simp [hsize, hsub, pure, Except.pure] at h
    · rcases hfind : stage_cols.find? (· ∉ df.columns) with _ | col
      · by_cases hqd : qd_col ∈ df.columns <;>
          simp only [hsize, hsub, hfind, hqd, if_true, if_false, reduceCtorEq, pure, Except.pure,
            Except.ok.injEq, Chart.bars.injEq] at h
        exact h.symm
      · simp only [hsize, hsub, hfind, if_true, if_false] at h
        simp [throw, throwThe, MonadExceptOf.throw] at h
  · simp [hsize] at h

/-- The bars of `_stacked_stage_bar`: one per queue depth of the rows of the IO
size, in increasing order, each the stage means over the rows of its depth as
percentages of their total.  A bar has one segment per stage column; the
segments that are numbers add up to 100 or all are zero, and each lies in
`[0, 100]` when no stage cell of the frame is negative. -/
theorem stackedStageBar_bars {df : Table} {io_size : ℚ} {qd_col size_col : String}
    {stage_cols : List String} {bars : List (ℚ × List Cell)}
    (h : stackedStageBar df io_size qd_col size_col stage_cols = .ok (.bars bars)) :
    (bars.map Prod.fst).Pairwise (· < ·) ∧
      (∀ q, q ∈ bars.map Prod.fst ↔ ∃ row ∈ df.rows,
        df.cell size_col row = some io_size ∧ df.cell qd_col row = some q) ∧
      ∀ b ∈ bars,
        let group := (df.rows.filter (df.cell size_col · = some io_size)).filter
          (df.cell qd_col · = some b.1)
        group ≠ [] ∧ b.2 = stagePercents (stage_cols.map fun col => nanMean (group.map (df.cell col))) ∧
          b.2.length = stage_cols.length ∧
          ((b.2.filterMap id).sum = 100 ∨ b.2 = List.replicate stage_cols.length (some 0)) ∧
          ((∀ row ∈ df.rows, ∀ col ∈ stage_cols, ∀ v, df.cell col row = some v → 0 ≤ v) →
            ∀ p ∈ b.2.filterMap id, 0 ≤ p ∧ p ≤ 100) := by
  rw [stackedStageBar_eq_bars h]
  refine ⟨by rw [map_fst_groupBy]; exact sortedUnique_strictly_increasing _, fun q => ?_,
    fun b hb => ?_⟩
  · rw [mem_groupBy_depths]
    simp [and_assoc]
  obtain ⟨hne, hb2⟩ := mem_groupBy hb
  set group := (df.rows.filter (df.cell size_col · = some io_size)).filter (df.cell qd_col · = some b.1)
  set means := stage_cols.map fun col => nanMean (group.map (df.cell col))
  have hlen : means.length = stage_cols.length := List.length_map _ _
  refine ⟨hne, hb2, by rw [hb2, length_stagePercents, hlen], ?_, fun hnn => ?_⟩
  · by_cases hpos : 0 < nanSum means
    · exact .inl (hb2 ▸ sum_stagePercents hpos)
    · exact .inr (by rw [hb2, stagePercents_of_nonpos hpos, hlen])
  · rw [hb2]
    refine stagePercents_mem_percent fun v hv => ?_
    obtain ⟨m, hm, hmv⟩ := List.mem_filterMap.mp hv
    obtain ⟨col, hcol, rfl⟩ := List.mem_map.mp hm
    refine nanMean_nonneg (fun x hx => ?_) hmv
    obtain ⟨c, hc, hcx⟩ := List.mem_filterMap.mp hx
    obtain ⟨row, hrow, rfl⟩ := List.mem_map.mp hc
    simp only [group, List.mem_filter] at hrow
    exact hnn row hrow.1.1 col hcol x hcx

section Congr

/-! What a chart reads of a row. -/

/-- Two rows that agree on the columns `cols`. -/
def AgreeOn (df df' : Table) (cols : List String) (row row' : List Cell) : Prop :=
  ∀ col ∈ cols, df.cell col row = df'.cell col row'

variable {β : Type} {R : List Cell → List Cell → Prop}

theorem map_cell_eq {df df' : Table} {cols : List String} {g g' : List (List Cell)}
    (h : List.Forall₂ (AgreeOn df df' cols) g g') {col : String} (hcol : col ∈ cols) :
    g.map (df.cell col) = g'.map (df'.cell col) := by
  induction h with
  | nil => rfl
  | cons hrow _ ih => simp [hrow col hcol, ih]

theorem groupBy_congr {rows rows' : List (List Cell)} (hrows : List.Forall₂ R rows rows')
    {key key' : List Cell → Cell} (hkey : ∀ a a', R a a' → key a = key' a')
    {f f' : List (List Cell) → β} (hf : ∀ g g', List.Forall₂ R g g' → f g = f' g') :
    groupBy rows key f = groupBy rows' key' f' := by
  have hkeys : rows.filterMap key = rows'.filterMap key' := by
    induction hrows with
    | nil => rfl
    | cons hab _ ih => simp [List.filterMap_cons, hkey _ _ hab, ih]
  simp only [groupBy, hkeys]
  exact List.map_congr_left fun q _ => congrArg (Prod.mk q)
    (hf _ _ (List.rel_filter (fun a a' h => by simp [hkey a a' h]) hrows))

end Congr

/-- `stage_breakdown_bar` reads no column but its five: frames with the same
distinct column names whose rows agree on those five draw the same chart,
whatever their measured `Polling/Device Wait (ns)`. -/
theorem stageBreakdownBar_congr {df df' : Table} (_ : df.columns.Nodup)
    (hcols : df.columns = df'.columns)
    (hrows : List.Forall₂ (AgreeOn df df' breakdownColumns) df.rows df'.rows) (io_size : ℚ) :
    stageBreakdownBar df io_size = stageBreakdownBar df' io_size := by
  have hsub : List.Forall₂ (AgreeOn df df' breakdownColumns)
      (df.rows.filter (df.cell "IO Size (Bytes)" · = some io_size))
      (df'.rows.filter (df'.cell "IO Size (Bytes)" · = some io_size)) :=
    List.rel_filter (fun a a' h => by simp [h "IO Size (Bytes)" (by decide)]) hrows
  have hempty : df.rows.filter (df.cell "IO Size (Bytes)" · = some io_size) = [] ↔
      df'.rows.filter (df'.cell "IO Size (Bytes)" · = some io_size) = [] := by
    rw [← List.length_eq_zero, hsub.length_eq, List.length_eq_zero]
  rw [stageBreakdownBar_eq, stageBreakdownBar_eq]
  simp only [hcols, hempty]
  by_cases h₁ : "IO Size (Bytes)" ∈ df'.columns <;>
    by_cases h₂ : df'.rows.filter (df'.cell "IO Size (Bytes)" · = some io_size) = [] <;>
    simp only [h₁, h₂, if_true, if_false]
  rcases ["Queue Depth", "Submit Logic (ns)", "Completion Logic (ns)", "Cycles per IO"].find? (· ∉ df'.columns) with _ | col
  · refine congrArg (Except.ok ∘ Chart.bars) (groupBy_congr hsub (fun _ _ h => h _ (by decide)) ?_)
    intro g g' hg
    rw [map_cell_eq hg (show "Submit Logic (ns)" ∈ breakdownColumns by decide),
      map_cell_eq hg (show "Completion Logic (ns)" ∈ breakdownColumns by decide),
      map_cell_eq hg (show "Cycles per IO" ∈ breakdownColumns by decide)]
  · rfl

@[simp] theorem nanMean_singleton (v : ℚ) : nanMean [some v] = some v := by
  simp [nanMean]

theorem groupBy_singleton {β : Type} {row : List Cell} {key : List Cell → Cell} {q : ℚ}
    (h : key row = some q) (f : List (List Cell) → β) : groupBy [row] key f = [(q, f [row])] := by
  simp [groupBy, sortedUnique, h]

/-- One row at 4 KiB and depth 1 with 30 ns in the fence and 10 ns at the
doorbell. -/
theorem stackedStageBar_one_row :
    let df : Table := ⟨["IO Size (Bytes)", "Queue Depth", "Fence_ns", "Doorbell_ns"], [[some 4096, some 1, some 30, some 10]], by decide⟩
    let bars : List (ℚ × List Cell) := [(1, [some 75, some 25])]
    stackedStageBar df 4096 "Queue Depth" "IO Size (Bytes)" ["Fence_ns", "Doorbell_ns"] =
        .ok (.bars bars) ∧
      (bars.map Prod.fst).Pairwise (· < ·) ∧
      (∀ q, q ∈ bars.map Prod.fst ↔ ∃ row ∈ df.rows,
        df.cell "IO Size (Bytes)" row = some 4096 ∧ df.cell "Queue Depth" row = some q) ∧
      ∀ b ∈ bars,
        let group := (df.rows.filter (df.cell "IO Size (Bytes)" · = some 4096)).filter
          (df.cell "Queue Depth" · = some b.1)
        group ≠ [] ∧
          b.2 = stagePercents (["Fence_ns", "Doorbell_ns"].map fun col => nanMean (group.map (df.cell col))) ∧
          b.2.length = ["Fence_ns", "Doorbell_ns"].length ∧
          ((b.2.filterMap id).sum = 100 ∨ b.2 = List.replicate ["Fence_ns", "Doorbell_ns"].length (some 0)) ∧
          ((∀ row ∈ df.rows, ∀ col ∈ ["Fence_ns", "Doorbell_ns"], ∀ v, df.cell col row = some v → 0 ≤ v) →
            ∀ p ∈ b.2.filterMap id, 0 ≤ p ∧ p ≤ 100) := by
  intro df bars
  have h : stackedStageBar df 4096 "Queue Depth" "IO Size (Bytes)" ["Fence_ns", "Doorbell_ns"] =
      .ok (.bars bars) := by
    simp only [stackedStageBar, Table.column_bind]
    rw [if_pos (by decide), if_neg (by decide),
      show ["Fence_ns", "Doorbell_ns"].find? (· ∉ df.columns) = none by decide]
    simp only [if_pos (show "Queue Depth" ∈ df.columns by decide)]
    rw [show df.rows.filter (df.cell "IO Size (Bytes)" · = some 4096) = df.rows by decide,
      groupBy_singleton (show df.cell "Queue Depth" [some 4096, some 1, some 30, some 10] = some 1 by decide)]
    simp only [List.map_cons, List.map_nil,
      show df.cell "Fence_ns" [some 4096, some 1, some 30, some 10] = some 30 by decide,
      show df.cell "Doorbell_ns" [some 4096, some 1, some 30, some 10] = some 10 by decide, nanMean_singleton]
    have htotal : nanSum [some 30, some 10] = 40 := by norm_num [nanSum, List.filterMap]
    simp only [stagePercents, htotal, List.map_cons, List.map_nil, percentOf]
    norm_num [bars, pure, Except.pure]
  exact ⟨h, stackedStageBar_bars h⟩

/-- Two frames that differ only in the measured polling time draw the same
chart. -/
theorem stageBreakdownBar_polling_unread :
    let df : Table := ⟨["IO Size (Bytes)", "Queue Depth", "Submit Logic (ns)", "Polling/Device Wait (ns)",
      "Completion Logic (ns)", "Cycles per IO"], [[some 4096, some 1, some 15, some 7, some 15, some 318]],
      by decide⟩
    let df' : Table := ⟨df.columns, [[some 4096, some 1, some 15, some 900, some 15, some 318]], by decide⟩
    df.columns.Nodup ∧ df.columns = df'.columns ∧
      List.Forall₂ (AgreeOn df df' breakdownColumns) df.rows df'.rows ∧
      stageBreakdownBar df 4096 = stageBreakdownBar df' 4096 := by
  intro df df'
  have hnodup : df.columns.Nodup := by decide
  have hcols : df.columns = df'.columns := rfl
  have hrows : List.Forall₂ (AgreeOn df df' breakdownColumns) df.rows df'.rows :=
    .cons (by unfold AgreeOn; decide) .nil
  exact ⟨hnodup, hcols, hrows, stageBreakdownBar_congr hnodup hcols hrows 4096⟩

end BenchIngest.Phase1
