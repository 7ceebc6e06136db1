import BenchIngest.BdevLoad
import Mathlib.Tactic.Ring

/-!
# The latency histograms of the block-device benchmark

`load_histograms` reads each bin of each run as a row: IO size, queue depth and
run from the file name, start, end and count from the line.  One loop of
`plot_histograms` adds the counts by the bin's midpoint and by IO size, queue
depth and midpoint.  The first total is the sum of the second over the (IO
size, queue depth) pairs, every lookup the plots make is of a key the loop
stored, and each plotted curve is its counts as percentages of their total,
which add up to 100 whenever that total is not zero.
-/

namespace BenchIngest.Bdev

open Py Dict

/-- A row of `load_histograms`. -/
structure HistRow where
  io_size : ℚ
  qd : ℚ
  run : ℚ
  start_us : ℚ
  end_us : ℚ
  count : ℚ
  deriving DecidableEq, Repr

/-- `(row["start_us"] + row["end_us"]) / 2.0`. -/
def HistRow.mid (row : HistRow) : ℚ :=
  (row.start_us + row.end_us) / 2

/-- `(row["IO Size (Bytes)"], row["Queue Depth"], mid)`, the key of `agg_counts`. -/
def HistRow.aggKey (row : HistRow) : ℚ × ℚ × ℚ :=
  (row.io_size, row.qd, row.mid)

abbrev Counts := Dict ℚ ℚ × Dict (ℚ × ℚ × ℚ) ℚ

/-- One pass of the merge loop, on `(overall_counts, agg_counts)`. -/
def mergeStep (counts : Counts) (row : HistRow) : Counts :=
  (counts.1.set row.mid (counts.1.getD row.mid 0 + row.count),
    counts.2.set row.aggKey (counts.2.getD row.aggKey 0 + row.count))

def mergeCounts (hist_rows : List HistRow) : Counts :=
  hist_rows.foldl mergeStep ([], [])

/-- `total or 1.0`. -/
def orOne (total : ℚ) : ℚ :=
  if total = 0 then 1 else total

/-- `sorted(overall_counts.keys())`. -/
def overallMids (overall_counts : Dict ℚ ℚ) : List ℚ :=
  sortedUnique overall_counts.keys

/-- The overall curve: the midpoints and `overall_counts[m] / total * 100`, or
`none` where a lookup raises. -/
def overallCurve (overall_counts : Dict ℚ ℚ) : Option (List (ℚ × ℚ)) :=
  let total := orOne overall_counts.values.sum
  let mids := overallMids overall_counts
  (allOrNone (mids.map overall_counts.get?)).map fun counts =>
    mids.zip (counts.map fun c => c / total * 100)

/-- `sorted({k[2] for k in agg_counts.keys() if k[0] == io_size and k[1] == qd})`. -/
def seriesMids (agg_counts : Dict (ℚ × ℚ × ℚ) ℚ) (io_size qd : ℚ) : List ℚ :=
  sortedUnique ((agg_counts.keys.filter fun k => k.1 = io_size ∧ k.2.1 = qd).map (·.2.2))

/-- `counts = [agg_counts[(io_size, qd, m)] for m in mids]`, where every lookup
succeeds (`seriesCurve_eq`). -/
def seriesCounts (agg_counts : Dict (ℚ × ℚ × ℚ) ℚ) (io_size qd : ℚ) : List ℚ :=
  (seriesMids agg_counts io_size qd).map fun m => agg_counts.getD (io_size, qd, m) 0

/-- The curve of one queue depth in the plot of one IO size: the midpoints and
`c / total * 100` for `counts = [agg_counts[(io_size, qd, m)] for m in mids]`,
or `none` where a lookup raises. -/
def seriesCurve (agg_counts : Dict (ℚ × ℚ × ℚ) ℚ) (io_size qd : ℚ) : Option (List (ℚ × ℚ)) :=
  let mids := seriesMids agg_counts io_size qd
  (allOrNone (mids.map fun m => agg_counts.get? (io_size, qd, m))).map fun counts =>
    let total := orOne counts.sum
    mids.zip (counts.map fun c => c / total * 100)

/-- `io_sizes = sorted({k[0] for k in agg_counts.keys()})`. -/
def ioSizes (agg_counts : Dict (ℚ × ℚ × ℚ) ℚ) : List ℚ :=
  sortedUnique (agg_counts.keys.map (·.1))

/-- `qds = sorted({k[1] for k in agg_counts.keys() if k[0] == io_size})`. -/
def sizeQds (agg_counts : Dict (ℚ × ℚ × ℚ) ℚ) (io_size : ℚ) : List ℚ :=
  sortedUnique ((agg_counts.keys.filter (·.1 = io_size)).map (·.2.1))

/-- What `plot_histograms` draws: the overall curve, and for each IO size, in
ascending order, its queue depths, ascending, with their curves; `none` where
a lookup raises. -/
def plotHistograms (hist_rows : List HistRow) :
    Option (List (ℚ × ℚ) × List (ℚ × List (ℚ × List (ℚ × ℚ)))) :=
  if hist_rows = [] then some ([], [])
  else
    let (overall_counts, agg_counts) := mergeCounts hist_rows
    let overall := if overall_counts = [] then some [] else overallCurve overall_counts
    let bySize := allOrNone ((ioSizes agg_counts).map fun io_size =>
      (allOrNone ((sizeQds agg_counts io_size).map fun qd =>
        (seriesCurve agg_counts io_size qd).map (qd, ·))).map (io_size, ·))
    overall.bind fun curve => bySize.map (curve, ·)

/-- The points of the overall curve: each midpoint, ascending, and its count as
a percentage of the total. -/
def overallPoints (overall_counts : Dict ℚ ℚ) : List (ℚ × ℚ) :=
  (overallMids overall_counts).map fun m =>
    (m, 100 * overall_counts.getD m 0 / orOne overall_counts.values.sum)

/-- The points of the curve of one queue depth in the plot of one IO size. -/
def seriesPoints (agg_counts : Dict (ℚ × ℚ × ℚ) ℚ) (io_size qd : ℚ) : List (ℚ × ℚ) :=
  (seriesMids agg_counts io_size qd).map fun m =>
    (m, 100 * agg_counts.getD (io_size, qd, m) 0 / orOne (seriesCounts agg_counts io_size qd).sum)

/-- The merge loop runs the two accumulation loops side by side. -/
theorem foldl_mergeStep (hist_rows : List HistRow) (overall_counts : Dict ℚ ℚ)
    (agg_counts : Dict (ℚ × ℚ × ℚ) ℚ) :
    hist_rows.foldl mergeStep (overall_counts, agg_counts) =
      (accumulate HistRow.mid (fun total row => total + row.count) 0 overall_counts hist_rows,
        accumulate HistRow.aggKey (fun total row => total + row.count) 0 agg_counts hist_rows) := by
  induction hist_rows generalizing overall_counts agg_counts with
  | nil => rfl
  | cons row rows ih => exact ih _ _

theorem getD_overall_counts (hist_rows : List HistRow) (m : ℚ) :
    (mergeCounts hist_rows).1.getD m 0 = ((hist_rows.filter (·.mid = m)).map (·.count)).sum := by
  rw [mergeCounts, foldl_mergeStep, getD_accumulate_add]
  simp [getD, get?]

theorem getD_agg_counts (hist_rows : List HistRow) (key : ℚ × ℚ × ℚ) :
    (mergeCounts hist_rows).2.getD key 0 = ((hist_rows.filter (·.aggKey = key)).map (·.count)).sum := by
  rw [mergeCounts, foldl_mergeStep, getD_accumulate_add]
  simp [getD, get?]

theorem nodup_keys_overall_counts (hist_rows : List HistRow) :
    (mergeCounts hist_rows).1.keys.Nodup := by
  rw [mergeCounts, foldl_mergeStep]
  exact nodup_keys_accumulate HistRow.mid (fun total row => total + row.count) 0
    (show (Dict.keys ([] : Dict ℚ ℚ)).Nodup from List.nodup_nil) hist_rows

/-- The count at a midpoint is the sum, over the (IO size, queue depth) pairs,
of the counts at that midpoint of the pair. -/
theorem getD_overall_eq_sum_agg (hist_rows : List HistRow) (m : ℚ) :
    (mergeCounts hist_rows).1.getD m 0 =
      ((hist_rows.map fun row => (row.io_size, row.qd)).dedup.map fun sq =>
        (mergeCounts hist_rows).2.getD (sq.1, sq.2, m) 0).sum := by
  have hfilter : ∀ sq : ℚ × ℚ, hist_rows.filter (·.aggKey = (sq.1, sq.2, m)) =
      (hist_rows.filter (·.mid = m)).filter fun row => (row.io_size, row.qd) = sq := fun sq => by
    rw [List.filter_filter]
    refine List.filter_congr fun row _ => ?_
    simp [HistRow.aggKey, Prod.ext_iff, Bool.and_assoc]
  simp only [getD_agg_counts, hfilter]
  rw [sum_map_sum_filter _ _ (List.nodup_dedup _), getD_overall_counts]
  intro row hrow
  exact List.mem_dedup.mpr (List.mem_map_of_mem _ (List.mem_of_mem_filter hrow))

theorem zip_map_self {α β : Type} (xs : List α) (f : α → β) :
    xs.zip (xs.map f) = xs.map fun x => (x, f x) := by
  induction xs with
  | nil => rfl
  | cons x xs ih => simp [ih]

/-- Percentages of a nonzero total add up to 100. -/
theorem sum_percent_of_ne_zero {xs : List ℚ} (h : xs.sum ≠ 0) :
    (xs.map fun c => 100 * c / orOne xs.sum).sum = 100 := by
  simp only [orOne, if_neg h, mul_div_assoc, List.sum_map_mul_left, sum_map_div_sum h, mul_one]

/-- Every midpoint a series lists is a key of `agg_counts`: the curve is the
percentages of the series' counts. -/
theorem seriesCurve_eq (agg_counts : Dict (ℚ × ℚ × ℚ) ℚ) (io_size qd : ℚ) :
    seriesCurve agg_counts io_size qd = some (seriesPoints agg_counts io_size qd) := by
  have hget : ∀ m ∈ seriesMids agg_counts io_size qd,
      agg_counts.get? (io_size, qd, m) = some (agg_counts.getD (io_size, qd, m) 0) := fun m hm => by
    refine get?_of_mem_keys ?_ 0
    simp only [seriesMids, mem_sortedUnique, List.mem_map, List.mem_filter] at hm
    obtain ⟨⟨s, q, m'⟩, ⟨hk, hsq⟩, rfl⟩ := hm
    simp only [decide_eq_true_eq] at hsq
    obtain ⟨rfl, rfl⟩ := hsq
    exact hk
  simp only [seriesCurve, seriesPoints, allOrNone_map_of_forall hget, Option.map_some', List.map_map,
    Function.comp_def, zip_map_self, seriesCounts]
  congr
  funext m
  congr 1
  ring

theorem overallCurve_eq {overall_counts : Dict ℚ ℚ} :
    overallCurve overall_counts = some (overallPoints overall_counts) := by
  have hget : ∀ m ∈ overallMids overall_counts,
      overall_counts.get? m = some (overall_counts.getD m 0) := fun m hm =>
    get?_of_mem_keys (mem_sortedUnique.mp hm) 0
  simp only [overallCurve, overallPoints, allOrNone_map_of_forall hget, Option.map_some',
    List.map_map, Function.comp_def, zip_map_self]
  congr
  funext m
  congr 1
  ring

/-- With distinct keys, the overall percentages add up to 100 when the total is
not zero. -/
theorem sum_overall_percent {overall_counts : Dict ℚ ℚ} (hnodup : overall_counts.keys.Nodup)
    (h : overall_counts.values.sum ≠ 0) :
    ((overallMids overall_counts).map fun m =>
      100 * overall_counts.getD m 0 / orOne overall_counts.values.sum).sum = 100 := by
  have hmids : ((overallMids overall_counts).map (overall_counts.getD · 0)).sum =
      overall_counts.values.sum := by
    rw [← sum_map_getD_keys hnodup, overallMids, sortedUnique, List.dedup_eq_self.mpr hnodup]
    exact ((List.mergeSort_perm _ _).map _).sum_eq
  have hsum := sum_percent_of_ne_zero (hmids ▸ h)
  rw [hmids] at hsum
  simpa [List.map_map, Function.comp_def] using hsum

/-- Every lookup the plots make is of a key the loop stored: `plot_histograms`
never raises, and draws the overall points and, for each IO size and each of
its queue depths, the points of that series. -/
theorem plotHistograms_eq (hist_rows : List HistRow) :
    plotHistograms hist_rows = some (overallPoints (mergeCounts hist_rows).1,
      (ioSizes (mergeCounts hist_rows).2).map fun io_size => (io_size,
        (sizeQds (mergeCounts hist_rows).2 io_size).map fun qd =>
          (qd, seriesPoints (mergeCounts hist_rows).2 io_size qd))) := by
  have hoverall : ∀ overall_counts : Dict ℚ ℚ,
      (if overall_counts = [] then some [] else overallCurve overall_counts) =
        some (overallPoints overall_counts) := fun overall_counts => by
    split_ifs with h
    · simp [h, overallPoints, overallMids, sortedUnique]
    · exact overallCurve_eq
  unfold plotHistograms
  split_ifs with h
  · simp [h, mergeCounts, overallPoints, overallMids, ioSizes, sortedUnique]
  · simp only [hoverall, Option.some_bind, seriesCurve_eq, Option.map_some',
      allOrNone_map_of_forall fun _ _ => rfl]

/-- A series' points are its midpoints and its counts as percentages of their
total, which add up to 100 when that total is not zero. -/
theorem seriesPoints_spec (agg_counts : Dict (ℚ × ℚ × ℚ) ℚ) (io_size qd : ℚ) :
    (seriesPoints agg_counts io_size qd).map Prod.fst = seriesMids agg_counts io_size qd ∧
      (seriesPoints agg_counts io_size qd).map Prod.snd = (seriesCounts agg_counts io_size qd).map
        (fun c => 100 * c / orOne (seriesCounts agg_counts io_size qd).sum) ∧
      ((seriesCounts agg_counts io_size qd).sum ≠ 0 →
        ((seriesPoints agg_counts io_size qd).map Prod.snd).sum = 100) := by
  have hsnd : (seriesPoints agg_counts io_size qd).map Prod.snd =
      (seriesCounts agg_counts io_size qd).map
        (fun c => 100 * c / orOne (seriesCounts agg_counts io_size qd).sum) := by
    simp [seriesPoints, seriesCounts, Function.comp_def]
  exact ⟨by simp [seriesPoints, Function.comp_def], hsnd, fun h => hsnd ▸ sum_percent_of_ne_zero h⟩

theorem seriesCurve_percentages (agg_counts : Dict (ℚ × ℚ × ℚ) ℚ) (io_size qd : ℚ) :
    ∃ curve, seriesCurve agg_counts io_size qd = some curve ∧
      curve.map Prod.fst = seriesMids agg_counts io_size qd ∧
      curve.map Prod.snd = (seriesCounts agg_counts io_size qd).map
        (fun c => 100 * c / orOne (seriesCounts agg_counts io_size qd).sum) ∧
      ((seriesCounts agg_counts io_size qd).sum ≠ 0 → (curve.map Prod.snd).sum = 100) :=
  ⟨_, seriesCurve_eq _ _ _, seriesPoints_spec agg_counts io_size qd⟩

theorem overallCurve_percentages {overall_counts : Dict ℚ ℚ} (hnodup : overall_counts.keys.Nodup) :
    ∃ curve, overallCurve overall_counts = some curve ∧
      curve.map Prod.fst = overallMids overall_counts ∧
      curve.map Prod.snd = (overallMids overall_counts).map
        (fun m => 100 * overall_counts.getD m 0 / orOne overall_counts.values.sum) ∧
      (overall_counts.values.sum ≠ 0 → (curve.map Prod.snd).sum = 100) := by
  have hsnd : (overallPoints overall_counts).map Prod.snd = (overallMids overall_counts).map
      (fun m => 100 * overall_counts.getD m 0 / orOne overall_counts.values.sum) := by
    simp [overallPoints, Function.comp_def]
  exact ⟨_, overallCurve_eq, by simp [overallPoints, Function.comp_def], hsnd,
    fun h => hsnd ▸ sum_overall_percent hnodup h⟩

/-- The merge loop of `plot_histograms` adds the counts by midpoint and by IO
size, queue depth and midpoint, the first total being the sum of the second
over the (IO size, queue depth) pairs; no lookup raises, and the plot holds the
overall curve and the curve of each IO size and queue depth; and every curve is
its counts as percentages `100 * count / total`, which add up to 100 whenever
the total is not zero. -/
theorem plotHistograms_merge (hist_rows : List HistRow) :
    (∀ m, (mergeCounts hist_rows).1.getD m 0 =
      ((hist_rows.filter (·.mid = m)).map (·.count)).sum) ∧
    (∀ key, (mergeCounts hist_rows).2.getD key 0 =
      ((hist_rows.filter (·.aggKey = key)).map (·.count)).sum) ∧
    (∀ m, (mergeCounts hist_rows).1.getD m 0 =
      ((hist_rows.map fun row => (row.io_size, row.qd)).dedup.map fun sq =>
        (mergeCounts hist_rows).2.getD (sq.1, sq.2, m) 0).sum) ∧
    plotHistograms hist_rows = some (overallPoints (mergeCounts hist_rows).1,
      (ioSizes (mergeCounts hist_rows).2).map fun io_size => (io_size,
        (sizeQds (mergeCounts hist_rows).2 io_size).map fun qd =>
          (qd, seriesPoints (mergeCounts hist_rows).2 io_size qd))) ∧
    (∀ io_size qd, ∃ curve, seriesCurve (mergeCounts hist_rows).2 io_size qd = some curve ∧
      curve.map Prod.fst = seriesMids (mergeCounts hist_rows).2 io_size qd ∧
      curve.map Prod.snd = (seriesCounts (mergeCounts hist_rows).2 io_size qd).map
        (fun c => 100 * c / orOne (seriesCounts (mergeCounts hist_rows).2 io_size qd).sum) ∧
      ((seriesCounts (mergeCounts hist_rows).2 io_size qd).sum ≠ 0 →
        (curve.map Prod.snd).sum = 100)) ∧
    ∃ curve, overallCurve (mergeCounts hist_rows).1 = some curve ∧
      curve.map Prod.fst = overallMids (mergeCounts hist_rows).1 ∧
      curve.map Prod.snd = (overallMids (mergeCounts hist_rows).1).map (fun m =>
        100 * (mergeCounts hist_rows).1.getD m 0 / orOne (mergeCounts hist_rows).1.values.sum) ∧
      ((mergeCounts hist_rows).1.values.sum ≠ 0 → (curve.map Prod.snd).sum = 100) :=
  ⟨getD_overall_counts hist_rows, getD_agg_counts hist_rows, getD_overall_eq_sum_agg hist_rows,
    plotHistograms_eq hist_rows, seriesCurve_percentages _,
    overallCurve_percentages (nodup_keys_overall_counts hist_rows)⟩

/-! ## The rows `load_histograms` hands over

`plot_histograms` receives the rows `load_histograms` returns, whose values are
floats.  Their tags are always finite; when their start, end and count are too,
they are rows of exact numbers, which the merge loop adds up in exact
arithmetic. -/

/-- A row of exact numbers as the floats `load_histograms` stores. -/
def HistRow.toSample (row : HistRow) : HistSample :=
  ⟨.finite row.io_size, .finite row.qd, .finite row.run, .finite row.start_us,
    .finite row.end_us, .finite row.count⟩

theorem exists_eq_map_of_forall {α β : Type} {f : α → β} :
    ∀ {ys : List β}, (∀ y ∈ ys, ∃ x, y = f x) → ∃ xs : List α, ys = xs.map f
  | [], _ => ⟨[], rfl⟩
  | y :: ys, h => by
      obtain ⟨x, rfl⟩ := h y (List.mem_cons_self _ _)
      obtain ⟨xs, rfl⟩ := exists_eq_map_of_forall fun y hy => h y (List.mem_cons_of_mem _ hy)
      exact ⟨x :: xs, rfl⟩

end BenchIngest.Bdev
