import BenchIngest.CompletionBuckets
import Mathlib.Tactic.Linarith

/-!
# Completion buckets as percentages

`plot_completions_stacked_by_qd` turns the buckets of each row into percentages
of the row's total, or into zeros where that total is not positive, and stacks,
for each queue depth, their means over the rows.  `plot_completions_log_scale`
labels the bars of `agg_hist_total` with their shares of its total.  Whatever
the counts, the percentages of a row sum to 100 or are all zero, and a stacked
bar is at most 100 high.  Each percentage lies in `[0, 100]` when the counts
are not negative, which the item pattern does not ensure: a count may start
with `-`.
-/

namespace BenchIngest.Phase1

open Py Dict

/-- `norm_hist` of one row of `plot_completions_stacked_by_qd`. -/
def normHist (b_hist : Dict String ℚ) : Dict String ℚ :=
  let total := b_hist.values.sum
  if 0 < total then b_hist.map fun item => (item.1, item.2 / total * 100)
  else bucketLabels.map (·, 0)

/-- The bucket columns of `plot_df.groupby([qd_col]).mean(numeric_only=True)`
over the rows `(row[qd_col], str(row[hist_col]))`: for each queue depth, in
ascending order, the mean percentage of each bucket over the rows of that
depth. -/
def stackedByQd (rows : List (ℚ × String)) : List (ℚ × Dict String ℚ) :=
  let table := rows.map fun row => (row.1, normHist (bucketHistSimplified (parseHistExact row.2)))
  (sortedUnique (table.map Prod.fst)).map fun qd =>
    let group := (table.filter (·.1 = qd)).map Prod.snd
    (qd, bucketLabels.map fun label => (label, (group.map (·.getD label 0)).sum / group.length))

/-- The percentages over the bars of `plot_completions_log_scale`, computed when
the total of the plotted values is positive. -/
def logScalePercents (agg_hist : Dict String ℚ) : Option (List ℚ) :=
  let vals := bucketLabels.map (agg_hist.getD · 0)
  let total := vals.sum
  if 0 < total then some (vals.map fun val => 100 * val / total) else none

section Row

theorem values_normHist (b_hist : Dict String ℚ) :
    (normHist b_hist).values = if 0 < b_hist.values.sum
      then b_hist.values.map (· / b_hist.values.sum * 100) else bucketLabels.map fun _ => 0 := by
  dsimp only [normHist]
  split_ifs <;> simp [values, List.map_map, Function.comp_def]

theorem keys_normHist {b_hist : Dict String ℚ} (hb : b_hist.keys = bucketLabels) :
    (normHist b_hist).keys = bucketLabels := by
  dsimp only [normHist]
  split_ifs
  · simpa [keys, List.map_map, Function.comp_def] using hb
  · simp [keys, List.map_map, Function.comp_def]

/-- The percentages of a row sum to 100 when its total is positive. -/
theorem sum_values_normHist {b_hist : Dict String ℚ} (hpos : 0 < b_hist.values.sum) :
    (normHist b_hist).values.sum = 100 := by
  rw [values_normHist, if_pos hpos, List.sum_map_mul_right, sum_map_div_sum hpos.ne', one_mul]

theorem values_normHist_of_nonpos {b_hist : Dict String ℚ} (hpos : ¬0 < b_hist.values.sum) :
    ∀ v ∈ (normHist b_hist).values, v = 0 := by
  rw [values_normHist, if_neg hpos]
  simp

/-- Whatever the counts, a row's percentages add up to 0 or 100. -/
theorem sum_values_normHist_mem (b_hist : Dict String ℚ) :
    0 ≤ (normHist b_hist).values.sum ∧ (normHist b_hist).values.sum ≤ 100 := by
  by_cases hpos : 0 < b_hist.values.sum
  · rw [sum_values_normHist hpos]
    norm_num
  · rw [List.sum_eq_zero (values_normHist_of_nonpos hpos)]
    norm_num

theorem values_normHist_mem {b_hist : Dict String ℚ} (hnn : ∀ v ∈ b_hist.values, 0 ≤ v) :
    ∀ v ∈ (normHist b_hist).values, 0 ≤ v ∧ v ≤ 100 := by
  rw [values_normHist]
  split_ifs
  · simp only [List.mem_map]
    rintro _ ⟨x, hx, rfl⟩
    exact div_sum_mul_mem_percent hnn hx
  · simp

/-- Non-negative counts give non-negative buckets. -/
theorem getD_bucket_hist_nonneg {s : String} (hnn : ∀ c ∈ (parseHistExact s).values, 0 ≤ c)
    (label : String) : 0 ≤ (bucketHistSimplified (parseHistExact s)).getD label 0 := by
  rw [getD_bucketHistSimplified (bucketOf_parseHistExact s)]
  exact List.sum_nonneg fun c hc => hnn c (by
    simp only [values, List.mem_map, List.mem_filter] at hc ⊢
    obtain ⟨item, ⟨⟨hitem, -⟩, -⟩, rfl⟩ := hc
    exact ⟨item, hitem, rfl⟩)

theorem values_bucket_hist_nonneg {s : String} (hnn : ∀ c ∈ (parseHistExact s).values, 0 ≤ c) :
    ∀ v ∈ (bucketHistSimplified (parseHistExact s)).values, 0 ≤ v := by
  intro v hv
  obtain ⟨⟨label, w⟩, hmem, rfl⟩ := List.mem_map.mp hv
  have hnodup : (bucketHistSimplified (parseHistExact s)).keys.Nodup := by
    rw [keys_bucketHistSimplified (bucketOf_parseHistExact s)]
    decide
  have hget := get?_eq_some_of_mem hnodup hmem
  simpa [getD, hget] using getD_bucket_hist_nonneg hnn label

end Row

section Stacked

/-- A stacked bar is the table of the means, over the rows of its depth, of
each bucket's percentage. -/
theorem mem_stackedByQd {rows : List (ℚ × String)} {bar : ℚ × Dict String ℚ}
    (h : bar ∈ stackedByQd rows) :
    ∃ group : List (Dict String ℚ),
      (∀ row ∈ group, ∃ s, (∃ qd, (qd, s) ∈ rows) ∧
        row = normHist (bucketHistSimplified (parseHistExact s))) ∧
      bar.2 = bucketLabels.map fun label => (label, (group.map (·.getD label 0)).sum / group.length) := by
  obtain ⟨qd, -, rfl⟩ := List.mem_map.mp h
  refine ⟨_, fun row hrow => ?_, rfl⟩
  simp only [List.mem_map, List.mem_filter] at hrow
  obtain ⟨_, ⟨⟨⟨qd', s⟩, hmem, rfl⟩, -⟩, rfl⟩ := hrow
  exact ⟨s, ⟨qd', hmem⟩, by dsimp only⟩

theorem values_mean_table_mem {group : List (Dict String ℚ)}
    (hvals : ∀ row ∈ group, ∀ v ∈ row.values, 0 ≤ v ∧ v ≤ 100) :
    ∀ v ∈ Dict.values (bucketLabels.map fun label =>
      (label, (group.map (·.getD label 0)).sum / group.length)), 0 ≤ v ∧ v ≤ 100 := by
  simp only [values, List.map_map, Function.comp_def, List.mem_map]
  rintro _ ⟨label, -, rfl⟩
  rw [← List.length_map group (·.getD label 0)]
  refine mean_mem_percent fun x hx => ?_
  obtain ⟨row, hrow, rfl⟩ := List.mem_map.mp hx
  rcases getD_mem_values_or row label 0 with hmem | hzero
  · exact hvals row hrow _ hmem
  · rw [hzero]
    norm_num

variable {group : List (Dict String ℚ)} (hkeys : ∀ row ∈ group, row.keys = bucketLabels)
include hkeys

/-- The height of a stacked bar is the mean of its rows' totals. -/
theorem sum_values_mean_table :
    (Dict.values (bucketLabels.map fun label =>
      (label, (group.map (·.getD label 0)).sum / group.length))).sum =
      (group.map (·.values.sum)).sum / group.length := by
  have hrows : ∀ row ∈ group, row.values.sum = (bucketLabels.map (row.getD · 0)).sum :=
    fun row hrow => by
      have hnodup : row.keys.Nodup := by rw [hkeys row hrow]; decide
      rw [← sum_map_getD_keys hnodup, hkeys row hrow]
  rw [List.map_congr_left hrows, sum_map_sum_comm group bucketLabels fun row label => row.getD label 0]
  simp only [values, List.map_map, Function.comp_def, div_eq_mul_inv, List.sum_map_mul_right]

theorem sum_values_mean_table_mem (htotal : ∀ row ∈ group, 0 ≤ row.values.sum ∧ row.values.sum ≤ 100) :
    0 ≤ (Dict.values (bucketLabels.map fun label =>
      (label, (group.map (·.getD label 0)).sum / group.length))).sum ∧
    (Dict.values (bucketLabels.map fun label =>
      (label, (group.map (·.getD label 0)).sum / group.length))).sum ≤ 100 := by
  rw [sum_values_mean_table hkeys, ← List.length_map group (·.values.sum)]
  exact mean_mem_percent fun x hx => by
    obtain ⟨row, hrow, rfl⟩ := List.mem_map.mp hx
    exact htotal row hrow

end Stacked

theorem normHist_row_keys (s : String) :
    (normHist (bucketHistSimplified (parseHistExact s))).keys = bucketLabels :=
  keys_normHist (keys_bucketHistSimplified (bucketOf_parseHistExact s))

/-- Every stacked bar has the six buckets and is at most 100 high, whatever
the counts; with non-negative counts each of its segments lies in `[0, 100]`. -/
theorem stackedByQd_bar_mem {rows : List (ℚ × String)} {bar : ℚ × Dict String ℚ}
    (h : bar ∈ stackedByQd rows) :
    bar.2.keys = bucketLabels ∧ 0 ≤ bar.2.values.sum ∧ bar.2.values.sum ≤ 100 ∧
      ((∀ row ∈ rows, ∀ c ∈ (parseHistExact row.2).values, 0 ≤ c) →
        ∀ v ∈ bar.2.values, 0 ≤ v ∧ v ≤ 100) := by
  obtain ⟨group, hgroup, hbar⟩ := mem_stackedByQd h
  have hkeys : ∀ row ∈ group, row.keys = bucketLabels := fun row hrow => by
    obtain ⟨s, -, rfl⟩ := hgroup row hrow
    exact normHist_row_keys s
  have htotal : ∀ row ∈ group, 0 ≤ row.values.sum ∧ row.values.sum ≤ 100 := fun row hrow => by
    obtain ⟨s, -, rfl⟩ := hgroup row hrow
    exact sum_values_normHist_mem _
  rw [hbar]
  refine ⟨by simp [keys, List.map_map, Function.comp_def],
    (sum_values_mean_table_mem hkeys htotal).1, (sum_values_mean_table_mem hkeys htotal).2,
    fun hnn => values_mean_table_mem ?_⟩
  intro row hrow
  obtain ⟨s, ⟨qd, hmem⟩, rfl⟩ := hgroup row hrow
  exact values_normHist_mem (values_bucket_hist_nonneg (hnn (qd, s) hmem))

/-- The log-scale labels: shares of a positive total that add up to 100, each in
`[0, 100]` when the counts of the column are not negative. -/
theorem logScalePercents_aggHistTotal (column : List String) (ps : List ℚ)
    (h : logScalePercents (aggHistTotal column) = some ps) :
    ps.sum = 100 ∧ ((∀ v ∈ column, ∀ c ∈ (parseHistExact v).values, 0 ≤ c) →
      ∀ p ∈ ps, 0 ≤ p ∧ p ≤ 100) := by
  dsimp only [logScalePercents] at h
  split_ifs at h with hpos
  cases h
  set vals := bucketLabels.map ((aggHistTotal column).getD · 0)
  have hshare : ∀ val : ℚ, 100 * val / vals.sum = val / vals.sum * 100 := fun val => by ring
  simp only [hshare]
  refine ⟨by rw [List.sum_map_mul_right, sum_map_div_sum hpos.ne', one_mul], fun hnn p hp => ?_⟩
  have hvals : ∀ val ∈ vals, 0 ≤ val := fun val hval => by
    obtain ⟨label, -, rfl⟩ := List.mem_map.mp hval
    rw [getD_aggHistTotal]
    exact List.sum_nonneg fun x hx => by
      obtain ⟨v, hv, rfl⟩ := List.mem_map.mp hx
      exact getD_bucket_hist_nonneg (hnn v hv) label
  obtain ⟨val, hval, rfl⟩ := List.mem_map.mp hp
  exact div_sum_mul_mem_percent hvals hval

end BenchIngest.Phase1
