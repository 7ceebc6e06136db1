import BenchIngest.BdevLoad
import Mathlib.Algebra.BigOperators.Group.List

/-!
# Group means and the line plots of the block-device benchmark

`_group_mean` collects the value column of the rows by their tuple of grouping
columns, skipping a row where a column is missing, and returns one record per
bucket, in the order the buckets first appear, holding the tuple and the mean
of its values.  The rows are the records `load_results` builds: their values
are floats, each a new object, so a tuple holding `nan` equals no other row's
tuple and opens a bucket of its own.  Without `nan` in a grouping column every
collected list is nonempty, so the zero fallback is dead code, reordering the
rows only reorders the records, and the mean of finite values is their exact
mean.  `lineplot` and `lineplot_melt` draw the means of one value column grouped
by the `x` column, sorted by `x` with `<`: along every series drawn from rows
without `nan` in `x`, `x` strictly increases.  A `nan` in `x` breaks this, as
`nan` is neither below nor above anything.
-/

namespace BenchIngest.Bdev

open Py Dict

variable {κ : Type} [DecidableEq κ]

/-- A record of `load_results`: column names to floats. -/
abbrev Row (κ : Type) := Dict κ PyFloat

/-- `tuple(row[k] for k in keys)` and `float(row[value_key])`, or `none` where
a `KeyError` sends the loop to the next row; `float` of a float is itself. -/
def rowKey (keys : List κ) (value_key : κ) (row : Row κ) : Option (List PyFloat × PyFloat) :=
  (allOrNone (keys.map row.get?)).bind fun key =>
    (row.get? value_key).map fun val => (key, val)

/-- A tuple holding `nan`: it equals no tuple of another row. -/
def hasNan (key : List PyFloat) : Bool :=
  key.any PyFloat.isNan

/-- One pass of the first loop, `buckets.setdefault(key, []).append(val)`; a
tuple holding `nan` finds no bucket and opens one. -/
def groupStep (keys : List κ) (value_key : κ) (buckets : Dict (List PyFloat) (List PyFloat))
    (row : Row κ) : Dict (List PyFloat) (List PyFloat) :=
  match rowKey keys value_key row with
  | none => buckets
  | some (key, val) =>
      if hasNan key then buckets ++ [(key, [val])]
      else buckets.set key (buckets.getD key [] ++ [val])

/-- `out = {k: v for k, v in zip(keys, key)}`, then `out[value_key] = mean`. -/
def outRecord (keys : List κ) (value_key : κ) (key : List PyFloat) (mean : PyFloat) : Row κ :=
  Dict.set ((keys.zip key).foldl (fun (out : Row κ) kv => out.set kv.1 kv.2) []) value_key mean

/-- `_group_mean(rows, keys, value_key)`, the mean `sum(vals) / len(vals) if
vals else 0.0`. -/
def groupMean (rows : List (Row κ)) (keys : List κ) (value_key : κ) : List (Row κ) :=
  (rows.foldl (groupStep keys value_key) []).map fun bucket =>
    outRecord keys value_key bucket.1
      (if bucket.2 = [] then .finite 0 else PyFloat.mean bucket.2)

/-- A set of floats built in order: a value equal to one already there is left
out, and a `nan` equals none. -/
def pyDistinct (xs : List PyFloat) : List PyFloat :=
  xs.foldl (fun acc x => if x.isNan || !acc.contains x then acc ++ [x] else acc) []

/-- `_unique_values(rows, key)`: `sorted` of the set of the column's values.
The set of values without `nan` comes out of `sorted` in one order, whatever
order the set has; where a `nan` is among them, the set's order follows memory
addresses, and the model keeps the order of first appearance. -/
def uniqueValues (rows : List (Row κ)) (key : κ) : List PyFloat :=
  (pyDistinct (rows.filterMap (·.get? key))).mergeSort PyFloat.sortLe

/-- The points of one drawn series: `_group_mean(sub_rows, [x], y)` sorted by
`r[x]`, a stable sort comparing with `<`, as `(r[x], r[y])`. -/
def series (sub_rows : List (Row κ)) (x y : κ) : List (PyFloat × PyFloat) :=
  let agg_sorted := (groupMean sub_rows [x] y).mergeSort fun a b =>
    PyFloat.sortLe (a.getD x (.finite 0)) (b.getD x (.finite 0))
  agg_sorted.map fun r => (r.getD x (.finite 0), r.getD y (.finite 0))

/-- `[r for r in rows if r.get(hue) == hv]`. -/
def hueRows (rows : List (Row κ)) (hue : κ) (hv : PyFloat) : List (Row κ) :=
  rows.filter fun r => (r.get? hue).any (PyFloat.eq · hv)

/-- The series `lineplot` draws, or `none` where it returns before drawing. -/
def lineplot (rows : List (Row κ)) (x y hue : κ) : Option (List (List (PyFloat × PyFloat))) :=
  match rows with
  | [] => none
  | first :: _ =>
      if y ∉ first.keys then none
      else if hue ∈ first.keys then
        some ((uniqueValues rows hue).map fun hv => series (hueRows rows hue hv) x y)
      else some [series rows x y]

/-- The series `lineplot_melt` draws, one per metric and hue value, or `none`
where no metric is a column of the first row. -/
def lineplotMelt (rows : List (Row κ)) (x : κ) (y_vars : List κ) (hue : κ) :
    Option (List (List (PyFloat × PyFloat))) :=
  match rows with
  | [] => none
  | first :: _ =>
      let valid_y := y_vars.filter (· ∈ first.keys)
      if valid_y = [] then none
      else
        let hue_vals : List (Option PyFloat) :=
          if hue ∈ first.keys then (uniqueValues rows hue).map some else [none]
        some (valid_y.flatMap fun metric => hue_vals.map fun hv =>
          match hv with
          | none => series rows x metric
          | some hv => series (hueRows rows hue hv) x metric)

/-! ## The specification: the valid rows and their groups -/

/-- The rows the loop keeps, as (tuple, value). -/
def validPairs (rows : List (Row κ)) (keys : List κ) (value_key : κ) :
    List (List PyFloat × PyFloat) :=
  rows.filterMap (rowKey keys value_key)

/-- The values of the kept rows with a given tuple, in row order. -/
def groupValues (rows : List (Row κ)) (keys : List κ) (value_key : κ) (key : List PyFloat) :
    List PyFloat :=
  ((validPairs rows keys value_key).filter (·.1 = key)).map Prod.snd

theorem rowKey_eq_some {keys : List κ} {value_key : κ} {row : Row κ} {key : List PyFloat}
    {val : PyFloat} : rowKey keys value_key row = some (key, val) ↔
      keys.map row.get? = key.map some ∧ row.get? value_key = some val := by
  rw [← allOrNone_eq_some]
  cases h₁ : allOrNone (keys.map row.get?) <;> cases h₂ : row.get? value_key <;>
    simp [rowKey, h₁, h₂]

theorem mem_validPairs {rows : List (Row κ)} {keys : List κ} {value_key : κ}
    {key : List PyFloat} {val : PyFloat} :
    (key, val) ∈ validPairs rows keys value_key ↔
      ∃ row ∈ rows, keys.map row.get? = key.map some ∧ row.get? value_key = some val := by
  simp [validPairs, rowKey_eq_some]

theorem mem_groupValues {rows : List (Row κ)} {keys : List κ} {value_key : κ}
    {key : List PyFloat} {val : PyFloat} :
    val ∈ groupValues rows keys value_key key ↔ (key, val) ∈ validPairs rows keys value_key := by
  simp [groupValues]

/-- A kept row's tuple holds `nan` only where one of its grouping cells does. -/
theorem hasNan_of_validPairs {rows : List (Row κ)} {keys : List κ} {value_key : κ}
    (hnan : ∀ row ∈ rows, ∀ k ∈ keys, row.get? k ≠ some .nan) :
    ∀ p ∈ validPairs rows keys value_key, hasNan p.1 = false := by
  rintro ⟨key, val⟩ hp
  obtain ⟨row, hrow, hmap, -⟩ := mem_validPairs.mp hp
  refine Bool.eq_false_iff.mpr fun h => ?_
  obtain ⟨v, hv, hv_nan⟩ := List.any_eq_true.mp h
  have hsome : some v ∈ keys.map row.get? := hmap ▸ List.mem_map_of_mem some hv
  obtain ⟨k, hk, hget⟩ := List.mem_map.mp hsome
  exact hnan row hrow k hk (hget.trans (by simpa [PyFloat.isNan] using hv_nan))

/-- The record built from a tuple holds its columns and the mean. -/
theorem get?_outRecord {g : κ → Option PyFloat} {keys : List κ} {key : List PyFloat}
    (hkey : keys.map g = key.map some) (value_key : κ) (m : PyFloat) (k : κ) :
    (outRecord keys value_key key m).get? k =
      if value_key = k then some m else if k ∈ keys then g k else none := by
  have hfold : ∀ d : Row κ,
      ((keys.zip key).foldl (fun (out : Row κ) kv => out.set kv.1 kv.2) d).get? k =
        if k ∈ keys then g k else d.get? k := by
    induction keys generalizing key with
    | nil => simp
    | cons k' keys ih =>
        cases key with
        | nil => simp at hkey
        | cons v key =>
            simp only [List.map_cons, List.cons.injEq] at hkey
            intro d
            rw [List.zip_cons_cons, List.foldl_cons, ih hkey.2, get?_set]
            by_cases hk : k ∈ keys
            · simp [hk]
            · by_cases hk' : k' = k
              · subst hk'
                simp [hk, hkey.1]
              · simp [hk, hk', Ne.symm hk']
  rw [outRecord, get?_set, hfold]
  rfl

section Buckets

variable (keys : List κ) (value_key : κ)

/-- Without `nan` in a kept tuple the first loop is an accumulation loop over
the rows it keeps. -/
theorem foldl_groupStep {rows : List (Row κ)}
    (hnan : ∀ p ∈ validPairs rows keys value_key, hasNan p.1 = false)
    (d : Dict (List PyFloat) (List PyFloat)) :
    rows.foldl (groupStep keys value_key) d =
      accumulate Prod.fst (fun vals kv => vals ++ [kv.2]) [] d (validPairs rows keys value_key) := by
  induction rows generalizing d with
  | nil => rfl
  | cons row rows ih =>
      simp only [validPairs] at ih hnan ⊢
      rw [List.foldl_cons, List.filterMap_cons]
      cases h : rowKey keys value_key row with
      | none =>
          rw [List.filterMap_cons, h] at hnan
          simp only [groupStep, h]
          exact ih hnan _
      | some kv =>
          rw [List.filterMap_cons, h] at hnan
          have hkv : hasNan kv.1 = false := hnan kv (List.mem_cons_self _ _)
          simp only [groupStep, h, hkv, Bool.false_eq_true, if_false]
          exact ih (fun p hp => hnan p (List.mem_cons_of_mem _ hp)) _

variable {keys value_key}

section NoNan

variable {rows : List (Row κ)} (hnan : ∀ row ∈ rows, ∀ k ∈ keys, row.get? k ≠ some .nan)
include hnan

theorem mem_keys_buckets (key : List PyFloat) :
    key ∈ (rows.foldl (groupStep keys value_key) []).keys ↔
      ∃ val, (key, val) ∈ validPairs rows keys value_key := by
  rw [foldl_groupStep keys value_key (hasNan_of_validPairs hnan), mem_keys_accumulate]
  simp

theorem nodup_keys_buckets : (rows.foldl (groupStep keys value_key) []).keys.Nodup := by
  rw [foldl_groupStep keys value_key (hasNan_of_validPairs hnan)]
  exact nodup_keys_accumulate _ _ _ (by simp [Dict.keys]) _

theorem getD_buckets (key : List PyFloat) :
    (rows.foldl (groupStep keys value_key) []).getD key [] =
      groupValues rows keys value_key key := by
  rw [foldl_groupStep keys value_key (hasNan_of_validPairs hnan), getD_accumulate_append]
  rfl

/-- `_group_mean` is one record per tuple of its buckets, holding the mean of
the tuple's values. -/
theorem groupMean_eq :
    groupMean rows keys value_key = (rows.foldl (groupStep keys value_key) []).keys.map fun key =>
      outRecord keys value_key key (PyFloat.mean (groupValues rows keys value_key key)) := by
  rw [groupMean, Dict.keys, List.map_map]
  refine List.map_congr_left fun bucket hbucket => ?_
  obtain ⟨key, vals⟩ := bucket
  have hvals : vals = groupValues rows keys value_key key := by
    rw [← getD_buckets hnan]
    simp [getD, get?_eq_some_of_mem (nodup_keys_buckets hnan) hbucket]
  obtain ⟨val, hval⟩ := (mem_keys_buckets hnan key).mp (List.mem_map_of_mem Prod.fst hbucket)
  have hne : groupValues rows keys value_key key ≠ [] :=
    List.ne_nil_of_mem (mem_groupValues.mpr hval)
  simp [hvals, hne]

end NoNan

theorem groupValues_ne_nil {rows : List (Row κ)} {key : List PyFloat}
    (h : ∃ val, (key, val) ∈ validPairs rows keys value_key) :
    groupValues rows keys value_key key ≠ [] := by
  obtain ⟨val, hval⟩ := h
  exact List.ne_nil_of_mem (mem_groupValues.mpr hval)

/-- Reordering the rows reorders the records and changes none of them. -/
theorem groupMean_perm {rows rows' : List (Row κ)}
    (hnan : ∀ row ∈ rows, ∀ k ∈ keys, row.get? k ≠ some .nan) (h : rows.Perm rows') :
    (groupMean rows keys value_key).Perm (groupMean rows' keys value_key) := by
  have hnan' : ∀ row ∈ rows', ∀ k ∈ keys, row.get? k ≠ some .nan :=
    fun row hrow => hnan row (h.mem_iff.mpr hrow)
  have hvalid : (validPairs rows keys value_key).Perm (validPairs rows' keys value_key) :=
    h.filterMap _
  have hmean : ∀ key, PyFloat.mean (groupValues rows keys value_key key) =
      PyFloat.mean (groupValues rows' keys value_key key) :=
    fun key => PyFloat.mean_perm ((hvalid.filter fun p : List PyFloat × PyFloat => p.1 = key).map Prod.snd)
  have hkeys : (rows.foldl (groupStep keys value_key) []).keys.Perm
      (rows'.foldl (groupStep keys value_key) []).keys :=
    (List.perm_ext_iff_of_nodup (nodup_keys_buckets hnan) (nodup_keys_buckets hnan')).mpr
      fun key => by
        rw [mem_keys_buckets hnan, mem_keys_buckets hnan']
        exact exists_congr fun _ => hvalid.mem_iff
  rw [groupMean_eq hnan, groupMean_eq hnan']
  simp only [hmean]
  exact hkeys.map _

end Buckets

/-- A record reads back its tuple on the grouping columns, even where the value
column is one of them: the rows of a group then agree on their value, which is
the mean. -/
theorem outRecord_group {rows : List (Row κ)} {keys : List κ} {value_key : κ}
    {key : List PyFloat} (hkey : ∃ val, (key, val) ∈ validPairs rows keys value_key) :
    keys.map (outRecord keys value_key key
        (PyFloat.mean (groupValues rows keys value_key key))).get? = key.map some ∧
      (outRecord keys value_key key (PyFloat.mean (groupValues rows keys value_key key))).get?
          value_key = some (PyFloat.mean (groupValues rows keys value_key key)) ∧
      ∀ k, k ∉ keys → k ≠ value_key →
        (outRecord keys value_key key
          (PyFloat.mean (groupValues rows keys value_key key))).get? k = none := by
  obtain ⟨val, hval⟩ := hkey
  obtain ⟨row, -, hmap, hvalue⟩ := mem_validPairs.mp hval
  refine ⟨?_, by simp [get?_outRecord hmap], fun k hk hkv => by
    simp [get?_outRecord hmap, hk, Ne.symm hkv]⟩
  rw [← hmap]
  refine List.map_congr_left fun k hk => ?_
  rw [get?_outRecord hmap]
  split_ifs with hvk
  · subst hvk
    have hsame : ∀ v ∈ groupValues rows keys value_key key, v = val := fun v hv => by
      obtain ⟨row', -, hmap', hvalue'⟩ := mem_validPairs.mp (mem_groupValues.mp hv)
      have hcol := List.map_inj_left.mp (hmap'.trans hmap.symm) value_key hk
      rw [hvalue', hvalue] at hcol
      exact Option.some.inj hcol
    have hne := groupValues_ne_nil ⟨val, hval⟩
    rw [List.eq_replicate_iff.mpr ⟨rfl, hsame⟩,
      PyFloat.mean_replicate (List.length_pos.mpr hne), hvalue]
  · rfl

/-- Grouping by one column `x` without `nan`: the records hold distinct `x`
values, one for each `x` value of a kept row. -/
theorem groupMean_x_values {sub_rows : List (Row κ)} {x : κ} (y : κ)
    (hnan : ∀ row ∈ sub_rows, ∀ k ∈ [x], row.get? k ≠ some .nan) :
    ((groupMean sub_rows [x] y).map (·.getD x (.finite 0))).Nodup ∧
      ∀ v, v ∈ (groupMean sub_rows [x] y).map (·.getD x (.finite 0)) ↔
        ∃ val, ([v], val) ∈ validPairs sub_rows [x] y := by
  have hsingle : ∀ key ∈ (sub_rows.foldl (groupStep [x] y) []).keys,
      key = [key.headD (.finite 0)] ∧
        (outRecord [x] y key (PyFloat.mean (groupValues sub_rows [x] y key))).getD x (.finite 0) =
          key.headD (.finite 0) := by
    intro key hkey
    obtain ⟨val, hval⟩ := (mem_keys_buckets hnan key).mp hkey
    obtain ⟨row, -, hmap, -⟩ := mem_validPairs.mp hval
    obtain ⟨w, rfl⟩ : ∃ w, key = [w] := by
      cases key with
      | nil => simp at hmap
      | cons w rest => cases rest <;> simp_all
    have hrecord := (outRecord_group ⟨val, hval⟩).1
    simp only [List.map_cons, List.map_nil, List.cons.injEq, and_true] at hrecord
    simp [getD, hrecord]
  rw [groupMean_eq hnan, List.map_map, Function.comp_def,
    List.map_congr_left fun key hkey => (hsingle key hkey).2]
  refine ⟨List.Nodup.map_on (fun a ha b hb hab => ?_) (nodup_keys_buckets hnan), fun v => ?_⟩
  · rw [(hsingle a ha).1, (hsingle b hb).1, hab]
  · simp only [List.mem_map, ← mem_keys_buckets hnan]
    constructor
    · rintro ⟨key, hkey, rfl⟩
      rwa [← (hsingle key hkey).1]
    · exact fun hv => ⟨[v], hv, rfl⟩

/-- Along a series drawn from rows without `nan` in `x`, `x` strictly increases
under Python's `<`, and its `x` values are those of the rows that have both
columns. -/
theorem series_spec {sub_rows : List (Row κ)} {x : κ} (y : κ)
    (hx : ∀ row ∈ sub_rows, row.get? x ≠ some .nan) :
    ((series sub_rows x y).map Prod.fst).Pairwise (fun a b => a.lt b = true) ∧
      ∀ v, v ∈ (series sub_rows x y).map Prod.fst ↔
        ∃ row ∈ sub_rows, row.get? x = some v ∧ ∃ val, row.get? y = some val := by
  have hnan : ∀ row ∈ sub_rows, ∀ k ∈ [x], row.get? k ≠ some .nan := by simpa using hx
  have hxs := groupMean_x_values y hnan
  have hvalid : ∀ v, (∃ val, ([v], val) ∈ validPairs sub_rows [x] y) ↔
      ∃ row ∈ sub_rows, row.get? x = some v ∧ ∃ val, row.get? y = some val := fun v => by
    simp only [mem_validPairs, List.map_cons, List.map_nil, List.cons.injEq, and_true]
    exact ⟨fun ⟨val, row, hrow, hx, hy⟩ => ⟨row, hrow, hx, val, hy⟩,
      fun ⟨row, hrow, hx, val, hy⟩ => ⟨val, row, hrow, hx, hy⟩⟩
  have hnotnan : ∀ r ∈ groupMean sub_rows [x] y, r.getD x (.finite 0) ≠ .nan := by
    intro r hr hr_nan
    obtain ⟨row, hrow, hget, -⟩ :=
      (hvalid _).mp ((hxs.2 _).mp (List.mem_map_of_mem (·.getD x (.finite 0)) hr))
    exact hx row hrow (hr_nan ▸ hget)
  have hsort : (groupMean sub_rows [x] y).mergeSort
      (fun a b => PyFloat.sortLe (a.getD x (.finite 0)) (b.getD x (.finite 0))) =
      (groupMean sub_rows [x] y).mergeSort
        (fun a b => decide ((a.getD x (.finite 0)).toOrd ≤ (b.getD x (.finite 0)).toOrd)) := by
    simpa using List.map_mergeSort (f := id)
      fun a ha b hb => PyFloat.sortLe_eq_toOrd (hnotnan a ha) (hnotnan b hb)
  have hnodup : ((groupMean sub_rows [x] y).map fun r => (r.getD x (.finite 0)).toOrd).Nodup := by
    rw [← Function.comp_def, ← List.map_map]
    refine hxs.1.map_on fun a ha b hb hab => ?_
    obtain ⟨r, hr, rfl⟩ := List.mem_map.mp ha
    obtain ⟨r', hr', rfl⟩ := List.mem_map.mp hb
    exact PyFloat.toOrd_injective (hnotnan r hr) (hnotnan r' hr') hab
  have hfst : (series sub_rows x y).map Prod.fst =
      ((groupMean sub_rows [x] y).mergeSort fun a b =>
        decide ((a.getD x (.finite 0)).toOrd ≤ (b.getD x (.finite 0)).toOrd)).map
          (·.getD x (.finite 0)) := by
    simp [series, Function.comp_def, hsort]
  rw [hfst]
  refine ⟨?_, fun v => ?_⟩
  · have hinc := List.pairwise_map.mp
      (mergeSort_keys_strictly_increasing (fun r : Row κ => (r.getD x (.finite 0)).toOrd) hnodup)
    rw [List.pairwise_map]
    refine hinc.imp_of_mem fun {a b} ha hb hab => ?_
    rw [PyFloat.lt_eq_toOrd (hnotnan a (List.mem_mergeSort.mp ha))
      (hnotnan b (List.mem_mergeSort.mp hb))]
    exact decide_eq_true hab
  · rw [((List.mergeSort_perm _ _).map _).mem_iff, hxs.2, hvalid]

theorem lineplot_series {rows : List (Row κ)} {x y hue : κ}
    {ss : List (List (PyFloat × PyFloat))} (h : lineplot rows x y hue = some ss) :
    ∀ s ∈ ss, ∃ sub_rows, sub_rows.Sublist rows ∧ s = series sub_rows x y := by
  unfold lineplot at h
  split at h
  · cases h
  · split_ifs at h <;> cases h
    · simp only [List.mem_map]
      rintro _ ⟨hv, -, rfl⟩
      exact ⟨_, List.filter_sublist _, rfl⟩
    · simp only [List.mem_singleton, forall_eq]
      exact ⟨_, List.Sublist.refl _, rfl⟩

theorem lineplotMelt_series {rows : List (Row κ)} {x hue : κ} {y_vars : List κ}
    {ss : List (List (PyFloat × PyFloat))} (h : lineplotMelt rows x y_vars hue = some ss) :
    ∀ s ∈ ss, ∃ sub_rows metric, sub_rows.Sublist rows ∧ s = series sub_rows x metric := by
  dsimp only [lineplotMelt] at h
  split at h
  · cases h
  · split_ifs at h <;> cases h
    all_goals
      simp only [List.mem_flatMap, List.mem_map]
      rintro _ ⟨metric, -, hv, -, rfl⟩
      cases hv with
      | none => exact ⟨_, _, List.Sublist.refl _, rfl⟩
      | some hv => exact ⟨_, _, List.filter_sublist _, rfl⟩

end BenchIngest.Bdev
