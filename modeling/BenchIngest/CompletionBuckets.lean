import BenchIngest.HistogramFormat

/-!
# Completions per poll in six buckets

`bucket_hist_simplified` folds a parsed histogram into six buckets: a key ending
in `+` goes to `17+`, any other key by the integer `int` reads from it, and a
key `int` rejects is skipped.  Every key `parse_hist` stores is decimal digits
with an optional `+`, and `int` reads those digits in any script, but not more
than 4300 of them: the skip branch is taken exactly on the keys without `+`
that are longer.  Each bucket holds the total count of the other keys the
legend assigns to it, and the six hold their total.  `main` adds the buckets of
every row into `agg_hist_total`, which then holds, bucket by bucket, the total
over the rows.  Sums are exact: the histograms are read with `parseHistExact`.
-/

namespace BenchIngest.Phase1

open Py Dict

/-- The keys of the bucket dictionary, in its order. -/
def bucketLabels : List String :=
  ["Empty (0)", "Single (1)", "2-4", "5-8", "9-16", "17+"]

/-- The `if`/`elif` chain on the integer value of a key. -/
def rangeLabel (i : ℤ) : String :=
  if i = 0 then "Empty (0)"
  else if i = 1 then "Single (1)"
  else if 2 ≤ i ∧ i ≤ 4 then "2-4"
  else if 5 ≤ i ∧ i ≤ 8 then "5-8"
  else if 9 ≤ i ∧ i ≤ 16 then "9-16"
  else "17+"

/-- The bucket a key's count is added to; `none` where `int(k)` raises and the
loop moves on. -/
def bucketOf (k : String) : Option String :=
  if endswith k.data ['+'] then some "17+" else (int k.data).map rangeLabel

/-- One pass of the loop, `buckets[label] += v`. -/
def bucketStep (buckets : Dict String ℚ) (item : String × ℚ) : Dict String ℚ :=
  match bucketOf item.1 with
  | some label => buckets.set label (buckets.getD label 0 + item.2)
  | none => buckets

def bucketHistSimplified (hist : Dict String ℚ) : Dict String ℚ :=
  hist.foldl bucketStep (bucketLabels.map (·, 0))

/-- `for k, val in b_hist.items(): agg_hist_total[k] = agg_hist_total.get(k, 0.0) + val`. -/
def mergeBuckets (agg b_hist : Dict String ℚ) : Dict String ℚ :=
  accumulate Prod.fst (fun total item => total + item.2) 0 agg b_hist

/-- `agg_hist_total` over the cells of the histogram column, each read with
`str`, in exact arithmetic. -/
def aggHistTotal (column : List String) : Dict String ℚ :=
  column.foldl (fun agg v => mergeBuckets agg (bucketHistSimplified (parseHistExact v))) []

/-- The bucket of a count of completions as the plot's legend reads. -/
def countBucket (n : ℕ) : String :=
  if n = 0 then "Empty (0)"
  else if n = 1 then "Single (1)"
  else if 2 ≤ n ∧ n ≤ 4 then "2-4"
  else if 5 ≤ n ∧ n ≤ 8 then "5-8"
  else if 9 ≤ n ∧ n ≤ 16 then "9-16"
  else "17+"

/-- The bucket of a key as the legend reads: keys ending in `+` in `17+`, the
others by the number their digits denote. -/
def keyBucket (k : String) : String :=
  if k.data.getLast? = some '+' then "17+" else countBucket (digitsValue k.data)

/-- The keys the loop counts: those ending in `+`, and those short enough for
`int`. -/
def counted (k : String) : Bool :=
  endswith k.data ['+'] || decide (k.length ≤ maxStrDigits)

theorem keyBucket_mem (k : String) : keyBucket k ∈ bucketLabels := by
  unfold keyBucket countBucket
  split_ifs <;> simp [bucketLabels]

/-- On a natural number the code's chain is the legend's. -/
theorem rangeLabel_natCast (n : ℕ) : rangeLabel n = countBucket n := by
  unfold rangeLabel countBucket
  norm_cast

theorem foldl_parseHistStep_keys {α : Type} (read : List Char → Option α) (ps : List (List Char))
    {out : Dict String α} (hout : ∀ k ∈ out.keys, ∃ key : HistKey, String.mk key.text = k) :
    ∀ k ∈ (ps.foldl (parseHistStep read) out).keys, ∃ key : HistKey, String.mk key.text = k := by
  induction ps generalizing out with
  | nil => exact hout
  | cons p ps ih =>
      refine ih fun k hk => ?_
      unfold parseHistStep at hk
      split at hk
      · exact hout k hk
      · rename_i key val htoken
        split at hk
        · rcases (mem_keys_set _ _ _ _).mp hk with rfl | hk
          · obtain ⟨printed, rfl⟩ := (histToken_eq_some htoken).1
            exact ⟨printed, rfl⟩
          · exact hout k hk
        · exact hout k hk

/-- Every key `parse_hist` stores is a key the exporter prints. -/
theorem parseHistExact_keys_histKey (s : String) :
    ∀ k ∈ (parseHistExact s).keys, ∃ key : HistKey, String.mk key.text = k := by
  unfold parseHistExact parseHistWith
  split
  · simp
  · exact foldl_parseHistStep_keys _ _ (by simp)

/-- The bucketizer puts a printed key where the legend says, unless it has no
`+` and more digits than `int` reads. -/
theorem bucketOf_histKey (key : HistKey) :
    bucketOf (String.mk key.text) =
      if counted (String.mk key.text) then some (keyBucket (String.mk key.text)) else none := by
  have hplus : '+' ∉ key.digits := fun h => absurd (key.all_digits '+' h) (by decide)
  cases hov : key.overflow with
  | true => simp [bucketOf, keyBucket, counted, HistKey.text, hov, endswith]
  | false =>
      have hend : endswith key.digits ['+'] = false := by
        rw [endswith, Bool.eq_false_iff, ne_eq, List.isSuffixOf_iff_suffix]
        exact fun h => hplus (h.subset (List.mem_singleton_self _))
      have hlast : key.digits.getLast? ≠ some '+' := fun h =>
        hplus (List.mem_of_getLast?_eq_some h)
      have hlen : (String.mk key.digits).length = key.digits.length := rfl
      simp only [bucketOf, keyBucket, counted, HistKey.text, hov, List.append_nil, hend,
        int_decimals key.digits_ne key.all_digits, hlast, Bool.false_or, hlen, if_false,
        Bool.false_eq_true, decide_eq_true_eq]
      split_ifs <;> simp [rangeLabel_natCast]

theorem bucketOf_parseHistExact (s : String) :
    ∀ k ∈ (parseHistExact s).keys, bucketOf k = if counted k then some (keyBucket k) else none := by
  intro k hk
  obtain ⟨key, rfl⟩ := parseHistExact_keys_histKey s k hk
  exact bucketOf_histKey key

section Buckets

variable {hist : Dict String ℚ}
  (h : ∀ k ∈ hist.keys, bucketOf k = if counted k then some (keyBucket k) else none)
include h

/-- Where every key is counted in its bucket or skipped, the loop is an
accumulation loop by bucket over the counted keys. -/
theorem bucketHistSimplified_eq_accumulate :
    bucketHistSimplified hist = accumulate (keyBucket ·.1) (fun total item => total + item.2) 0
      (bucketLabels.map (·, 0)) (hist.filter (counted ·.1)) := by
  unfold bucketHistSimplified
  generalize bucketLabels.map (·, (0 : ℚ)) = d
  induction hist generalizing d with
  | nil => rfl
  | cons item hist ih =>
      have hk := h item.1 (List.mem_cons_self _ _)
      have htail := ih fun k hk' => h k (List.mem_cons_of_mem _ hk')
      by_cases hc : counted item.1
      · rw [List.foldl_cons, List.filter_cons_of_pos (by simpa using hc), htail]
        simp [bucketStep, hk, hc, accumulate]
      · rw [List.foldl_cons, List.filter_cons_of_neg (by simpa using hc), htail]
        simp [bucketStep, hk, hc]

theorem keys_bucketHistSimplified : (bucketHistSimplified hist).keys = bucketLabels := by
  have hkeys : Dict.keys (bucketLabels.map (·, (0 : ℚ))) = bucketLabels := by
    simp [keys, List.map_map, Function.comp_def]
  rw [bucketHistSimplified_eq_accumulate h, keys_accumulate_of_mem, hkeys]
  exact fun item _ => hkeys ▸ keyBucket_mem item.1

theorem getD_bucketHistSimplified (label : String) :
    (bucketHistSimplified hist).getD label 0 =
      (Dict.values ((hist.filter (counted ·.1)).filter (keyBucket ·.1 = label))).sum := by
  rw [bucketHistSimplified_eq_accumulate h, getD_accumulate_add, getD_map_const, zero_add]
  rfl

theorem sum_values_bucketHistSimplified :
    (bucketHistSimplified hist).values.sum = (Dict.values (hist.filter (counted ·.1))).sum := by
  rw [bucketHistSimplified_eq_accumulate h, sum_values_accumulate_add]
  simp [values, bucketLabels]

end Buckets

theorem getD_mergeBuckets {b_hist : Dict String ℚ} (hb : b_hist.keys.Nodup)
    (agg : Dict String ℚ) (label : String) :
    (mergeBuckets agg b_hist).getD label 0 = agg.getD label 0 + b_hist.getD label 0 := by
  rw [mergeBuckets, getD_accumulate_add, ← sum_filter_eq_getD hb]

/-- Each bucket of the aggregate is the total of that bucket over the rows. -/
theorem getD_aggHistTotal (column : List String) (label : String) :
    (aggHistTotal column).getD label 0 =
      (column.map fun v => (bucketHistSimplified (parseHistExact v)).getD label 0).sum := by
  have hnodup : ∀ v, (bucketHistSimplified (parseHistExact v)).keys.Nodup := fun v => by
    rw [keys_bucketHistSimplified (bucketOf_parseHistExact v)]
    decide
  suffices hfold : ∀ agg, (column.foldl (fun agg v =>
      mergeBuckets agg (bucketHistSimplified (parseHistExact v))) agg).getD label 0 =
      agg.getD label 0 +
        (column.map fun v => (bucketHistSimplified (parseHistExact v)).getD label 0).sum
    by simpa [aggHistTotal, getD, get?] using hfold []
  induction column with
  | nil => simp
  | cons v column ih =>
      intro agg
      rw [List.foldl_cons, ih, getD_mergeBuckets (hnodup v), List.map_cons, List.sum_cons, add_assoc]

/-- Bucketing a parsed histogram skips exactly the keys without `+` of more
than 4300 digits, which `int` refuses, and loses no count of the others: each
bucket holds the counts of the counted keys the legend puts there, the six
hold their total, and the aggregate over a column adds the rows bucket by
bucket. -/
theorem bucketHistSimplified_conserves_counts (s : String) (column : List String) :
    (∀ k ∈ (parseHistExact s).keys, bucketOf k = if counted k then some (keyBucket k) else none) ∧
      (bucketHistSimplified (parseHistExact s)).keys = bucketLabels ∧
      (∀ label, (bucketHistSimplified (parseHistExact s)).getD label 0 =
        (Dict.values (((parseHistExact s).filter (counted ·.1)).filter (keyBucket ·.1 = label))).sum) ∧
      (bucketHistSimplified (parseHistExact s)).values.sum =
        (Dict.values ((parseHistExact s).filter (counted ·.1))).sum ∧
      ∀ label, (aggHistTotal column).getD label 0 =
        (column.map fun v => (bucketHistSimplified (parseHistExact v)).getD label 0).sum :=
  ⟨bucketOf_parseHistExact s, keys_bucketHistSimplified (bucketOf_parseHistExact s),
    getD_bucketHistSimplified (bucketOf_parseHistExact s),
    sum_values_bucketHistSimplified (bucketOf_parseHistExact s), getD_aggHistTotal column⟩

theorem bucketOf_long_key {key : HistKey} (hov : key.overflow = false)
    (hlen : maxStrDigits < key.digits.length) : bucketOf (String.mk key.text) = none := by
  have htext : key.text = key.digits := by simp [HistKey.text, hov]
  have hplus : '+' ∉ key.digits := fun h => absurd (key.all_digits '+' h) (by decide)
  have hend : endswith key.digits ['+'] = false := by
    rw [endswith, Bool.eq_false_iff, ne_eq, List.isSuffixOf_iff_suffix]
    exact fun h => hplus (h.subset (List.mem_singleton_self _))
  have hcount : counted (String.mk key.text) = false := by
    simp only [counted, htext, hend, Bool.false_or, decide_eq_false_iff_not, not_le]
    exact hlen
  rw [bucketOf_histKey, hcount]
  rfl

/-- A key of 4301 digits is stored by `parse_hist`, refused by `int` and
skipped: its count reaches no bucket. -/
theorem bucketHistSimplified_long_key :
    let key : HistKey := ⟨List.replicate 4301 '1',
      List.ne_nil_of_length_pos (by rw [List.length_replicate]; exact Nat.succ_pos _),
      fun c hc => by rw [List.eq_of_mem_replicate hc]; decide, false⟩
    parseHistExact (renderHist ", " [(key, 1)]) = [(String.mk key.text, 1)] ∧
      bucketOf (String.mk key.text) = none ∧
      (bucketHistSimplified (parseHistExact (renderHist ", " [(key, 1)]))).values.sum = 0 := by
  intro key
  have hparse : parseHistExact (renderHist ", " [(key, 1)]) = [(String.mk key.text, 1)] := by
    have h := parseHistWith_renderHist exactCount exactCount_toString [(key, 1)]
      (List.nodup_singleton _) ", " (Or.inl rfl)
    simp only [List.map_cons, List.map_nil, Nat.cast_one] at h
    exact h
  have hskip : bucketOf (String.mk key.text) = none :=
    bucketOf_long_key rfl (by rw [List.length_replicate]; decide)
  refine ⟨hparse, hskip, ?_⟩
  rw [hparse, bucketHistSimplified, List.foldl_cons, List.foldl_nil, bucketStep]
  simp [hskip, values, bucketLabels]

end BenchIngest.Phase1
