import Mathlib.Data.List.Dedup
import Mathlib.Data.List.Sort
import Mathlib.Algebra.Order.Field.Rat
import Mathlib.Tactic.Abel
import Mathlib.Algebra.BigOperators.Ring.List
import Mathlib.Algebra.Order.BigOperators.Group.List
import Mathlib.Tactic.Linarith

/-!
# Python dictionaries

An insertion-ordered `dict` is the list of its items.  Assigning to a key that
is present replaces its value in place; assigning to a new key appends the
item.  The accumulation loops of the scripts, `d[k] = d.get(k, 0.0) + v` and
`d.setdefault(k, []).append(v)`, are folds of that assignment, and
`getD_accumulate` says once what such a fold stores under every key.  The
plots then turn such totals into means and percentages.
-/

namespace BenchIngest.Py

abbrev Dict (κ ν : Type) := List (κ × ν)

namespace Dict

variable {α κ ν : Type}

def keys (d : Dict κ ν) : List κ :=
  d.map Prod.fst

@[simp] theorem keys_nil : keys ([] : Dict κ ν) = [] := rfl

@[simp] theorem keys_cons (k : κ) (v : ν) (d : Dict κ ν) : keys ((k, v) :: d) = k :: keys d :=
  rfl

def values (d : Dict κ ν) : List ν :=
  d.map Prod.snd

@[simp] theorem values_nil : values ([] : Dict κ ν) = [] := rfl

@[simp] theorem values_cons (k : κ) (v : ν) (d : Dict κ ν) :
    values ((k, v) :: d) = v :: values d :=
  rfl

variable [DecidableEq κ]

def get? : Dict κ ν → κ → Option ν
  | [], _ => none
  | (k', v) :: d, k => if k' = k then some v else get? d k

/-- `d.get(k, default)`. -/
def getD (d : Dict κ ν) (k : κ) (default : ν) : ν :=
  (d.get? k).getD default

/-- `d[k] = v`. -/
def set : Dict κ ν → κ → ν → Dict κ ν
  | [], k, v => [(k, v)]
  | (k', v') :: d, k, v => if k' = k then (k, v) :: d else (k', v') :: set d k v

/-- The loop `for x in xs: d[key(x)] = f(d.get(key(x), z), x)`. -/
def accumulate (key : α → κ) (f : ν → α → ν) (z : ν) (d : Dict κ ν) (xs : List α) :
    Dict κ ν :=
  xs.foldl (fun d x => d.set (key x) (f (d.getD (key x) z) x)) d

theorem get?_set (d : Dict κ ν) (k k' : κ) (v : ν) :
    (d.set k v).get? k' = if k = k' then some v else d.get? k' := by
  induction d with
  | nil => simp [set, get?]
  | cons kv d ih =>
      obtain ⟨k'', v''⟩ := kv
      by_cases h : k'' = k
      · subst h
        by_cases h' : k'' = k' <;> simp [set, get?, h']
      · by_cases h' : k'' = k'
        · subst h'
          simp [set, get?, h, Ne.symm h]
        · simp [set, get?, h, h', ih]

theorem getD_set (d : Dict κ ν) (k k' : κ) (v z : ν) :
    (d.set k v).getD k' z = if k = k' then v else d.getD k' z := by
  simp only [getD, get?_set]
  split <;> rfl

theorem mem_keys_set (d : Dict κ ν) (k k' : κ) (v : ν) :
    k' ∈ (d.set k v).keys ↔ k' = k ∨ k' ∈ d.keys := by
  induction d with
  | nil => simp [set, keys]
  | cons kv d ih =>
      obtain ⟨k'', v''⟩ := kv
      by_cases h : k'' = k
      · subst h; simp [set]
      · simp only [set, h, if_false, keys_cons, List.mem_cons, ih]
        exact or_left_comm

theorem nodup_keys_set {d : Dict κ ν} (hd : d.keys.Nodup) (k : κ) (v : ν) :
    (d.set k v).keys.Nodup := by
  induction d with
  | nil => simp [set, keys]
  | cons kv d ih =>
      obtain ⟨k'', v''⟩ := kv
      simp only [keys_cons, List.nodup_cons] at hd
      by_cases h : k'' = k
      · subst h; simpa [set] using hd
      · simp only [set, h, if_false, keys_cons, List.nodup_cons, mem_keys_set]
        exact ⟨not_or.mpr ⟨not_false, hd.1⟩, ih hd.2⟩

/-- `{k: f(v) for k, v in d.items()}`. -/
def mapValues {μ : Type} (f : ν → μ) (d : Dict κ ν) : Dict κ μ :=
  d.map fun kv => (kv.1, f kv.2)

theorem mapValues_set {μ : Type} (f : ν → μ) (d : Dict κ ν) (k : κ) (v : ν) :
    (d.set k v).mapValues f = (d.mapValues f).set k (f v) := by
  induction d with
  | nil => rfl
  | cons kv d ih =>
      by_cases h : kv.1 = k
      · simp [set, mapValues, h]
      · simp only [mapValues] at ih
        simp [set, mapValues, h, ih]

theorem set_of_not_mem {d : Dict κ ν} {k : κ} (h : k ∉ d.keys) (v : ν) :
    d.set k v = d ++ [(k, v)] := by
  induction d with
  | nil => rfl
  | cons kv d ih =>
      obtain ⟨k', v'⟩ := kv
      simp only [keys_cons, List.mem_cons, not_or] at h
      simp [set, Ne.symm h.1, ih h.2]

/-- Assigning new keys one after another appends the items in order. -/
theorem foldl_set_of_nodup (key : α → κ) (val : α → ν) (xs : List α) (d : Dict κ ν)
    (h : (d.keys ++ xs.map key).Nodup) :
    xs.foldl (fun d x => d.set (key x) (val x)) d = d ++ xs.map fun x => (key x, val x) := by
  induction xs generalizing d with
  | nil => simp
  | cons x xs ih =>
      have hx : key x ∉ d.keys := by
        intro hmem
        simp only [List.map_cons] at h
        exact (List.nodup_append.mp h).2.2 hmem (List.mem_cons_self _ _)
      rw [List.foldl_cons, set_of_not_mem hx, ih]
      · simp
      · simpa [keys, List.map_append] using h

theorem get?_eq_some_of_mem {d : Dict κ ν} (hd : d.keys.Nodup) {k : κ} {v : ν}
    (h : (k, v) ∈ d) : d.get? k = some v := by
  induction d with
  | nil => simp at h
  | cons kv d ih =>
      obtain ⟨k', v'⟩ := kv
      simp only [keys_cons, List.nodup_cons] at hd
      rcases List.mem_cons.mp h with h | h
      · simp_all [get?]
      · have hk : k' ≠ k := fun hk => hd.1 (hk ▸ List.mem_map_of_mem Prod.fst h)
        simp [get?, hk, ih hd.2 h]

/-- What an accumulation loop stores under a key: the fold of `f` over the
items with that key, in order, from what was stored before. -/
theorem getD_accumulate (key : α → κ) (f : ν → α → ν) (z : ν) (d : Dict κ ν)
    (xs : List α) (k : κ) :
    (accumulate key f z d xs).getD k z = (xs.filter (key · = k)).foldl f (d.getD k z) := by
  induction xs generalizing d with
  | nil => rfl
  | cons x xs ih =>
      simp only [accumulate, List.foldl_cons] at ih ⊢
      rw [ih, getD_set]
      by_cases h : key x = k
      · simp [h, List.filter_cons]
      · simp [h, List.filter_cons]

theorem mem_keys_accumulate (key : α → κ) (f : ν → α → ν) (z : ν) (d : Dict κ ν)
    (xs : List α) (k : κ) :
    k ∈ (accumulate key f z d xs).keys ↔ k ∈ d.keys ∨ ∃ x ∈ xs, key x = k := by
  induction xs generalizing d with
  | nil => simp [accumulate]
  | cons x xs ih =>
      simp only [accumulate, List.foldl_cons] at ih ⊢
      rw [ih, mem_keys_set]
      simp only [List.mem_cons, exists_eq_or_imp]
      rw [or_assoc, @eq_comm _ k]
      exact or_left_comm

theorem nodup_keys_accumulate (key : α → κ) (f : ν → α → ν) (z : ν) {d : Dict κ ν}
    (hd : d.keys.Nodup) (xs : List α) : (accumulate key f z d xs).keys.Nodup := by
  induction xs generalizing d with
  | nil => exact hd
  | cons x xs ih => exact ih (nodup_keys_set hd _ _)

theorem keys_set_of_mem {d : Dict κ ν} {k : κ} (h : k ∈ d.keys) (v : ν) :
    (d.set k v).keys = d.keys := by
  induction d with
  | nil => simp at h
  | cons kv d ih =>
      obtain ⟨k', v'⟩ := kv
      by_cases hk : k' = k
      · simp [set, hk]
      · simp only [keys_cons, List.mem_cons] at h
        simp [set, hk, ih (h.resolve_left (Ne.symm hk))]

/-- A loop that only assigns to keys already present leaves the keys as they are. -/
theorem keys_accumulate_of_mem (key : α → κ) (f : ν → α → ν) (z : ν) {d : Dict κ ν}
    {xs : List α} (h : ∀ x ∈ xs, key x ∈ d.keys) : (accumulate key f z d xs).keys = d.keys := by
  induction xs generalizing d with
  | nil => rfl
  | cons x xs ih =>
      have hx := keys_set_of_mem (h x (List.mem_cons_self x xs)) (f (d.getD (key x) z) x)
      simp only [accumulate, List.foldl_cons] at ih ⊢
      rw [ih fun y hy => hx ▸ h y (List.mem_cons_of_mem x hy), hx]

theorem getD_map_const (ks : List κ) (z : ν) (k : κ) : getD (ks.map fun k => (k, z)) k z = z := by
  induction ks with
  | nil => rfl
  | cons k' ks ih => by_cases h : k' = k <;> simp_all [getD, get?]

theorem get?_of_mem_keys {d : Dict κ ν} {k : κ} (h : k ∈ d.keys) (z : ν) :
    d.get? k = some (d.getD k z) := by
  induction d with
  | nil => simp at h
  | cons kv d ih =>
      obtain ⟨k', v'⟩ := kv
      by_cases hk : k' = k
      · simp [getD, get?, hk]
      · simp only [keys_cons, List.mem_cons] at h
        simpa [getD, get?, hk] using ih (h.resolve_left (Ne.symm hk))

/-- `get` reads a stored value or the default. -/
theorem getD_mem_values_or (d : Dict κ ν) (k : κ) (z : ν) :
    d.getD k z ∈ d.values ∨ d.getD k z = z := by
  induction d with
  | nil => exact .inr rfl
  | cons kv d ih =>
      obtain ⟨k', v'⟩ := kv
      by_cases h : k' = k
      · simp [getD, get?, h]
      · simp only [getD, get?, h, if_false, values_cons, List.mem_cons] at ih ⊢
        exact ih.imp_left .inr

theorem foldl_append_eq_map {β : Type} (g : α → β) (a : List β) (xs : List α) :
    xs.foldl (fun acc x => acc ++ [g x]) a = a ++ xs.map g := by
  induction xs generalizing a with
  | nil => simp
  | cons x xs ih => simp [ih]

/-- What `d.setdefault(k, []).append(val(x))` collects under a key: what was
there, then the values of the items with that key, in order. -/
theorem getD_accumulate_append {β : Type} (key : α → κ) (val : α → β) (d : Dict κ (List β))
    (xs : List α) (k : κ) :
    (accumulate key (fun vals x => vals ++ [val x]) [] d xs).getD k [] =
      d.getD k [] ++ (xs.filter (key · = k)).map val := by
  rw [getD_accumulate, foldl_append_eq_map]

section Sums

/-! The loops `d[k] = d.get(k, 0.0) + v` in exact arithmetic. -/

variable [AddCommGroup ν]

theorem foldl_add_eq_sum (val : α → ν) (a : ν) (xs : List α) :
    xs.foldl (fun acc x => acc + val x) a = a + (xs.map val).sum := by
  induction xs generalizing a with
  | nil => simp
  | cons x xs ih => simp [ih, add_assoc]

/-- What an adding loop stores under a key: what was there, plus the values of
the items with that key. -/
theorem getD_accumulate_add (key : α → κ) (val : α → ν) (d : Dict κ ν) (xs : List α) (k : κ) :
    (accumulate key (fun acc x => acc + val x) 0 d xs).getD k 0 =
      d.getD k 0 + ((xs.filter (key · = k)).map val).sum := by
  rw [getD_accumulate, foldl_add_eq_sum]

/-- Assigning under a key changes the total of the values by the new value
less the one `get` reads. -/
theorem sum_values_set (d : Dict κ ν) (k : κ) (v : ν) :
    (d.set k v).values.sum = d.values.sum - d.getD k 0 + v := by
  induction d with
  | nil => simp [set, getD, get?]
  | cons kv d ih =>
      obtain ⟨k', v'⟩ := kv
      by_cases h : k' = k
      · simp [set, getD, get?, h, add_comm]
      · simp only [set, h, if_false, values_cons, List.sum_cons, ih]
        simp only [getD, get?, h, if_false]
        abel

/-- An adding loop adds the values of all its items to the total. -/
theorem sum_values_accumulate_add (key : α → κ) (val : α → ν) (d : Dict κ ν) (xs : List α) :
    (accumulate key (fun acc x => acc + val x) 0 d xs).values.sum =
      d.values.sum + (xs.map val).sum := by
  induction xs generalizing d with
  | nil => simp [accumulate]
  | cons x xs ih =>
      simp only [accumulate, List.foldl_cons] at ih ⊢
      rw [ih, sum_values_set, List.map_cons, List.sum_cons]
      abel

/-- With distinct keys, the total over the items with key `k` is the value
under `k`. -/
theorem sum_filter_eq_getD {d : Dict κ ν} (hd : d.keys.Nodup) (k : κ) :
    ((d.filter (·.1 = k)).map Prod.snd).sum = d.getD k 0 := by
  induction d with
  | nil => rfl
  | cons kv d ih =>
      obtain ⟨k', v'⟩ := kv
      simp only [keys_cons, List.nodup_cons] at hd
      by_cases h : k' = k
      · subst h
        have hnone : d.filter (·.1 = k') = [] := List.filter_eq_nil_iff.mpr fun x hx hxk =>
          hd.1 (by simpa [keys, of_decide_eq_true hxk] using List.mem_map_of_mem Prod.fst hx)
        simp [List.filter_cons, hnone, getD, get?]
      · simp only [List.filter_cons, h, decide_False, if_false, getD, get?]
        exact ih hd.2

/-- With distinct keys, reading every key and adding gives the total of the
values. -/
theorem sum_map_getD_keys {d : Dict κ ν} (hd : d.keys.Nodup) :
    (d.keys.map (d.getD · 0)).sum = d.values.sum := by
  induction d with
  | nil => rfl
  | cons kv d ih =>
      obtain ⟨k, v⟩ := kv
      simp only [keys_cons, List.nodup_cons] at hd
      have hrest : (keys d).map (getD ((k, v) :: d) · 0) = (keys d).map (getD d · 0) :=
        List.map_congr_left fun k' hk' => by
          simp only [getD, get?, if_neg (show k ≠ k' from fun h => hd.1 (h ▸ hk'))]
      have hfirst : getD ((k, v) :: d) k 0 = v := by simp [getD, get?]
      rw [keys_cons, List.map_cons, hrest, hfirst, List.sum_cons, ih hd.2, values_cons, List.sum_cons]

end Sums

end Dict

/-- `[f(x) for x in xs]` where an item may raise: all the items, or `none` at
the first that raises. -/
def allOrNone {α : Type} : List (Option α) → Option (List α)
  | [] => some []
  | none :: _ => none
  | some a :: rest => (allOrNone rest).map (a :: ·)

theorem allOrNone_eq_some {α : Type} {os : List (Option α)} {vs : List α} :
    allOrNone os = some vs ↔ os = vs.map some := by
  induction os generalizing vs with
  | nil => cases vs <;> simp [allOrNone]
  | cons o os ih =>
      cases o <;> cases vs <;> simp [allOrNone, ← ih, and_assoc, and_comm]

theorem allOrNone_map_of_forall {α β : Type} {f : α → Option β} {g : α → β} {xs : List α}
    (h : ∀ x ∈ xs, f x = some (g x)) : allOrNone (xs.map f) = some (xs.map g) := by
  rw [allOrNone_eq_some, List.map_map]
  exact List.map_congr_left h

theorem allOrNone_map_isSome {α β : Type} {f : α → Option β} {xs : List α}
    (h : ∀ x ∈ xs, (f x).isSome) : (allOrNone (xs.map f)).isSome := by
  induction xs with
  | nil => rfl
  | cons x xs ih =>
      obtain ⟨y, hy⟩ := Option.isSome_iff_exists.mp (h x (List.mem_cons_self x xs))
      obtain ⟨ys, hys⟩ := Option.isSome_iff_exists.mp
        (ih fun x' hx' => h x' (List.mem_cons_of_mem x hx'))
      simp [allOrNone, hy, hys]

/-- `sorted({...})` of a collection of numbers: its distinct values, ascending. -/
def sortedUnique (xs : List ℚ) : List ℚ :=
  xs.dedup.mergeSort (fun a b => decide (a ≤ b))

theorem mem_sortedUnique {xs : List ℚ} {q : ℚ} : q ∈ sortedUnique xs ↔ q ∈ xs := by
  simp [sortedUnique]

/-- `sorted(xs, key=f)` of items whose keys are distinct lists the keys
strictly increasing. -/
theorem mergeSort_keys_strictly_increasing {α β : Type} [LinearOrder β] (f : α → β) {xs : List α}
    (h : (xs.map f).Nodup) :
    ((xs.mergeSort fun a b => decide (f a ≤ f b)).map f).Pairwise (· < ·) := by
  have hsorted : (xs.mergeSort fun a b => decide (f a ≤ f b)).Pairwise
      (fun a b => decide (f a ≤ f b) = true) :=
    List.sorted_mergeSort (fun a b c hab hbc => by simp_all; exact le_trans hab hbc)
      (fun a b => by simpa using le_total (f a) (f b)) _
  have hnodup : ((xs.mergeSort fun a b => decide (f a ≤ f b)).map f).Nodup :=
    ((List.mergeSort_perm _ _).map f).nodup_iff.mpr h
  exact List.Sorted.lt_of_le (List.pairwise_map.mpr (hsorted.imp fun hle => by simpa using hle))
    hnodup

theorem sortedUnique_strictly_increasing (xs : List ℚ) :
    (sortedUnique xs).Pairwise (· < ·) := by
  simpa using mergeSort_keys_strictly_increasing id (by simpa using List.nodup_dedup xs)

section Shares

/-! Totals and shares of lists of exact numbers, as the plots compute them. -/


theorem sum_map_div_sum {xs : List ℚ} (h : xs.sum ≠ 0) : (xs.map (· / xs.sum)).sum = 1 := by
  simp only [div_eq_mul_inv, List.sum_map_mul_right, List.map_id', mul_inv_cancel₀ h]

theorem div_sum_mem_unit {xs : List ℚ} (hxs : ∀ x ∈ xs, 0 ≤ x) {x : ℚ} (hx : x ∈ xs) :
    0 ≤ x / xs.sum ∧ x / xs.sum ≤ 1 :=
  ⟨div_nonneg (hxs x hx) (List.sum_nonneg hxs),
    div_le_one_of_le₀ (List.single_le_sum hxs x hx) (List.sum_nonneg hxs)⟩

/-- A share of a total of non-negative numbers, as a percentage, lies in `[0, 100]`. -/
theorem div_sum_mul_mem_percent {xs : List ℚ} (hxs : ∀ x ∈ xs, 0 ≤ x) {x : ℚ} (hx : x ∈ xs) :
    0 ≤ x / xs.sum * 100 ∧ x / xs.sum * 100 ≤ 100 := by
  obtain ⟨h0, h1⟩ := div_sum_mem_unit hxs hx
  exact ⟨mul_nonneg h0 (by norm_num), (mul_le_iff_le_one_left (by norm_num)).mpr h1⟩

/-- The mean of numbers in `[0, 100]` lies in `[0, 100]`, an empty mean being 0. -/
theorem mean_mem_percent {xs : List ℚ} (hxs : ∀ x ∈ xs, 0 ≤ x ∧ x ≤ 100) :
    0 ≤ xs.sum / xs.length ∧ xs.sum / xs.length ≤ 100 := by
  have hsum : xs.sum ≤ xs.length * 100 := by
    simpa using List.sum_le_card_nsmul xs 100 fun x hx => (hxs x hx).2
  refine ⟨div_nonneg (List.sum_nonneg fun x hx => (hxs x hx).1) (Nat.cast_nonneg _), ?_⟩
  rcases Nat.eq_zero_or_pos xs.length with hlen | hlen
  · simp [hlen]
  · rw [div_le_iff₀ (by exact_mod_cast hlen)]
    linarith

/-- Adding a table's columns row by row or column by column gives one total. -/
theorem sum_map_sum_comm {α β : Type} (xs : List α) (ys : List β) (f : α → β → ℚ) :
    (xs.map fun x => (ys.map (f x)).sum).sum = (ys.map fun y => (xs.map (f · y)).sum).sum := by
  induction xs with
  | nil => simp
  | cons x xs ih => simp [ih, List.sum_map_add]

/-- Adding the items of each key of a duplicate-free list that holds every key
adds all the items. -/
theorem sum_map_sum_filter {α κ : Type} [DecidableEq κ] (key : α → κ) (val : α → ℚ)
    {keys : List κ} (hkeys : keys.Nodup) {xs : List α} (hxs : ∀ x ∈ xs, key x ∈ keys) :
    (keys.map fun k => ((xs.filter (key · = k)).map val).sum).sum = (xs.map val).sum := by
  induction xs with
  | nil => simp
  | cons x xs ih =>
      have hsplit : ∀ k, (((x :: xs).filter (key · = k)).map val).sum =
          (if key x = k then val x else 0) + ((xs.filter (key · = k)).map val).sum := fun k => by
        by_cases h : key x = k <;> simp [List.filter_cons, h]
      have hsingle : (keys.map fun k => if key x = k then val x else 0).sum = val x := by
        rw [List.sum_map_eq_nsmul_single (key x) _ fun k hk _ => if_neg (Ne.symm hk),
          List.count_eq_one_of_mem hkeys (hxs x (List.mem_cons_self _ _))]
        simp
      simp only [hsplit, List.sum_map_add, hsingle,
        ih fun y hy => hxs y (List.mem_cons_of_mem _ hy), List.map_cons, List.sum_cons]

end Shares

end BenchIngest.Py
