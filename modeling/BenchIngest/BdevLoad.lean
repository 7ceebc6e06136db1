import BenchIngest.CsvFile
import BenchIngest.PyNumber
import Mathlib.Data.List.ReduceOption

/-!
# Loading the block-device results

`load_results` reads the results table with `DictReader` and turns each row
into a record of floats: a column is renamed by the fixed map, the histogram
column is dropped, and a cell is coerced to a float, `0.0` standing for a
missing or empty cell and for one `float` rejects.  `load_histograms` takes the
files of the histogram directory whose names match both its glob and its
pattern, whose groups are decimal digits of any script; it reads each group
with `int`, which refuses more than 4300 digits, tags each row of the file with
the `float` of the three numbers, and skips a row whose start, end or count is
no number.  On files within the field size limit, whose names are within
`NAME_MAX`, neither raises; a record holds every column of the header under its
new name, and every row of a histogram file has finite tags.
-/

namespace BenchIngest.Bdev

open Py Dict Csv

/-- `rename_map` of `load_results`. -/
def renameMap : Dict String String :=
  [("QD", "Queue Depth"), ("IO_Size", "IO Size (Bytes)"), ("IOPS", "IOPS"),
    ("p50_Latency", "p50 Latency (us)"), ("p99_Latency", "p99 Latency (us)"),
    ("p99.9_Latency", "p99.9 Latency (us)"), ("Cycles_Per_IO", "Cycles per IO"),
    ("Instr_Per_IO", "Instructions per IO"), ("LLC_Misses_Per_IO", "LLC Misses per IO"),
    ("Dram_Read_Bytes_Per_IO", "DRAM Read Bytes per IO"),
    ("Dram_Write_Bytes_Per_IO", "DRAM Write Bytes per IO"),
    ("Energy_Per_IO", "Energy per IO (J)")]

/-- The column `load_results` leaves out. -/
def histColumn : String := "Completions_Per_Poll_Hist"

/-- `rename_map.get(k, k)`, the key `None` staying `None`. -/
def renameKey (k : Option String) : Option String :=
  k.map fun k => renameMap.getD k k

/-- `float(v) if v not in (None, "") else 0.0`, with `0.0` where `float` raises:
on text it does not read, and on the list of the cells past the header. -/
def coerce : Value → PyFloat
  | .str s => if s = "" then .finite 0 else (float s.data).getD (.finite 0)
  | .none => .finite 0
  | .rest _ => .finite 0

/-- One pass of the loop over `raw.items()`. -/
def loadStep (out : Dict (Option String) PyFloat) (kv : Option String × Value) :
    Dict (Option String) PyFloat :=
  if kv.1 = some histColumn then out else out.set (renameKey kv.1) (coerce kv.2)

/-- The record `load_results` builds from a `DictReader` row. -/
def loadRecord (raw : Dict (Option String) Value) : Dict (Option String) PyFloat :=
  raw.foldl loadStep []

def loadResults (text : String) : Except String (List (Dict (Option String) PyFloat)) :=
  (dictReader text).map (·.map loadRecord)

/-! ## Records of the results table -/

/-- On a file within the field size limit `load_results` never raises. -/
theorem loadResults_ok (text : String) (hlen : text.length ≤ fieldLimit) :
    ∃ records, loadResults text = .ok records := by
  obtain ⟨rows, hrows⟩ := reader_total text hlen
  exact ⟨_, by rw [loadResults, dictReader, hrows]; rfl⟩

/-- The items the loop keeps. -/
def kept (raw : Dict (Option String) Value) : Dict (Option String) Value :=
  raw.filter fun kv => kv.1 ≠ some histColumn

theorem foldl_loadStep (raw : Dict (Option String) Value) (out : Dict (Option String) PyFloat)
    (h : (out.keys ++ (kept raw).map (renameKey ·.1)).Nodup) :
    raw.foldl loadStep out = out ++ (kept raw).map fun kv => (renameKey kv.1, coerce kv.2) := by
  induction raw generalizing out with
  | nil => simp [kept]
  | cons kv raw ih =>
      by_cases hk : kv.1 = some histColumn
      · have hkept : kept (kv :: raw) = kept raw := List.filter_cons_of_neg (by simpa using hk)
        rw [hkept] at h ⊢
        rw [List.foldl_cons, loadStep, if_pos hk]
        exact ih out h
      · have hkept : kept (kv :: raw) = kv :: kept raw := List.filter_cons_of_pos (by simpa using hk)
        rw [hkept, List.map_cons] at h ⊢
        have hnot : renameKey kv.1 ∉ out.keys := fun hmem =>
          (List.nodup_append.mp h).2.2 hmem (List.mem_cons_self _ _)
        rw [List.foldl_cons, loadStep, if_neg hk, set_of_not_mem hnot, ih]
        · simp
        · simpa [keys, List.map_append] using h

/-- `rename_map` names no column after the histogram column. -/
theorem renameKey_eq_hist {k : Option String} (h : renameKey k = some histColumn) :
    k = some histColumn := by
  cases k with
  | none => cases h
  | some k =>
      simp only [renameKey, Option.map_some', Option.some.injEq] at h ⊢
      rcases getD_mem_values_or renameMap k k with hv | hv
      · exact absurd (h ▸ hv) (by decide)
      · exact hv.symm.trans h

/-- The keys the loop keeps from a row, renamed: the header's names but the
histogram column, renamed, then `None` for a row longer than the header. -/
theorem map_kept_dictRow {header : List String} (hheader : header.Nodup) (row : List String) :
    (kept (dictRow header row)).map (renameKey ·.1) =
      (header.filter (· ≠ histColumn)).map (fun k => some (renameMap.getD k k)) ++
        if header.length < row.length then [none] else [] := by
  have hkept : (kept (dictRow header row)).map (renameKey ·.1) =
      ((dictRow header row).keys.filter (· ≠ some histColumn)).map renameKey := by
    rw [kept, keys, List.filter_map, List.map_map]
    rfl
  rw [hkept, keys_dictRow hheader, List.filter_append, List.map_append, List.filter_map, List.map_map]
  congr 1
  · simp [Function.comp_def, renameKey]
  · split <;> rfl

/-- The record `load_results` builds from a row holds no histogram column, and
under the new name of each other column of the header the row's cell there
coerced to a float, when the names are distinct before and after renaming. -/
theorem loadRecord_dictRow {header : List String} (hheader : header.Nodup)
    (hnames : ((header.filter (· ≠ histColumn)).map fun k => renameMap.getD k k).Nodup)
    (row : List String) :
    some histColumn ∉ (loadRecord (dictRow header row)).keys ∧
      ∀ i (hi : i < header.length), header[i] ≠ histColumn →
        (loadRecord (dictRow header row)).get? (renameKey (some header[i])) =
          some (coerce (cellAt row i)) := by
  have hnodup : ((kept (dictRow header row)).map (renameKey ·.1)).Nodup := by
    rw [map_kept_dictRow hheader row]
    refine List.nodup_append.mpr ⟨?_, by split <;> simp, fun a ha hb => ?_⟩
    · have h := hnames.map (Option.some_injective String)
      rw [List.map_map] at h
      exact h
    · obtain ⟨k, -, rfl⟩ := List.mem_map.mp ha
      split at hb <;> simp_all
  have hrec : loadRecord (dictRow header row) =
      (kept (dictRow header row)).map fun kv => (renameKey kv.1, coerce kv.2) := by
    rw [loadRecord, foldl_loadStep _ [] (by simpa using hnodup), List.nil_append]
  have hkeys : (loadRecord (dictRow header row)).keys = (kept (dictRow header row)).map (renameKey ·.1) := by
    rw [hrec, keys, List.map_map]
    rfl
  refine ⟨fun hmem => ?_, fun i hi hcol => ?_⟩
  · rw [hkeys] at hmem
    obtain ⟨kv, hkv, heq⟩ := List.mem_map.mp hmem
    exact absurd (renameKey_eq_hist heq) (by simpa using (List.mem_filter.mp hkv).2)
  · refine get?_eq_some_of_mem (hkeys ▸ hnodup) ?_
    rw [hrec]
    exact List.mem_map.mpr ⟨_, List.mem_filter.mpr ⟨mem_dictRow hheader row hi, by simpa using hcol⟩, rfl⟩

/-- The records of the results table: one per nonempty row after the header,
in order, each holding no histogram column and, under the new name of each
other column of the header, the row's cell there coerced to a float. -/
theorem loadResults_records {text : String} {header : List String} {rows : List (List String)}
    (hread : reader text = .ok (header :: rows)) (hheader : header.Nodup)
    (hnames : ((header.filter (· ≠ histColumn)).map fun k => renameMap.getD k k).Nodup) :
    loadResults text = .ok ((rows.filter (· ≠ [])).map fun row => loadRecord (dictRow header row)) ∧
      ∀ row, some histColumn ∉ (loadRecord (dictRow header row)).keys ∧
        ∀ i (hi : i < header.length), header[i] ≠ histColumn →
          (loadRecord (dictRow header row)).get? (renameKey (some header[i])) =
            some (coerce (cellAt row i)) := by
  refine ⟨?_, loadRecord_dictRow hheader hnames⟩
  rw [loadResults, dictReader, hread]
  simp only [Except.map, List.map_map]
  rfl

/-- A short row, an empty line and a cell `float` rejects. -/
theorem loadResults_short_rows :
    reader "QD,IOPS,Completions_Per_Poll_Hist\n1,abc,0:5\n\n2\n" =
        .ok (["QD", "IOPS", "Completions_Per_Poll_Hist"] :: [["1", "abc", "0:5"], [], ["2"]]) ∧
      ["QD", "IOPS", "Completions_Per_Poll_Hist"].Nodup ∧
      ((["QD", "IOPS", "Completions_Per_Poll_Hist"].filter (· ≠ histColumn)).map
        fun k => renameMap.getD k k).Nodup ∧
      (loadResults "QD,IOPS,Completions_Per_Poll_Hist\n1,abc,0:5\n\n2\n" =
          .ok (([["1", "abc", "0:5"], [], ["2"]].filter (· ≠ [])).map
            fun row => loadRecord (dictRow ["QD", "IOPS", "Completions_Per_Poll_Hist"] row)) ∧
        ∀ row, some histColumn ∉
            (loadRecord (dictRow ["QD", "IOPS", "Completions_Per_Poll_Hist"] row)).keys ∧
          ∀ i (hi : i < ["QD", "IOPS", "Completions_Per_Poll_Hist"].length),
            ["QD", "IOPS", "Completions_Per_Poll_Hist"][i] ≠ histColumn →
              (loadRecord (dictRow ["QD", "IOPS", "Completions_Per_Poll_Hist"] row)).get?
                  (renameKey (some ["QD", "IOPS", "Completions_Per_Poll_Hist"][i])) =
                some (coerce (cellAt row i))) :=
  have hread : reader "QD,IOPS,Completions_Per_Poll_Hist\n1,abc,0:5\n\n2\n" =
      .ok (["QD", "IOPS", "Completions_Per_Poll_Hist"] :: [["1", "abc", "0:5"], [], ["2"]]) := rfl
  have hheader : ["QD", "IOPS", "Completions_Per_Poll_Hist"].Nodup := by decide
  have hnames : ((["QD", "IOPS", "Completions_Per_Poll_Hist"].filter (· ≠ histColumn)).map
      fun k => renameMap.getD k k).Nodup := by decide
  ⟨hread, hheader, hnames, loadResults_records hread hheader hnames⟩

/-! ## The histogram files -/

/-- `fnmatch` of a name against a pattern whose only wildcard is `*`. -/
def globMatch : List Char → List Char → Bool
  | [], name => name.isEmpty
  | '*' :: pat, name => (List.range (name.length + 1)).any fun i => globMatch pat (name.drop i)
  | _ :: _, [] => false
  | p :: pat, c :: name => p == c && globMatch pat name

/-- The glob of `load_histograms`. -/
def histGlob : List Char := "hist_s*_q*_r*.csv".data

/-- The literal `lit` at the start of `s`, and what follows it. -/
def dropLit (lit s : List Char) : Option (List Char) :=
  if lit.isPrefixOf s then some (s.drop lit.length) else none

/-- `\d+`: the decimal digits, of any script, at the start of `s`, at least
one, and what follows them. -/
def digitRun (s : List Char) : Option (List Char × List Char) :=
  if s.takeWhile isDecimal = [] then none else some (s.takeWhile isDecimal, s.dropWhile isDecimal)

/-- `hist_s(\d+)_q(\d+)_r(\d+)\.csv$` matched at the start of `s`: its three
groups; `$` also matches before a final line feed. -/
def histMatchHere (s : List Char) : Option (List Char × List Char × List Char) := do
  let s ← dropLit "hist_s".data s
  let (d₁, s) ← digitRun s
  let s ← dropLit "_q".data s
  let (d₂, s) ← digitRun s
  let s ← dropLit "_r".data s
  let (d₃, s) ← digitRun s
  let s ← dropLit ".csv".data s
  if s = [] ∨ s = ['\n'] then some (d₁, d₂, d₃) else none

/-- `pattern.search(name)`: the groups of the match at the first position that
has one. -/
def histSearch : List Char → Option (List Char × List Char × List Char)
  | [] => histMatchHere []
  | c :: s => (histMatchHere (c :: s)).orElse fun _ => histSearch s

/-- The `ValueError` of `int` on a numeral of `n` digits, past the limit. -/
def intLimitError (n : ℕ) : String :=
  s!"Exceeds the limit (4300 digits) for integer string conversion: value has {n} digits; " ++
    "use sys.set_int_max_str_digits() to increase the limit"

/-- `int(m.group(i))` of a group of decimal digits. -/
def groupInt (d : List Char) : Except String ℤ :=
  match int d with
  | some n => .ok n
  | none => .error (intLimitError d.length)

/-- A row of `load_histograms`. -/
structure HistSample where
  io_size : PyFloat
  qd : PyFloat
  run : PyFloat
  start_us : PyFloat
  end_us : PyFloat
  count : PyFloat
  deriving DecidableEq, Repr

/-- `float(row.get(key, 0) or 0)`, `none` where `float` raises. -/
def getFloat (row : Dict (Option String) Value) (key : String) : Option PyFloat :=
  match row.get? (some key) with
  | some (.str s) => if s = "" then some (.finite 0) else float s.data
  | some (.rest (_ :: _)) => none
  | _ => some (.finite 0)

/-- The row built from the three tags and the row's cells, `none` where `float`
raises `ValueError` on a cell and the loop skips the row. -/
def cellSample (io_size qd run : PyFloat) (row : Dict (Option String) Value) :
    Option HistSample := do
  let start_us ← getFloat row "start_us"
  let end_us ← getFloat row "end_us"
  let count ← getFloat row "count"
  pure ⟨io_size, qd, run, start_us, end_us, count⟩

/-- The row the loop appends: `float` of the three numbers of the name first,
whose `OverflowError` the loop does not catch, then the cells. -/
def histSample (io_size qd run : ℤ) (row : Dict (Option String) Value) :
    Except String (Option HistSample) := do
  let io_size ← intToFloat io_size
  let qd ← intToFloat qd
  let run ← intToFloat run
  pure (cellSample io_size qd run row)

/-- The rows of one file, none when the pattern does not find its name. -/
def fileSamples (name text : String) : Except String (List HistSample) :=
  match histSearch name.data with
  | none => .ok []
  | some (d₁, d₂, d₃) => do
      let io_size ← groupInt d₁
      let qd ← groupInt d₂
      let run ← groupInt d₃
      let rows ← dictReader text
      let samples ← rows.mapM (histSample io_size qd run)
      pure samples.reduceOption

/-- Python's `<=` on strings: lexicographic by code point. -/
def strLe : List Char → List Char → Bool
  | [], _ => true
  | _ :: _, [] => false
  | c :: cs, d :: ds => c.toNat < d.toNat || (c.toNat == d.toNat && strLe cs ds)

/-- `load_histograms` on the files of the directory, by name and text. -/
def loadHistograms (files : List (String × String)) : Except String (List HistSample) :=
  (((files.filter fun f => globMatch histGlob f.1.data).mergeSort
    fun a b => strLe a.1.data b.1.data).mapM
    fun f => fileSamples f.1 f.2).map List.flatten

/-- `NAME_MAX`: a Linux file system holds no name longer than 255 bytes, so
none of more than 255 characters. -/
def nameMax : ℕ := 255

theorem mem_flatten_mapM {α β ε : Type} {f : α → Except ε (List β)} :
    ∀ {xs : List α} {ys : List (List β)}, xs.mapM f = .ok ys →
      ∀ b ∈ ys.flatten, ∃ x ∈ xs, ∃ l, f x = .ok l ∧ b ∈ l
  | [], ys, h, b, hb => by
      cases h
      simp at hb
  | x :: xs, ys, h, b, hb => by
      rw [List.mapM_cons] at h
      obtain ⟨l, hl, h⟩ := except_bind_eq_ok.mp h
      obtain ⟨ls, hls, h⟩ := except_bind_eq_ok.mp h
      cases h
      rcases List.mem_append.mp (List.flatten_cons ▸ hb) with hb | hb
      · exact ⟨x, List.mem_cons_self _ _, l, hl, hb⟩
      · obtain ⟨y, hy, l', hl', hb'⟩ := mem_flatten_mapM hls b hb
        exact ⟨y, List.mem_cons_of_mem _ hy, l', hl', hb'⟩

/-- The tags of a row are the doubles of the name's numbers: finite. -/
theorem histSample_tags {io_size qd run : ℤ} {row : Dict (Option String) Value}
    {s : HistSample} (h : histSample io_size qd run row = .ok (some s)) :
    s.io_size.isFinite ∧ s.qd.isFinite ∧ s.run.isFinite := by
  obtain ⟨a, ha, h⟩ := except_bind_eq_ok.mp h
  obtain ⟨b, hb, h⟩ := except_bind_eq_ok.mp h
  obtain ⟨c, hc, h⟩ := except_bind_eq_ok.mp h
  have hcell : cellSample a b c row = some s := by injection h
  obtain ⟨start_us, -, h₁⟩ := Option.bind_eq_some.mp hcell
  obtain ⟨end_us, -, h₂⟩ := Option.bind_eq_some.mp h₁
  obtain ⟨count, -, h₃⟩ := Option.bind_eq_some.mp h₂
  cases h₃
  exact ⟨intToFloat_isFinite ha, intToFloat_isFinite hb, intToFloat_isFinite hc⟩

/-- Every row `load_histograms` returns has finite tags. -/
theorem loadHistograms_tags {files : List (String × String)} {samples : List HistSample}
    (h : loadHistograms files = .ok samples) :
    ∀ s ∈ samples, s.io_size.isFinite ∧ s.qd.isFinite ∧ s.run.isFinite := by
  obtain ⟨lists, hlists, rfl⟩ := except_map_eq_ok.mp h
  intro s hs
  obtain ⟨f, -, l, hl, hs⟩ := mem_flatten_mapM hlists s hs
  unfold fileSamples at hl
  split at hl
  · cases hl
    cases hs
  · obtain ⟨_, -, hl⟩ := except_bind_eq_ok.mp hl
    obtain ⟨_, -, hl⟩ := except_bind_eq_ok.mp hl
    obtain ⟨_, -, hl⟩ := except_bind_eq_ok.mp hl
    obtain ⟨_, -, hl⟩ := except_bind_eq_ok.mp hl
    obtain ⟨opts, hopts, hl⟩ := except_bind_eq_ok.mp hl
    cases hl
    exact forall_mem_of_mapM_ok
      (P := fun o => ∀ t : HistSample, o = some t → t.io_size.isFinite ∧ t.qd.isFinite ∧ t.run.isFinite)
      (fun row o ho t ht => histSample_tags (ht ▸ ho)) hopts (some s)
      (List.reduceOption_mem_iff.mp hs) s rfl

/-! ## The names of the histogram files -/

/-- The name of the histogram file of a run. -/
def histName (io_size qd run : ℕ) : String :=
  "hist_s" ++ toString io_size ++ "_q" ++ toString qd ++ "_r" ++ toString run ++ ".csv"

theorem globMatch_lit {c : Char} (hc : c ≠ '*') (pat name : List Char) :
    globMatch (c :: pat) (c :: name) = globMatch pat name := by
  rw [globMatch.eq_4 _ _ _ _ hc]
  simp

theorem globMatch_lit_append {lit : List Char} (hlit : '*' ∉ lit) (pat name : List Char) :
    globMatch (lit ++ pat) (lit ++ name) = globMatch pat name := by
  induction lit with
  | nil => rfl
  | cons c lit ih =>
      rw [List.mem_cons, not_or] at hlit
      rw [List.cons_append, List.cons_append, globMatch_lit (Ne.symm hlit.1), ih hlit.2]

theorem globMatch_star {pat name : List Char} (h : globMatch pat name = true) (pre : List Char) :
    globMatch ('*' :: pat) (pre ++ name) = true := by
  simp only [globMatch, List.any_eq_true, List.mem_range, List.length_append]
  exact ⟨pre.length, by omega, by rw [List.drop_left]; exact h⟩

theorem dropLit_append (lit s : List Char) : dropLit lit (lit ++ s) = some s := by
  simp [dropLit]

theorem dropLit_cons_cons (c : Char) (lit s : List Char) :
    dropLit (c :: lit) (c :: s) = dropLit lit s := by
  simp [dropLit, List.isPrefixOf]

theorem dropLit_nil (s : List Char) : dropLit [] s = some s := by
  simp [dropLit]

theorem digitRun_append {d : List Char} (hd : ∀ c ∈ d, isDecimal c = true) (hne : d ≠ [])
    {c : Char} (hc : isDecimal c = false) (cs : List Char) :
    digitRun (d ++ c :: cs) = some (d, c :: cs) := by
  have htake : (d ++ c :: cs).takeWhile isDecimal = d := by
    rw [List.takeWhile_append_of_pos hd, List.takeWhile_cons_of_neg (by simp [hc]), List.append_nil]
  have hdrop : (d ++ c :: cs).dropWhile isDecimal = c :: cs := by
    rw [List.dropWhile_append_of_pos hd, List.dropWhile_cons_of_neg (by simp [hc])]
  simp [digitRun, htake, hdrop, hne]

theorem histSearch_of_matchHere {s : List Char} {m : List Char × List Char × List Char}
    (h : histMatchHere s = some m) : histSearch s = some m := by
  cases s with
  | nil => exact h
  | cons c s => simp [histSearch, h, Option.orElse]

/-- The glob and the pattern of `load_histograms` accept the name of the file
of every run, and the pattern's groups are the numerals of its size, queue
depth and run. -/
theorem histName_matches (io_size qd run : ℕ) :
    globMatch histGlob (histName io_size qd run).data = true ∧
      histSearch (histName io_size qd run).data =
        some ((toString io_size).data, (toString qd).data, (toString run).data) := by
  obtain ⟨hne₁, hd₁, -⟩ := toString_nat_spec io_size
  obtain ⟨hne₂, hd₂, -⟩ := toString_nat_spec qd
  obtain ⟨hne₃, hd₃, -⟩ := toString_nat_spec run
  have hdata : (histName io_size qd run).data = "hist_s".data ++ ((toString io_size).data ++
      '_' :: 'q' :: ((toString qd).data ++ '_' :: 'r' :: ((toString run).data ++ ".csv".data))) := by
    simp only [histName, String.data_append, List.append_assoc]
    rfl
  have hglob : histGlob = "hist_s".data ++ '*' :: '_' :: 'q' :: '*' :: '_' :: 'r' :: '*' :: ".csv".data := rfl
  have hdec : ∀ ds : List Char, (∀ c ∈ ds, isDigit c = true) → ∀ c ∈ ds, isDecimal c = true :=
    fun ds h c hc => isDecimal_of_isDigit (h c hc)
  constructor
  · rw [hglob, hdata, globMatch_lit_append (by decide)]
    refine globMatch_star ?_ _
    rw [globMatch_lit (by decide), globMatch_lit (by decide)]
    refine globMatch_star ?_ _
    rw [globMatch_lit (by decide), globMatch_lit (by decide)]
    exact globMatch_star (by decide) _
  · refine histSearch_of_matchHere ?_
    rw [hdata]
    simp only [histMatchHere, Option.bind_eq_bind, dropLit_append, Option.some_bind,
      show "_q".data = ['_', 'q'] from rfl, show "_r".data = ['_', 'r'] from rfl,
      show ".csv".data = ['.', 'c', 's', 'v'] from rfl, dropLit_cons_cons, dropLit_nil,
      digitRun_append (hdec _ hd₁) hne₁ (c := '_') (by decide),
      digitRun_append (hdec _ hd₂) hne₂ (c := '_') (by decide),
      digitRun_append (hdec _ hd₃) hne₃ (c := '.') (by decide), true_or, if_true]

theorem dropLit_eq_some {lit s r : List Char} (h : dropLit lit s = some r) : s = lit ++ r := by
  unfold dropLit at h
  split at h
  · cases h
    obtain ⟨t, rfl⟩ := List.isPrefixOf_iff_prefix.mp ‹_›
    simp
  · cases h

theorem digitRun_eq_some {s d r : List Char} (h : digitRun s = some (d, r)) :
    s = d ++ r ∧ d ≠ [] ∧ ∀ c ∈ d, isDecimal c = true := by
  unfold digitRun at h
  split at h
  · cases h
  · cases h
    exact ⟨(List.takeWhile_append_dropWhile _ _).symm, ‹_›, fun c hc => List.mem_takeWhile_imp hc⟩

/-- What the pattern's groups are and where they sit in the name. -/
def HistMatch (s d₁ d₂ d₃ : List Char) : Prop :=
  (∃ pre tail,
    s = pre ++ "hist_s".data ++ d₁ ++ "_q".data ++ d₂ ++ "_r".data ++ d₃ ++ ".csv".data ++ tail ∧
      (tail = [] ∨ tail = ['\n'])) ∧
    ∀ d ∈ [d₁, d₂, d₃], d ≠ [] ∧ ∀ c ∈ d, isDecimal c = true

theorem histMatchHere_sound {s d₁ d₂ d₃ : List Char} (h : histMatchHere s = some (d₁, d₂, d₃)) :
    HistMatch s d₁ d₂ d₃ := by
  unfold histMatchHere at h
  obtain ⟨s₁, h₁, k₁⟩ := Option.bind_eq_some.mp h
  obtain ⟨⟨e₁, s₂⟩, h₂, k₂⟩ := Option.bind_eq_some.mp k₁
  obtain ⟨s₃, h₃, k₃⟩ := Option.bind_eq_some.mp k₂
  obtain ⟨⟨e₂, s₄⟩, h₄, k₄⟩ := Option.bind_eq_some.mp k₃
  obtain ⟨s₅, h₅, k₅⟩ := Option.bind_eq_some.mp k₄
  obtain ⟨⟨e₃, s₆⟩, h₆, k₆⟩ := Option.bind_eq_some.mp k₅
  obtain ⟨tail, h₇, hif⟩ := Option.bind_eq_some.mp k₆
  obtain ⟨rfl, hne₁, hd₁⟩ := digitRun_eq_some h₂
  obtain ⟨rfl, hne₂, hd₂⟩ := digitRun_eq_some h₄
  obtain ⟨rfl, hne₃, hd₃⟩ := digitRun_eq_some h₆
  rw [dropLit_eq_some h₁, dropLit_eq_some h₃, dropLit_eq_some h₅, dropLit_eq_some h₇]
  split at hif
  · cases hif
    refine ⟨⟨[], tail, by simp, ‹_›⟩, ?_⟩
    simp only [List.mem_cons, List.mem_singleton, List.not_mem_nil, or_false]
    rintro d (rfl | rfl | rfl)
    exacts [⟨hne₁, hd₁⟩, ⟨hne₂, hd₂⟩, ⟨hne₃, hd₃⟩]
  · cases hif

/-- The pattern finds only a name that ends in `hist_s`, decimal digits, `_q`,
digits, `_r`, digits and `.csv`, or that and a line feed, and its groups are
those digits. -/
theorem histSearch_sound {s d₁ d₂ d₃ : List Char} (h : histSearch s = some (d₁, d₂, d₃)) :
    HistMatch s d₁ d₂ d₃ := by
  induction s with
  | nil => exact histMatchHere_sound h
  | cons c s ih =>
      simp only [histSearch, Option.orElse] at h
      split at h
      next a heq =>
        cases h
        exact histMatchHere_sound heq
      next =>
        obtain ⟨⟨pre, tail, hs, htail⟩, hdigits⟩ := ih h
        exact ⟨⟨c :: pre, tail, by simp [hs], htail⟩, hdigits⟩

/-- `int` reads a group of at most 4300 digits and raises on a longer one. -/
theorem groupInt_decimals {d : List Char} (hne : d ≠ []) (hall : ∀ c ∈ d, isDecimal c = true) :
    groupInt d = if d.length ≤ maxStrDigits then .ok (digitsValue d) else .error (intLimitError d.length) := by
  rw [groupInt, int_decimals hne hall]
  by_cases h : d.length ≤ maxStrDigits
  · rw [if_pos h, if_pos h]
  · rw [if_neg h, if_neg h]

theorem groups_length_le {s d₁ d₂ d₃ : List Char} (h : HistMatch s d₁ d₂ d₃) :
    ∀ d ∈ [d₁, d₂, d₃], d.length ≤ s.length := by
  obtain ⟨⟨pre, tail, rfl, -⟩, -⟩ := h
  simp only [List.mem_cons, List.mem_singleton, List.not_mem_nil, or_false, List.length_append]
  rintro d (rfl | rfl | rfl) <;> omega

theorem ten_pow_nameMax_lt : 10 ^ nameMax < 2 ^ 1023 :=
  calc 10 ^ nameMax < (2 ^ 4) ^ 255 := Nat.pow_lt_pow_left (by norm_num) (by decide)
    _ = 2 ^ (4 * 255) := (Nat.pow_mul 2 4 255).symm
    _ < 2 ^ 1023 := by apply Nat.pow_lt_pow_right <;> norm_num

/-- A group of a name within `NAME_MAX` is read by `int`, and its number by
`float`. -/
theorem groupInt_of_nameMax {d : List Char} (hne : d ≠ []) (hall : ∀ c ∈ d, isDecimal c = true)
    (hlen : d.length ≤ nameMax) :
    groupInt d = .ok (digitsValue d) ∧ ∃ r, intToFloat (digitsValue d) = .ok (.finite r) := by
  refine ⟨by rw [groupInt_decimals hne hall, if_pos (hlen.trans (by decide))], ?_⟩
  refine intToFloat_natCast ((digitsValue_lt d).trans_le ?_ |>.trans ten_pow_nameMax_lt)
  exact Nat.pow_le_pow_right (by norm_num) hlen

/-- A file whose name is within `NAME_MAX` and whose text is within the field
size limit is read without raising. -/
theorem fileSamples_ok {name text : String} (hname : name.length ≤ nameMax)
    (htext : text.length ≤ fieldLimit) : ∃ l, fileSamples name text = .ok l := by
  unfold fileSamples
  split
  · exact ⟨[], rfl⟩
  · rename_i d₁ d₂ d₃ hsearch
    have hmatch := histSearch_sound hsearch
    have hgroup : ∀ d ∈ [d₁, d₂, d₃],
        groupInt d = .ok (digitsValue d) ∧ ∃ r, intToFloat (digitsValue d) = .ok (.finite r) :=
      fun d hd => groupInt_of_nameMax (hmatch.2 d hd).1 (hmatch.2 d hd).2
        ((groups_length_le hmatch d hd).trans hname)
    obtain ⟨h₁, r₁, f₁⟩ := hgroup d₁ (by simp)
    obtain ⟨h₂, r₂, f₂⟩ := hgroup d₂ (by simp)
    obtain ⟨h₃, r₃, f₃⟩ := hgroup d₃ (by simp)
    obtain ⟨rows, hrows⟩ := reader_total text htext
    have hsample : ∀ row ∈ (dictReader text).toOption.getD [], ∃ o,
        histSample (digitsValue d₁) (digitsValue d₂) (digitsValue d₃) row = .ok o :=
      fun row _ => ⟨_, by simp only [histSample, f₁, f₂, f₃]; rfl⟩
    obtain ⟨opts, hopts⟩ := exists_mapM_eq_ok hsample
    refine ⟨opts.reduceOption, ?_⟩
    simp only [h₁, h₂, h₃, dictReader, hrows] at hopts ⊢
    simp only [Except.map, Except.toOption, Option.getD_some] at hopts
    simp only [Except.map, bind, Except.bind, hopts]
    rfl

/-- On files within the field size limit, whose names are within `NAME_MAX`,
`load_histograms` never raises. -/
theorem loadHistograms_ok (files : List (String × String))
    (hlen : ∀ f ∈ files, f.2.length ≤ fieldLimit) (hnames : ∀ f ∈ files, f.1.length ≤ nameMax) :
    ∃ samples, loadHistograms files = .ok samples := by
  have hfiles : ∀ f ∈ (files.filter fun f => globMatch histGlob f.1.data).mergeSort
      (fun a b => strLe a.1.data b.1.data), ∃ l, fileSamples f.1 f.2 = .ok l := by
    intro f hf
    rw [List.mem_mergeSort, List.mem_filter] at hf
    exact fileSamples_ok (hnames f hf.1) (hlen f hf.1)
  obtain ⟨lists, hlists⟩ := exists_mapM_eq_ok hfiles
  exact ⟨_, by rw [loadHistograms, hlists]; rfl⟩

/-- The loading `plot_one` does never raises on a results file and histogram
files within the field size limit, the names being within `NAME_MAX`: read in
text mode, a file holds no line break the reader could meet outside a quoted
field, and a group of a name has too few digits for `int` to refuse it or for
its `float` to overflow. -/
theorem plot_one_loads_ok (text : String) (files : List (String × String))
    (htext : text.length ≤ fieldLimit) (hfiles : ∀ f ∈ files, f.2.length ≤ fieldLimit)
    (hnames : ∀ f ∈ files, f.1.length ≤ nameMax) :
    (∃ records, loadResults text = .ok records) ∧ ∃ samples, loadHistograms files = .ok samples :=
  ⟨loadResults_ok text htext, loadHistograms_ok files hfiles hnames⟩

theorem plot_one_loads_ok_crlf :
    "QD\r\n1\r\n".length ≤ fieldLimit ∧
      (∀ f ∈ [("hist_s1_q1_r1.csv", "count\r\n\"3\r\n\"\r\n")], f.2.length ≤ fieldLimit) ∧
      (∀ f ∈ [("hist_s1_q1_r1.csv", "count\r\n\"3\r\n\"\r\n")], f.1.length ≤ nameMax) ∧
      (∃ records, loadResults "QD\r\n1\r\n" = .ok records) ∧
        ∃ samples, loadHistograms [("hist_s1_q1_r1.csv", "count\r\n\"3\r\n\"\r\n")] = .ok samples :=
  ⟨by decide, by decide, by decide, plot_one_loads_ok _ _ (by decide) (by decide) (by decide)⟩

/-- The pattern reads digits of other scripts: Arabic-Indic one is one. -/
example : histSearch "hist_s١_q1_r1.csv".data = some (['١'], ['1'], ['1']) := by decide

end BenchIngest.Bdev
