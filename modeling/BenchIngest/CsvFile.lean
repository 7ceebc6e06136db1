import BenchIngest.CsvReader
import BenchIngest.PyDict

/-!
# The `csv` reader over a file

`csv.reader(f)` and `csv.DictReader(f)` on a file opened in text mode, as the
block-device loaders read their tables.  The reader takes the file line by
line, each line with its line feed; a row goes on over the next line while a
quoted field is open, and the end of the input saves an open field.  A line of
a text file leaves the reader between two rows or inside a quoted field, so on
any file within the field size limit the reader never fails.  `DictReader`
names the cells of every nonempty row after the header: a cell past the row's
end is `None`, and the cells past the header go together under the key `None`.
-/

namespace BenchIngest.Csv

open Py Dict

/-- `Reader_iternext` called until the input ends, on the lines left: the rows
they hold, `r` holding the row begun on the lines before. -/
def records : Reader → List (List Char) → Except String (List (List String))
  | r, [] => if r.field ≠ [] ∨ r.state = .inQuotedField then .ok [r.saveField.fields] else .ok []
  | r, line :: rest => (r.feed line).bind fun r' =>
      if r'.state = .startRecord then (records Reader.init rest).map (r'.fields :: ·)
      else records r' rest

/-- `list(csv.reader(f))` for a file `f` opened in text mode. -/
def reader (text : String) : Except String (List (List String)) :=
  records Reader.init (readlines text.data)

/-- A value of a `DictReader` row: a cell, the `restval` `None` of a cell past
the row's end, or the list of the cells past the header. -/
inductive Value
  | str (s : String)
  | none
  | rest (cells : List String)
  deriving DecidableEq, Repr

/-- The dict `DictReader.__next__` builds from a row, the `restkey` being `None`. -/
def dictRow (fieldnames row : List String) : Dict (Option String) Value :=
  let d := (fieldnames.zip row).foldl
    (fun (d : Dict (Option String) Value) kv => d.set (some kv.1) (.str kv.2)) []
  if fieldnames.length < row.length then d.set none (.rest (row.drop fieldnames.length))
  else (fieldnames.drop row.length).foldl (fun d k => d.set (some k) .none) d

/-- `list(csv.DictReader(f))`: the first row names the fields, and each later
row but the empty ones becomes a dict. -/
def dictReader (text : String) : Except String (List (Dict (Option String) Value)) :=
  (reader text).map fun
    | [] => []
    | fieldnames :: rows => (rows.filter (· ≠ [])).map (dictRow fieldnames)

/-! ## Reading a text file never fails -/

theorem isCrLf_eq_false {c : Char} (hlf : c ≠ '\n') (hcr : c ≠ '\r') : isCrLf c = false := by
  simp [isCrLf, hlf, hcr]

/-- A line feed ends the row, or goes into the quoted field that is open. -/
theorem Reader.step_lf {r : Reader} (hstate : r.state ≠ .eatCrnl)
    (hlt : r.field.length < fieldLimit) :
    ∃ r', r.step (some '\n') = .ok r' ∧ (r'.state = .eatCrnl ∨ r'.state = .inQuotedField) ∧
      r'.field.length ≤ r.field.length + 1 := by
  obtain ⟨state, fields, field⟩ := r
  cases state with
  | eatCrnl => exact absurd rfl hstate
  | inQuotedField =>
      exact ⟨_, (Reader.step_inQuotedField_other rfl (by decide)).trans
        (Reader.addChar_of_lt hlt '\n'), .inr rfl, by simp⟩
  | startRecord => exact ⟨_, rfl, .inl rfl, by simp⟩
  | startField => exact ⟨_, rfl, .inl rfl, by simp [Reader.endRecord, Reader.saveField]⟩
  | inField => exact ⟨_, rfl, .inl rfl, by simp [Reader.endRecord, Reader.saveField]⟩
  | quoteInQuotedField =>
      exact ⟨_, rfl, .inl rfl, by simp [Reader.endRecord, Reader.saveField]⟩

theorem Reader.step_none_eatCrnl {r : Reader} (h : r.state = .eatCrnl) :
    r.step none = .ok { r with state := .startRecord } := by
  obtain ⟨state, fields, field⟩ := r
  subst h
  rfl

/-- A line of a text file never fails the reader, short of the field size
limit, from between two rows or inside a quoted field, and leaves it in one of
the two. -/
theorem Reader.feed_line_total {r : Reader}
    (hr : r.state = .startRecord ∨ r.state = .inQuotedField) {line : List Char}
    (hline : IsTextLine line) (hlen : r.field.length + line.length ≤ fieldLimit) :
    ∃ r', r.feed line = .ok r' ∧ (r'.state = .startRecord ∨ r'.state = .inQuotedField) ∧
      r'.field.length ≤ r.field.length + line.length := by
  have hstate : r.state ≠ .eatCrnl := by rcases hr with h | h <;> rw [h] <;> decide
  have hcr : ∀ c ∈ line, c ≠ '\r' := fun c hc h => hline.no_cr (h ▸ hc)
  obtain ⟨hinner, hbody | hbody⟩ := hline.eq_body
  · obtain ⟨body, rfl⟩ : ∃ body, line = body ++ ['\n'] := ⟨_, hbody⟩
    rw [List.dropLast_concat] at hinner
    rw [List.length_append, List.length_singleton] at hlen ⊢
    have hc : ∀ c ∈ body, isCrLf c = false := fun c hc =>
      isCrLf_eq_false (fun h => hinner (h ▸ hc)) (hcr c (List.mem_append_left _ hc))
    obtain ⟨r₁, hrun, hstate₁, hgrow₁⟩ := Reader.run_total hstate hc (by omega)
    obtain ⟨r₂, hstep, hstate₂, hgrow₂⟩ := Reader.step_lf hstate₁ (by omega)
    have hfeed : r.feed (body ++ ['\n']) = r₂.step none := by
      rw [Reader.feed_append, hrun]
      exact (congrArg (·.bind (·.feed [])) hstep :)
    rcases hstate₂ with h | h
    · exact ⟨_, hfeed.trans (Reader.step_none_eatCrnl h), .inl rfl, by simp only; omega⟩
    · exact ⟨r₂, hfeed.trans (Reader.step_none_of_open (.inr h)), .inr h, by omega⟩
  · have hc : ∀ c ∈ line, isCrLf c = false := fun c hc =>
      isCrLf_eq_false (fun h => hbody (h ▸ hc)) (hcr c hc)
    obtain ⟨r₁, hrun, hstate₁, hgrow₁⟩ := Reader.run_total hstate hc hlen
    obtain ⟨r₂, hnone, hend, hgrow₂⟩ := Reader.step_none_total hstate₁
    exact ⟨r₂, by rw [Reader.feed_eq_run, hrun]; exact hnone, hend, by omega⟩

/-- The lines of a text file never fail the reader when all of them together
fit the field size limit with the field already open. -/
theorem records_total {r : Reader} (hr : r.state = .startRecord ∨ r.state = .inQuotedField)
    {lines : List (List Char)} (hlines : ∀ line ∈ lines, IsTextLine line)
    (hlen : r.field.length + (lines.map List.length).sum ≤ fieldLimit) :
    ∃ rows, records r lines = .ok rows := by
  induction lines generalizing r with
  | nil =>
      unfold records
      split <;> exact ⟨_, rfl⟩
  | cons line lines ih =>
      rw [List.map_cons, List.sum_cons] at hlen
      obtain ⟨r', hfeed, hr', hgrow⟩ :=
        Reader.feed_line_total hr (hlines line (List.mem_cons_self _ _)) (by omega)
      have hrest := fun l hl => hlines l (List.mem_cons_of_mem line hl)
      simp only [records, hfeed, Except.bind]
      split
      · obtain ⟨rows, hrows⟩ := ih (r := Reader.init) (.inl rfl) hrest (by simp [Reader.init]; omega)
        exact ⟨_, by rw [hrows]; rfl⟩
      · exact ih hr' hrest (by omega)

theorem reader_total (text : String) (hlen : text.length ≤ fieldLimit) :
    ∃ rows, reader text = .ok rows :=
  records_total (.inl rfl) (isTextLines_readlines text.data).1 <| by
    have hsum : ((readlines text.data).map List.length).sum = (translateNewlines text.data).length := by
      rw [← List.length_flatten, flatten_readlines]
    have htext : text.length = text.data.length := rfl
    simp only [Reader.init, List.length_nil, Nat.zero_add, hsum]
    exact (length_translateNewlines_le _).trans (htext ▸ hlen)

/-! ## The cells `DictReader` names -/

/-- The cell of column `i` of a row, as `DictReader` stores it. -/
def cellAt (row : List String) (i : ℕ) : Value :=
  match row[i]? with
  | some s => .str s
  | none => .none

theorem map_fst_zip_eq_take {α β : Type} : ∀ (xs : List α) (ys : List β),
    (xs.zip ys).map Prod.fst = xs.take ys.length
  | [], _ => by simp
  | _ :: _, [] => by simp
  | x :: xs, _ :: ys => by simp [map_fst_zip_eq_take xs ys]

theorem keys_map_zip (fieldnames row : List String) :
    Dict.keys ((fieldnames.zip row).map fun kv => ((some kv.1 : Option String), Value.str kv.2)) =
      (fieldnames.take row.length).map some := by
  simp only [Dict.keys, List.map_map]
  rw [← map_fst_zip_eq_take, List.map_map]
  rfl

/-- With distinct field names, the dict holds the row's cells under their
names in order, then the missing cells as `None`, or the cells past the header. -/
theorem dictRow_of_nodup {fieldnames : List String} (hnodup : fieldnames.Nodup)
    (row : List String) :
    dictRow fieldnames row = (fieldnames.zip row).map (fun kv => (some kv.1, Value.str kv.2)) ++
      if fieldnames.length < row.length then [(none, .rest (row.drop fieldnames.length))]
      else (fieldnames.drop row.length).map fun k => (some k, Value.none) := by
  have hnodup' := hnodup.map (Option.some_injective String)
  have hzip := foldl_set_of_nodup (fun kv : String × String => some kv.1) (fun kv => Value.str kv.2)
    (fieldnames.zip row) [] (by
      have h := (hnodup.sublist (List.take_sublist row.length _)).map (Option.some_injective String)
      rw [← map_fst_zip_eq_take, List.map_map] at h
      exact h)
  simp only [dictRow, List.nil_append] at hzip ⊢
  rw [hzip]
  split
  · rw [set_of_not_mem fun h => by
      rw [keys_map_zip] at h
      obtain ⟨_, -, h⟩ := List.mem_map.mp h
      exact Option.some_ne_none _ h]
  · rw [foldl_set_of_nodup _ _ _ _ (by
      rw [keys_map_zip, ← List.map_append, List.take_append_drop]
      exact hnodup')]

/-- Column `i` of the header names the row's cell `i`, or `None` past the
row's end. -/
theorem mem_dictRow {fieldnames : List String} (hnodup : fieldnames.Nodup) (row : List String)
    {i : ℕ} (hi : i < fieldnames.length) :
    (some fieldnames[i], cellAt row i) ∈ dictRow fieldnames row := by
  rw [dictRow_of_nodup hnodup, List.mem_append]
  by_cases hrow : i < row.length
  · left
    have hz : i < (fieldnames.zip row).length := by simp; omega
    refine List.mem_map.mpr ⟨(fieldnames.zip row)[i], List.getElem_mem hz, ?_⟩
    simp [cellAt, List.getElem?_eq_getElem hrow]
  · right
    rw [if_neg (by omega)]
    refine List.mem_map.mpr ⟨fieldnames[i], ?_, by simp [cellAt, List.getElem?_eq_none (by omega : row.length ≤ i)]⟩
    exact List.mem_iff_getElem.mpr ⟨i - row.length, by simp; omega, by simp; congr 1; omega⟩

theorem keys_dictRow {fieldnames : List String} (hnodup : fieldnames.Nodup) (row : List String) :
    (dictRow fieldnames row).keys =
      fieldnames.map some ++ if fieldnames.length < row.length then [none] else [] := by
  rw [dictRow_of_nodup hnodup, Dict.keys, List.map_append, ← Dict.keys, keys_map_zip]
  split
  · rw [List.take_of_length_le (by omega)]
    rfl
  · rw [List.map_map, List.append_nil]
    show List.map some _ ++ List.map some _ = _
    rw [← List.map_append, List.take_append_drop]

end BenchIngest.Csv
