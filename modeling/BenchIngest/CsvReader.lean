import BenchIngest.PyText

/-!
# The `csv` reader

`next(csv.reader([line], delimiter=",", quotechar='"'))` is how the multi-core
reader tokenizes its header and each reconstructed row.  This is the state
machine of CPython's `_csv.c` (`parse_process_char` and `Reader_iternext`) for
that dialect: a quote at the start of a field opens a quoted part, a doubled
quote inside it stands for one quote, a quote followed by anything else closes
it, and no escape character is set, so the escape states are never entered.
The end of the one input line is the extra input `none`.  The reader reads
back every row a CSV writer writes, and returns a row for every line without a
line break whose fields fit the field size limit.
-/

namespace BenchIngest.Csv

inductive ParserState
  | startRecord
  | startField
  | inField
  | inQuotedField
  | quoteInQuotedField
  | eatCrnl
  deriving DecidableEq, Repr

structure Reader where
  state : ParserState
  fields : List String
  field : List Char
  deriving DecidableEq, Repr

def Reader.init : Reader :=
  ⟨.startRecord, [], []⟩

/-- The default `csv.field_size_limit()`. -/
def fieldLimit : ℕ := 131072

/-- `parse_save_field`. -/
def Reader.saveField (r : Reader) : Reader :=
  { r with fields := r.fields ++ [String.mk r.field], field := [] }

/-- `parse_add_char`. -/
def Reader.addChar (r : Reader) (c : Char) : Except String Reader :=
  if fieldLimit ≤ r.field.length then .error "field larger than field limit (131072)"
  else .ok { r with field := r.field ++ [c] }

def isCrLf (c : Char) : Bool :=
  c = '\n' || c = '\r'

/-- The end of a field at a line break, or at the end of the line. -/
def Reader.endRecord (r : Reader) : Option Char → Reader
  | none => { r.saveField with state := .startRecord }
  | some _ => { r.saveField with state := .eatCrnl }

/-- `START_FIELD`. -/
def Reader.startField (r : Reader) : Option Char → Except String Reader
  | none => .ok (r.endRecord none)
  | some c =>
      if isCrLf c then .ok (r.endRecord (some c))
      else if c = '"' then .ok { r with state := .inQuotedField }
      else if c = ',' then .ok { r.saveField with state := .startField }
      else (r.addChar c).map ({ · with state := .inField })

/-- One call of `parse_process_char`. -/
def Reader.step (r : Reader) (x : Option Char) : Except String Reader :=
  match r.state, x with
  | .startRecord, none => .ok r
  | .startRecord, some c =>
      if isCrLf c then .ok { r with state := .eatCrnl } else r.startField (some c)
  | .startField, x => r.startField x
  | .inField, none => .ok (r.endRecord none)
  | .inField, some c =>
      if isCrLf c then .ok (r.endRecord (some c))
      else if c = ',' then .ok { r.saveField with state := .startField }
      else r.addChar c
  | .inQuotedField, none => .ok r
  | .inQuotedField, some c =>
      if c = '"' then .ok { r with state := .quoteInQuotedField } else r.addChar c
  | .quoteInQuotedField, none => .ok (r.endRecord none)
  | .quoteInQuotedField, some c =>
      if c = '"' then (r.addChar c).map ({ · with state := .inQuotedField })
      else if c = ',' then .ok { r.saveField with state := .startField }
      else if isCrLf c then .ok (r.endRecord (some c))
      else (r.addChar c).map ({ · with state := .inField })
  | .eatCrnl, none => .ok { r with state := .startRecord }
  | .eatCrnl, some c =>
      if isCrLf c then .ok r
      else .error
        "new-line character seen in unquoted field - do you need to open the file with newline=\x27\x27?"

/-- The characters of the line, then its end. -/
def Reader.feed (r : Reader) : List Char → Except String Reader
  | [] => r.step none
  | c :: cs => (r.step (some c)).bind (·.feed cs)

/-- `Reader_iternext` on an input holding the one line: when the line leaves a
quoted field open, the input ends and the field is saved. -/
def readRow (line : String) : Except String (List String) :=
  (Reader.init.feed line.data).bind fun r =>
    if r.state = .startRecord then .ok r.fields
    else if r.field ≠ [] ∨ r.state = .inQuotedField then .ok r.saveField.fields
    else .error "StopIteration"

/-! ## Rows a CSV writer writes

A writer leaves a field bare or puts it between quotes, doubling each quote
inside, and joins the fields of a row with commas.  The reader gives back the
fields of every such row, and on a line without line breaks it never fails
short of the field size limit. -/

/-- A field a writer may leave bare: it holds no delimiter, quote or line break. -/
def plainField (f : List Char) : Bool :=
  f.all fun c => c ≠ ',' && c ≠ '"' && !isCrLf c

/-- The body of a quoted field: each quote doubled. -/
def quoteBody (f : List Char) : List Char :=
  f.flatMap fun c => if c = '"' then ['"', '"'] else [c]

/-- A field as a CSV writer puts it in a row: bare, or between quotes. -/
structure WrittenField where
  text : String
  quoted : Bool
  plain_of_bare : quoted = false → plainField text.data = true

def WrittenField.chars (w : WrittenField) : List Char :=
  if w.quoted then '"' :: quoteBody w.text.data ++ ['"'] else w.text.data

/-- The fields of a row, joined by commas. -/
def rowChars : List WrittenField → List Char
  | [] => []
  | w :: ws => w.chars ++ (ws.map fun w => ',' :: w.chars).flatten

/-- A row as a CSV writer writes it: a row of one empty field is quoted, since a
bare one is an empty line. -/
structure WrittenRow where
  fields : List WrittenField
  not_bare_empty : ∀ w, fields = [w] → w.quoted = false → w.text ≠ ""

/-- The reader's input, character after character, without the end. -/
def Reader.run (r : Reader) : List Char → Except String Reader
  | [] => .ok r
  | c :: cs => (r.step (some c)).bind (·.run cs)

theorem Reader.feed_append (r : Reader) (xs ys : List Char) :
    r.feed (xs ++ ys) = (r.run xs).bind (·.feed ys) := by
  induction xs generalizing r with
  | nil => rfl
  | cons c xs ih =>
      simp only [List.cons_append, Reader.feed, Reader.run]
      cases r.step (some c) with
      | error e => rfl
      | ok r' => exact ih r'

theorem Reader.run_append (r : Reader) (xs ys : List Char) :
    r.run (xs ++ ys) = (r.run xs).bind (·.run ys) := by
  induction xs generalizing r with
  | nil => rfl
  | cons c xs ih =>
      simp only [List.cons_append, Reader.run]
      cases r.step (some c) with
      | error e => rfl
      | ok r' => exact ih r'

theorem Reader.addChar_of_lt {r : Reader} (h : r.field.length < fieldLimit) (c : Char) :
    r.addChar c = .ok { r with field := r.field ++ [c] } := by
  simp [Reader.addChar, Nat.not_le.mpr h]

theorem Reader.run_cons {r r' : Reader} {c : Char} (h : r.step (some c) = .ok r')
    (cs : List Char) : r.run (c :: cs) = r'.run cs := by
  simp only [Reader.run, h]
  rfl

section Steps

/-! One lemma per transition the proofs below take, each read off `step` for
the reader's state. -/

variable {r : Reader} {c : Char}

theorem Reader.step_fieldStart (h : r.state = .startRecord ∨ r.state = .startField)
    (hc : isCrLf c = false) : r.step (some c) = r.startField (some c) := by
  obtain ⟨state, fields, field⟩ := r
  rcases h with h | h <;> subst h
  · exact if_neg (by simp [hc])
  · rfl

theorem Reader.startField_quote : r.startField (some '"') = .ok { r with state := .inQuotedField } :=
  rfl

theorem Reader.startField_comma : r.startField (some ',') = .ok { r.saveField with state := .startField } :=
  rfl

theorem Reader.startField_plain (hc : isCrLf c = false) (hcomma : c ≠ ',') (hquote : c ≠ '"') :
    r.startField (some c) = (r.addChar c).map ({ · with state := .inField }) := by
  simp [Reader.startField, hc, hcomma, hquote]

theorem Reader.step_inField_plain (h : r.state = .inField) (hc : isCrLf c = false)
    (hcomma : c ≠ ',') : r.step (some c) = r.addChar c := by
  obtain ⟨state, fields, field⟩ := r
  subst h
  exact (if_neg (by simp [hc])).trans (if_neg hcomma)

theorem Reader.step_inField_comma (h : r.state = .inField) :
    r.step (some ',') = .ok { r.saveField with state := .startField } := by
  obtain ⟨state, fields, field⟩ := r
  subst h
  rfl

theorem Reader.step_inQuotedField_quote (h : r.state = .inQuotedField) :
    r.step (some '"') = .ok { r with state := .quoteInQuotedField } := by
  obtain ⟨state, fields, field⟩ := r
  subst h
  rfl

theorem Reader.step_inQuotedField_other (h : r.state = .inQuotedField) (hquote : c ≠ '"') :
    r.step (some c) = r.addChar c := by
  obtain ⟨state, fields, field⟩ := r
  subst h
  exact if_neg hquote

theorem Reader.step_quoteInQuotedField_quote (h : r.state = .quoteInQuotedField) :
    r.step (some '"') = (r.addChar '"').map ({ · with state := .inQuotedField }) := by
  obtain ⟨state, fields, field⟩ := r
  subst h
  rfl

theorem Reader.step_quoteInQuotedField_comma (h : r.state = .quoteInQuotedField) :
    r.step (some ',') = .ok { r.saveField with state := .startField } := by
  obtain ⟨state, fields, field⟩ := r
  subst h
  rfl

theorem Reader.step_quoteInQuotedField_plain (h : r.state = .quoteInQuotedField)
    (hc : isCrLf c = false) (hcomma : c ≠ ',') (hquote : c ≠ '"') :
    r.step (some c) = (r.addChar c).map ({ · with state := .inField }) := by
  obtain ⟨state, fields, field⟩ := r
  subst h
  exact (if_neg hquote).trans ((if_neg hcomma).trans (if_neg (by simp [hc])))

theorem Reader.step_none_endRecord
    (h : r.state = .inField ∨ r.state = .quoteInQuotedField ∨ r.state = .startField) :
    r.step none = .ok (r.endRecord none) := by
  obtain ⟨state, fields, field⟩ := r
  rcases h with h | h | h <;> subst h <;> rfl

theorem Reader.step_none_of_open (h : r.state = .startRecord ∨ r.state = .inQuotedField) :
    r.step none = .ok r := by
  obtain ⟨state, fields, field⟩ := r
  rcases h with h | h <;> subst h <;> rfl

end Steps

/-- Inside a bare field, the reader appends every character that is no
delimiter, quote or line break. -/
theorem Reader.run_bare {r : Reader} (hstate : r.state = .inField) {cs : List Char}
    (hplain : plainField cs = true) (hlen : r.field.length + cs.length ≤ fieldLimit) :
    r.run cs = .ok { r with field := r.field ++ cs } := by
  induction cs generalizing r with
  | nil => simp [Reader.run]
  | cons c cs ih =>
      simp only [plainField, List.all_cons, Bool.and_eq_true, bne_iff_ne, ne_eq,
        Bool.not_eq_true', decide_eq_true_eq] at hplain
      obtain ⟨⟨⟨hcomma, -⟩, hcrlf⟩, hrest⟩ := hplain
      have hlt : r.field.length < fieldLimit := by simp at hlen; omega
      have hnext := ih (r := ⟨.inField, r.fields, r.field ++ [c]⟩) rfl hrest
        (by simp at hlen ⊢; omega)
      rw [List.append_assoc, List.singleton_append] at hnext
      rw [Reader.run_cons ((Reader.step_inField_plain hstate hcrlf hcomma).trans
        (Reader.addChar_of_lt hlt c)), hstate, hnext]

@[simp] theorem quoteBody_nil : quoteBody [] = [] := rfl

theorem quoteBody_cons (c : Char) (cs : List Char) :
    quoteBody (c :: cs) = (if c = '"' then ['"', '"'] else [c]) ++ quoteBody cs := by
  simp [quoteBody]

/-- Inside a quoted field, a doubled quote stands for one quote and every other
character is taken as it is. -/
theorem Reader.run_quoteBody {r : Reader} (hstate : r.state = .inQuotedField) {cs : List Char}
    (hlen : r.field.length + cs.length ≤ fieldLimit) :
    r.run (quoteBody cs) = .ok { r with field := r.field ++ cs } := by
  induction cs generalizing r with
  | nil => simp [Reader.run]
  | cons c cs ih =>
      have hlt : r.field.length < fieldLimit := by simp at hlen; omega
      have hnext := ih (r := ⟨.inQuotedField, r.fields, r.field ++ [c]⟩) rfl
        (by simp at hlen ⊢; omega)
      rw [List.append_assoc, List.singleton_append] at hnext
      rw [quoteBody_cons]
      by_cases hc : c = '"'
      · subst hc
        have hdoubled : ({ r with state := .quoteInQuotedField } : Reader).step (some '"') =
            .ok ⟨.inQuotedField, r.fields, r.field ++ ['"']⟩ := by
          rw [Reader.step_quoteInQuotedField_quote rfl,
            Reader.addChar_of_lt (r := { r with state := .quoteInQuotedField }) hlt]
          rfl
        rw [if_pos rfl, List.cons_append, List.cons_append, List.nil_append,
          Reader.run_cons (Reader.step_inQuotedField_quote hstate), Reader.run_cons hdoubled, hstate,
          hnext]
      · rw [if_neg hc, List.singleton_append, Reader.run_cons
          ((Reader.step_inQuotedField_other hstate hc).trans (Reader.addChar_of_lt hlt c)), hstate,
          hnext]

/-- A field begins: at the start of the row or after a delimiter, with nothing
of it read. -/
def Reader.AtFieldStart (r : Reader) : Prop :=
  (r.state = .startRecord ∨ r.state = .startField) ∧ r.field = []

/-- A field has been read, and the reader waits for a delimiter or the end. -/
def Reader.AfterField (r : Reader) : Prop :=
  r.state = .inField ∨ r.state = .quoteInQuotedField ∨ r.AtFieldStart

/-- Reading a written field from where a field begins gives its text. -/
theorem Reader.run_chars {r : Reader} (hr : r.AtFieldStart) (w : WrittenField)
    (hlen : w.text.length ≤ fieldLimit) :
    ∃ r', r.run w.chars = .ok r' ∧ r'.fields = r.fields ∧ r'.field = w.text.data ∧
      r'.AfterField ∧ (r'.state = .startRecord → r.state = .startRecord ∧ w.quoted = false ∧
        w.text = "") := by
  obtain ⟨hstate, hfield⟩ := hr
  cases hq : w.quoted with
  | true =>
      have hopen : r.step (some '"') = .ok { r with state := .inQuotedField } :=
        (Reader.step_fieldStart hstate (by decide)).trans Reader.startField_quote
      have hbody : Reader.run { r with state := .inQuotedField } (quoteBody w.text.data) = _ :=
        Reader.run_quoteBody rfl (by simpa [hfield] using hlen)
      refine ⟨⟨.quoteInQuotedField, r.fields, w.text.data⟩, ?_, rfl, rfl, .inr (.inl rfl),
        fun h => nomatch h⟩
      rw [WrittenField.chars, hq, if_pos rfl, List.cons_append, Reader.run_cons hopen,
        Reader.run_append, hbody, hfield]
      rfl
  | false =>
      have hplain := w.plain_of_bare hq
      cases ht : w.text.data with
      | nil =>
          refine ⟨r, by simp [WrittenField.chars, hq, ht, Reader.run], rfl, hfield,
            .inr (.inr ⟨hstate, hfield⟩), fun h => ⟨h, rfl, String.ext ht⟩⟩
      | cons c cs =>
          have hlen' : (c :: cs).length ≤ fieldLimit := ht ▸ hlen
          rw [ht] at hplain
          simp only [plainField, List.all_cons, Bool.and_eq_true, bne_iff_ne, ne_eq,
            Bool.not_eq_true', decide_eq_true_eq] at hplain
          obtain ⟨⟨⟨hcomma, hquote⟩, hcrlf⟩, hrest⟩ := hplain
          have hfirst : r.step (some c) = .ok ⟨.inField, r.fields, [c]⟩ := by
            rw [Reader.step_fieldStart hstate hcrlf, Reader.startField_plain hcrlf hcomma hquote,
              Reader.addChar_of_lt (by simp [hfield, fieldLimit]), hfield]
            rfl
          have hbare := Reader.run_bare (r := ⟨.inField, r.fields, [c]⟩) rfl hrest
            (by simp at hlen' ⊢; omega)
          refine ⟨⟨.inField, r.fields, c :: cs⟩, ?_, rfl, rfl, .inl rfl, fun h => nomatch h⟩
          rw [WrittenField.chars, hq, if_neg Bool.false_ne_true, ht, Reader.run_cons hfirst, hbare]
          rfl

theorem Reader.step_comma {r : Reader} (hr : r.AfterField) :
    r.step (some ',') = .ok ⟨.startField, r.fields ++ [String.mk r.field], []⟩ := by
  rcases hr with h | h | ⟨h, -⟩
  · rw [Reader.step_inField_comma h]
    rfl
  · rw [Reader.step_quoteInQuotedField_comma h]
    rfl
  · rw [Reader.step_fieldStart h (by decide), Reader.startField_comma]
    rfl

theorem Reader.step_end {r : Reader} (hr : r.AfterField) (hstart : r.state ≠ .startRecord) :
    r.step none = .ok ⟨.startRecord, r.fields ++ [String.mk r.field], []⟩ := by
  have hend : r.state = .inField ∨ r.state = .quoteInQuotedField ∨ r.state = .startField := by
    rcases hr with h | h | ⟨h | h, -⟩
    · exact .inl h
    · exact .inr (.inl h)
    · exact absurd h hstart
    · exact .inr (.inr h)
  rw [Reader.step_none_endRecord hend]
  rfl

/-- The fields after the first, each behind a delimiter. -/
theorem Reader.run_rest {r : Reader} (hr : r.AfterField) (ws : List WrittenField)
    (hlen : ∀ w ∈ ws, w.text.length ≤ fieldLimit) :
    ∃ r', r.run (ws.map fun w => ',' :: w.chars).flatten = .ok r' ∧ r'.AfterField ∧
      r'.fields ++ [String.mk r'.field] = r.fields ++ String.mk r.field :: ws.map (·.text) ∧
      (r'.state = .startRecord → ws = [] ∧ r.state = .startRecord) := by
  induction ws generalizing r with
  | nil => exact ⟨r, rfl, hr, rfl, fun h => ⟨rfl, h⟩⟩
  | cons w ws ih =>
      obtain ⟨r₁, hrun₁, hfields₁, hfield₁, hr₁, hstart₁⟩ :=
        Reader.run_chars (r := ⟨.startField, r.fields ++ [String.mk r.field], []⟩)
          ⟨.inr rfl, rfl⟩ w (hlen w (List.mem_cons_self w ws))
      obtain ⟨r', hrun', hr', hfields', hstart'⟩ :=
        ih hr₁ fun v hv => hlen v (List.mem_cons_of_mem w hv)
      refine ⟨r', ?_, hr', ?_, fun h => absurd (hstart₁ (hstart' h).2).1 (by simp)⟩
      · rw [List.map_cons, List.flatten_cons, List.cons_append, Reader.run_cons (Reader.step_comma hr),
          Reader.run_append, hrun₁]
        exact hrun'
      · rw [hfields', hfields₁, hfield₁]
        simp

theorem Reader.feed_eq_run (r : Reader) (cs : List Char) :
    r.feed cs = (r.run cs).bind (·.step none) := by
  simpa using r.feed_append cs []

/-- The reader gives back the fields of every row a CSV writer writes, each
field within the field size limit. -/
theorem readRow_rowChars (row : WrittenRow)
    (hlen : ∀ w ∈ row.fields, w.text.length ≤ fieldLimit) :
    readRow (String.mk (rowChars row.fields)) = .ok (row.fields.map (·.text)) := by
  obtain ⟨fields, hbare⟩ := row
  cases fields with
  | nil => rfl
  | cons w ws =>
      obtain ⟨r₁, hrun₁, hfields₁, hfield₁, hr₁, hstart₁⟩ :=
        Reader.run_chars (r := Reader.init) ⟨.inl rfl, rfl⟩ w (hlen w (List.mem_cons_self w ws))
      obtain ⟨r', hrun', hr', hfields', hstart'⟩ :=
        Reader.run_rest hr₁ ws fun v hv => hlen v (List.mem_cons_of_mem w hv)
      have hnot : r'.state ≠ .startRecord := fun h => by
        obtain ⟨rfl, hstate₁⟩ := hstart' h
        obtain ⟨-, hq, ht⟩ := hstart₁ hstate₁
        exact hbare w rfl hq ht
      have hfeed : Reader.init.feed (rowChars (w :: ws)) =
          .ok ⟨.startRecord, r'.fields ++ [String.mk r'.field], []⟩ := by
        rw [Reader.feed_eq_run, rowChars, Reader.run_append, hrun₁]
        simp only [Except.bind, hrun', Reader.step_end hr' hnot]
      simp only [readRow, hfeed, Except.bind, if_pos rfl, hfields', hfields₁, hfield₁]
      simp [Reader.init]

/-- A character that is no line break never fails the reader, short of the
field size limit, nor leaves it waiting for a line break; a field grows by at
most the character. -/
theorem Reader.step_total {r : Reader} (hstate : r.state ≠ .eatCrnl)
    (hlt : r.field.length < fieldLimit) {c : Char} (hc : isCrLf c = false) :
    ∃ r', r.step (some c) = .ok r' ∧ r'.state ≠ .eatCrnl ∧ r'.field.length ≤ r.field.length + 1 := by
  have hadd := Reader.addChar_of_lt hlt c
  have hstart : ∃ r', r.startField (some c) = .ok r' ∧ r'.state ≠ .eatCrnl ∧
      r'.field.length ≤ r.field.length + 1 := by
    by_cases hquote : c = '"'
    · subst hquote
      exact ⟨_, Reader.startField_quote, by simp, by simp⟩
    by_cases hcomma : c = ','
    · subst hcomma
      exact ⟨_, Reader.startField_comma, by simp, by simp [Reader.saveField]⟩
    · exact ⟨_, by rw [Reader.startField_plain hc hcomma hquote, hadd]; rfl, by simp, by simp⟩
  cases hs : r.state with
  | startRecord => rwa [Reader.step_fieldStart (.inl hs) hc]
  | startField => rwa [Reader.step_fieldStart (.inr hs) hc]
  | inField =>
      by_cases hcomma : c = ','
      · subst hcomma
        exact ⟨_, Reader.step_comma (.inl hs), by simp, by simp⟩
      · exact ⟨_, (Reader.step_inField_plain hs hc hcomma).trans hadd, by simp [hs], by simp⟩
  | inQuotedField =>
      by_cases hquote : c = '"'
      · subst hquote
        exact ⟨_, Reader.step_inQuotedField_quote hs, by simp, by simp⟩
      · exact ⟨_, (Reader.step_inQuotedField_other hs hquote).trans hadd, by simp [hs], by simp⟩
  | quoteInQuotedField =>
      by_cases hquote : c = '"'
      · subst hquote
        exact ⟨_, by rw [Reader.step_quoteInQuotedField_quote hs, hadd]; rfl, by simp, by simp⟩
      by_cases hcomma : c = ','
      · subst hcomma
        exact ⟨_, Reader.step_comma (.inr (.inl hs)), by simp, by simp⟩
      · refine ⟨⟨.inField, r.fields, r.field ++ [c]⟩, ?_, by simp, by simp⟩
        rw [Reader.step_quoteInQuotedField_plain hs hc hcomma hquote, hadd]
        rfl
  | eatCrnl => exact absurd hs hstate

theorem Reader.run_total {r : Reader} (hstate : r.state ≠ .eatCrnl) {cs : List Char}
    (hc : ∀ c ∈ cs, isCrLf c = false) (hlen : r.field.length + cs.length ≤ fieldLimit) :
    ∃ r', r.run cs = .ok r' ∧ r'.state ≠ .eatCrnl ∧ r'.field.length ≤ r.field.length + cs.length := by
  induction cs generalizing r with
  | nil => exact ⟨r, rfl, hstate, Nat.le_refl _⟩
  | cons c cs ih =>
      simp only [List.length_cons] at hlen ⊢
      obtain ⟨r₁, hstep, hstate₁, hgrow₁⟩ :=
        Reader.step_total hstate (by omega) (hc c (List.mem_cons_self c cs))
      obtain ⟨r', hrun, hstate', hgrow'⟩ :=
        ih hstate₁ (fun d hd => hc d (List.mem_cons_of_mem c hd)) (by omega)
      exact ⟨r', by rw [Reader.run_cons hstep, hrun], hstate', by omega⟩

/-- The end of the input leaves the reader at the start of a row, or inside a
quoted field the line left open. -/
theorem Reader.step_none_total {r : Reader} (hstate : r.state ≠ .eatCrnl) :
    ∃ r', r.step none = .ok r' ∧ (r'.state = .startRecord ∨ r'.state = .inQuotedField) ∧
      r'.field.length ≤ r.field.length := by
  cases hs : r.state with
  | startRecord => exact ⟨r, Reader.step_none_of_open (.inl hs), .inl hs, le_rfl⟩
  | inQuotedField => exact ⟨r, Reader.step_none_of_open (.inr hs), .inr hs, le_rfl⟩
  | eatCrnl => exact absurd hs hstate
  | inField => exact ⟨_, Reader.step_none_endRecord (.inl hs), .inl rfl, Nat.zero_le _⟩
  | quoteInQuotedField =>
      exact ⟨_, Reader.step_none_endRecord (.inr (.inl hs)), .inl rfl, Nat.zero_le _⟩
  | startField => exact ⟨_, Reader.step_none_endRecord (.inr (.inr hs)), .inl rfl, Nat.zero_le _⟩

/-- On a line with no line break, within the field size limit, the reader
returns a row. -/
theorem readRow_ok {line : String} (hbreak : ∀ c ∈ line.data, isCrLf c = false)
    (hlen : line.length ≤ fieldLimit) : ∃ fields, readRow line = .ok fields := by
  obtain ⟨r, hrun, hstate, -⟩ := Reader.run_total (r := Reader.init) (by simp [Reader.init]) hbreak
    (by simpa [Reader.init] using hlen)
  obtain ⟨r', hnone, hend, -⟩ := Reader.step_none_total hstate
  have hfeed : Reader.init.feed line.data = .ok r' := by
    rw [Reader.feed_eq_run, hrun]
    exact hnone
  rcases hend with hend | hend
  · exact ⟨r'.fields, by simp [readRow, hfeed, Except.bind, hend]⟩
  · exact ⟨r'.saveField.fields, by simp [readRow, hfeed, Except.bind, hend]⟩

end BenchIngest.Csv
