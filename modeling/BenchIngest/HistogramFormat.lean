import BenchIngest.PyNumber
import BenchIngest.PyDict

/-!
# The completions-per-poll histogram format

A histogram cell reads `"0:123, 1:456, 32+:789"`: comma-separated items of a
bucket key, a colon and a count, where a key is a decimal numeral, in any
script `\d` matches, and a `+` after it marks the overflow bucket.
`parse_hist` splits at commas, strips each part, keeps the parts the item
pattern matches and whose count `float` reads, and stores them in a dictionary
in order, a later item replacing an earlier one with the same key.

The loop is `parseHistWith`, with the reading of a count as a parameter:
`parseHist` reads it with `float`, as the code does, and `parseHistExact` with
its exact value, the reading under which the sums over a histogram are stated.
The pattern admits no infinite or `nan` count, so the code's dictionary is the
exact one with each count rounded to the nearest double.  Printing items with
distinct keys and parsing the text back gives the keys again, each with the
double nearest its count: the count itself up to `2 ^ 53`.
-/

namespace BenchIngest.Phase1

open Py

/-- The characters of the value group, `[0-9eE+.-]`. -/
def isValueChar (c : Char) : Bool :=
  isDigit c || c = 'e' || c = 'E' || c = '+' || c = '.' || c = '-'

/-- `re.match(r"^(\d+\+?):\s*([0-9eE+.-]+)$", p)`, as its two groups.  Each part
of the pattern stops at a character the next part cannot start with, so the
greedy reading is the only one: the digits, a `+` when one follows, the colon,
the whitespace, and the value up to the end of the text, or up to a final line
break, where `$` also matches. -/
def histToken (p : List Char) : Option (List Char × List Char) :=
  let digits := p.takeWhile isDecimal
  let (key, r) : List Char × List Char :=
    match p.dropWhile isDecimal with
    | '+' :: r => (digits ++ ['+'], r)
    | r => (digits, r)
  match r with
  | ':' :: r =>
      let r := r.dropWhile isspace
      let value := r.takeWhile isValueChar
      let rest := r.dropWhile isValueChar
      if digits ≠ [] ∧ value ≠ [] ∧ (rest = [] ∨ rest = ['\n']) then some (key, value) else none
  | _ => none

/-- One pass of the loop of `parse_hist`, with `read` for `float`: the item's
key and what `read` makes of its count, where it reads one. -/
def parseHistStep {α : Type} (read : List Char → Option α) (out : Dict String α) (p : List Char) :
    Dict String α :=
  match histToken p with
  | none => out
  | some (key, val) =>
      match read val with
      | some v => out.set (String.mk key) v
      | none => out

/-- `parse_hist(hist_str)`, reading each count with `read`. -/
def parseHistWith {α : Type} (read : List Char → Option α) (hist_str : String) : Dict String α :=
  if strip hist_str.data = [] then []
  else (((split hist_str.data ',').map strip).filter (· ≠ [])).foldl (parseHistStep read) []

/-- `parse_hist(hist_str)`: each count as `float` reads it, the double nearest
its value. -/
def parseHist (hist_str : String) : Dict String PyFloat :=
  parseHistWith float hist_str

/-- The exact value of a count, which `float` then rounds. -/
def exactCount (val : List Char) : Option ℚ :=
  match floatLiteral val with
  | some (.finite q) => some q
  | _ => none

/-- `parse_hist` in exact arithmetic: each count is the value of its literal. -/
def parseHistExact (hist_str : String) : Dict String ℚ :=
  parseHistWith exactCount hist_str

theorem toLower_ne_n_of_isValueChar {c : Char} (hc : isValueChar c = true) : c.toLower ≠ 'n' := by
  simp only [isValueChar, Bool.or_eq_true, decide_eq_true_eq] at hc
  rcases hc with ((((hd | rfl) | rfl) | rfl) | rfl) | rfl
  · simp only [isDigit, Bool.and_eq_true, decide_eq_true_eq] at hd
    have hlow : c.toLower = c := by
      unfold Char.toLower
      rw [if_neg (by simp at hd ⊢; omega)]
    rw [hlow]
    rintro rfl
    simp at hd
  all_goals decide

theorem takeSign_snd_subset (s : List Char) : ∀ c ∈ (takeSign s).2, c ∈ s := by
  intro c hc
  unfold takeSign at hc
  split at hc <;> simp_all

theorem infOrNan_eq_none {s : List Char} (h : ∀ c ∈ s, c.toLower ≠ 'n') : infOrNan s = none := by
  rcases hs : takeSign s with ⟨negative, r⟩
  have hn : 'n' ∉ r.map Char.toLower := by
    simp only [List.mem_map, not_exists, not_and]
    exact fun c hc => h c (takeSign_snd_subset s c (by simpa [hs] using hc))
  have hne : ∀ t : List Char, 'n' ∈ t → r.map Char.toLower ≠ t := fun t ht heq => hn (heq ▸ ht)
  simp only [infOrNan, hs]
  rw [if_neg (not_or.mpr ⟨hne _ (by decide), hne _ (by decide)⟩), if_neg (hne _ (by decide))]

/-- A count the pattern admits has a finite value or none: `float` reads it as
the double nearest its exact value. -/
theorem float_of_valueChars {val : List Char} (hval : ∀ c ∈ val, isValueChar c = true) :
    float val = (exactCount val).map PyFloat.ofRat := by
  have hascii : ∀ c ∈ val, c.toNat < 128 := fun c hc => by
    have := hval c hc
    simp only [isValueChar, isDigit, Bool.or_eq_true, Bool.and_eq_true, decide_eq_true_eq] at this
    rcases this with ((((hd | rfl) | rfl) | rfl) | rfl) | rfl
    · simp at hd
      omega
    all_goals decide
  have hspace : ∀ c ∈ val, numberSpace c = false := fun c hc => by
    have := hval c hc
    simp only [isValueChar, isDigit, Bool.or_eq_true, Bool.and_eq_true, decide_eq_true_eq] at this
    rcases this with ((((hd | rfl) | rfl) | rfl) | rfl) | rfl
    · simp only [numberSpace, Bool.or_eq_false_iff, Bool.and_eq_false_iff, decide_eq_false_iff_not]
      simp at hd
      omega
    all_goals decide
  have hunder : '_' ∉ val := fun h => by simpa [isValueChar, isDigit] using hval '_' h
  have hclean : dropUnderscores (numberStrip (transformDecimalAndSpace val)) = some val := by
    rw [transformDecimalAndSpace_of_ascii hascii, numberStrip_of_no_space hspace]
    exact dropUnderscoresFrom_of_no_underscore (by decide) hunder
  have hnan := infOrNan_eq_none fun c hc => toLower_ne_n_of_isValueChar (hval c hc)
  simp only [float, exactCount, floatLiteral, hclean, Option.some_bind]
  split <;> simp [hnan, PyFloat.toDouble]

/-- A histogram key as the exporter prints it: decimal digits, then `+` for
the overflow bucket. -/
structure HistKey where
  digits : List Char
  digits_ne : digits ≠ []
  all_digits : ∀ c ∈ digits, isDecimal c = true
  overflow : Bool

def HistKey.text (key : HistKey) : List Char :=
  key.digits ++ if key.overflow then ['+'] else []

/-- One printed item, `f"{key}:{count}"`. -/
def histItem (item : HistKey × ℕ) : List Char :=
  item.1.text ++ ':' :: (toString item.2).data

/-- `sep.join(...)` of the printed items. -/
def renderHist (sep : String) (items : List (HistKey × ℕ)) : String :=
  String.mk (sep.data.intercalate (items.map histItem))

/-- What the item pattern matches: a key of decimal digits with `+` where one
followed, and a value of the characters of its class. -/
theorem histToken_eq_some {p key val : List Char} (h : histToken p = some (key, val)) :
    (∃ hk : HistKey, hk.text = key) ∧ ∀ c ∈ val, isValueChar c = true := by
  have hall : ∀ c ∈ p.takeWhile isDecimal, isDecimal c = true := fun c hc => List.mem_takeWhile_imp hc
  unfold histToken at h
  split at h <;> dsimp only at h <;> split at h <;> (try split at h) <;> (try simp at h)
  · obtain ⟨⟨hne, -⟩, rfl, rfl⟩ := And.intro ‹_ ≠ [] ∧ _› h
    exact ⟨⟨⟨_, hne, hall, true⟩, rfl⟩, fun c hc => List.mem_takeWhile_imp hc⟩
  · obtain ⟨⟨hne, -⟩, rfl, rfl⟩ := And.intro ‹_ ≠ [] ∧ _› h
    exact ⟨⟨⟨_, hne, hall, false⟩, by simp [HistKey.text]⟩, fun c hc => List.mem_takeWhile_imp hc⟩

section RoundTrip

theorem isValueChar_of_isDigit {c : Char} (hc : isDigit c = true) : isValueChar c = true := by
  simp [isValueChar, hc]

theorem mem_histItem {item : HistKey × ℕ} {c : Char} (hc : c ∈ histItem item) :
    isDecimal c = true ∨ c = '+' ∨ c = ':' := by
  obtain ⟨-, hall, -⟩ := toString_nat_spec item.2
  simp only [histItem, HistKey.text, List.mem_append, List.mem_cons] at hc
  rcases hc with (hc | hc) | hc | hc
  · exact Or.inl (item.1.all_digits c hc)
  · split at hc <;> simp_all
  · exact Or.inr (Or.inr hc)
  · exact Or.inl (isDecimal_of_isDigit (hall c hc))

theorem histItem_spec (item : HistKey × ℕ) :
    (∀ c ∈ (histItem item).head?, isDecimal c = true) ∧
      (∀ c ∈ (histItem item).getLast?, isDigit c = true) ∧ ',' ∉ histItem item := by
  obtain ⟨hne, hall, -⟩ := toString_nat_spec item.2
  obtain ⟨d, ds, hd⟩ := List.exists_cons_of_ne_nil item.1.digits_ne
  refine ⟨fun c hc => ?_, fun c hc => ?_, fun hc => ?_⟩
  · simp only [histItem, HistKey.text, hd, List.cons_append, List.head?_cons,
      Option.mem_def, Option.some.injEq] at hc
    subst hc
    exact item.1.all_digits _ (by simp [hd])
  · rw [histItem, ← List.singleton_append, List.getLast?_append_of_ne_nil _ (by simp),
      List.getLast?_append_of_ne_nil _ hne] at hc
    exact hall c (List.mem_of_getLast?_eq_some hc)
  · rcases mem_histItem hc with h | h | h
    · exact absurd h (by decide)
    all_goals cases h

theorem histToken_histItem (item : HistKey × ℕ) :
    histToken (histItem item) = some (item.1.text, (toString item.2).data) := by
  obtain ⟨hne, hall, -⟩ := toString_nat_spec item.2
  obtain ⟨n, ns, hn⟩ := List.exists_cons_of_ne_nil hne
  have hdigits := item.1.all_digits
  have hplus : isDecimal '+' = false := by decide
  have hcolon : isDecimal ':' = false := by decide
  have htake : (histItem item).takeWhile isDecimal = item.1.digits := by
    simp only [histItem, HistKey.text, List.append_assoc]
    rw [List.takeWhile_append_of_pos hdigits]
    split <;> simp [hplus, hcolon]
  have hdrop : (histItem item).dropWhile isDecimal =
      (if item.1.overflow then ['+'] else []) ++ ':' :: (toString item.2).data := by
    simp only [histItem, HistKey.text, List.append_assoc]
    rw [List.dropWhile_append_of_pos hdigits]
    split <;> simp [hplus, hcolon]
  have hvalue : (toString item.2).data.takeWhile isValueChar = (toString item.2).data :=
    List.takeWhile_eq_self_iff.mpr fun c hc => isValueChar_of_isDigit (hall c hc)
  have hrest : (toString item.2).data.dropWhile isValueChar = [] :=
    List.dropWhile_eq_nil_iff.mpr fun c hc => isValueChar_of_isDigit (hall c hc)
  have hspace : (toString item.2).data.dropWhile isspace = (toString item.2).data := by
    rw [hn, List.dropWhile_cons, if_neg (by simp [not_isspace_of_isDigit (hall n (by simp [hn]))])]
  unfold histToken
  rw [htake, hdrop]
  cases hov : item.1.overflow <;>
    simp [HistKey.text, hov, hspace, hvalue, hrest, item.1.digits_ne, hne]

/-- `float` reads a printed count as the double nearest it. -/
theorem float_toString (n : ℕ) : float (toString n).data = some (.ofRat n) := by
  obtain ⟨hne, hall, hval⟩ := toString_nat_spec n
  rw [float_numeral hne hall, hval]

/-- The exact value of a printed count is the count. -/
theorem exactCount_toString (n : ℕ) : exactCount (toString n).data = some (n : ℚ) := by
  obtain ⟨hne, hall, hval⟩ := toString_nat_spec n
  rw [exactCount, floatLiteral_numeral hne hall, hval]

section Readers

variable {α : Type} {read : List Char → Option α} {f : ℕ → α}
  (hread : ∀ n : ℕ, read (toString n).data = some (f n))
include hread

theorem parseHistStep_histItem (out : Dict String α) (item : HistKey × ℕ) :
    parseHistStep read out (histItem item) = out.set (String.mk item.1.text) (f item.2) := by
  simp [parseHistStep, histToken_histItem, hread]

end Readers

theorem strip_histItem (item : HistKey × ℕ) : strip (histItem item) = histItem item := by
  obtain ⟨hhead, hlast, -⟩ := histItem_spec item
  exact strip_of_ends (fun c hc => not_isspace_of_isDecimal (hhead c hc))
    (fun c hc => not_isspace_of_isDigit (hlast c hc))

theorem intercalate_cons_append {α : Type} (sep p t : List α) (ts : List (List α)) :
    sep.intercalate ((p ++ t) :: ts) = p ++ sep.intercalate (t :: ts) := by
  cases ts <;> simp [List.intercalate, List.intersperse_cons_cons]

/-- Joining with a comma and padding is joining with a comma the padded parts. -/
theorem intercalate_comma_pad {α : Type} (c : α) (pad t : List α) (ts : List (List α)) :
    (c :: pad).intercalate (t :: ts) = [c].intercalate (t :: ts.map (pad ++ ·)) := by
  induction ts generalizing t with
  | nil => simp [List.intercalate]
  | cons u us ih =>
      have hstep : ∀ (sep : List α) (v : List α) (vs : List (List α)),
          sep.intercalate (t :: v :: vs) = t ++ sep ++ sep.intercalate (v :: vs) := by
        intro sep v vs
        simp [List.intercalate, List.intersperse_cons_cons]
      rw [hstep, ih, List.map_cons, hstep, intercalate_cons_append]
      simp

theorem parts_renderHist {item : HistKey × ℕ} {items : List (HistKey × ℕ)} {sep : String}
    (hsep : sep = ", " ∨ sep = ",") :
    ((split (renderHist sep (item :: items)).data ',').map strip).filter (· ≠ []) =
      (item :: items).map histItem := by
  obtain ⟨pad, hpad, hspace⟩ : ∃ pad : List Char, sep.data = ',' :: pad ∧
      ∀ c ∈ pad, isspace c = true := by
    rcases hsep with rfl | rfl
    · exact ⟨[' '], rfl, by decide⟩
    · exact ⟨[], rfl, by simp⟩
  have hpieces : ∀ l ∈ histItem item :: items.map (pad ++ histItem ·), ',' ∉ l := by
    intro l hl
    simp only [List.mem_cons, List.mem_map] at hl
    rcases hl with rfl | ⟨it, -, rfl⟩
    · exact (histItem_spec item).2.2
    · simp only [List.mem_append, not_or]
      exact ⟨fun h => absurd (hspace ',' h) (by decide), (histItem_spec it).2.2⟩
  have hsplit : split (renderHist sep (item :: items)).data ',' =
      histItem item :: items.map (pad ++ histItem ·) := by
    show List.splitOn ',' (sep.data.intercalate ((item :: items).map histItem)) = _
    rw [hpad, List.map_cons, intercalate_comma_pad, List.map_map]
    exact List.splitOn_intercalate _ ',' hpieces (List.cons_ne_nil _ _)
  rw [hsplit, List.map_cons, List.map_map, strip_histItem, List.filter_eq_self.mpr]
  · simp only [List.map_cons, List.cons.injEq, true_and]
    exact List.map_congr_left fun it _ => by
      simp [strip_whitespace_append hspace, strip_histItem]
  · intro l hl
    simp only [List.mem_cons, List.mem_map, Function.comp] at hl
    rcases hl with rfl | ⟨it, -, rfl⟩
    · simp [histItem]
    · rw [strip_whitespace_append hspace, strip_histItem]
      simp [histItem]

/-- Parsing reads back what the canonical printer writes, whatever reader of
counts the loop is given: items with distinct keys, joined by `", "` or `","`,
come back as the dictionary of those keys, in order, each with what the reader
makes of its count. -/
theorem parseHistWith_renderHist {α : Type} (read : List Char → Option α) {f : ℕ → α}
    (hread : ∀ n : ℕ, read (toString n).data = some (f n))
    (items : List (HistKey × ℕ)) (hkeys : (items.map (·.1.text)).Nodup)
    (sep : String) (hsep : sep = ", " ∨ sep = ",") :
    parseHistWith read (renderHist sep items) =
      items.map fun item => (String.mk item.1.text, f item.2) := by
  cases items with
  | nil => rcases hsep with rfl | rfl <;> rfl
  | cons item items =>
      have hne : strip (renderHist sep (item :: items)).data ≠ [] := by
        intro hnil
        obtain ⟨lead, trail, hlead, htrail, hs⟩ := eq_strip_between (renderHist sep (item :: items)).data
        rw [hnil, List.append_nil] at hs
        obtain ⟨d, hd⟩ : ∃ d, (histItem item).head? = some d := by
          cases h : histItem item with
          | nil => simp [histItem] at h
          | cons d _ => exact ⟨d, rfl⟩
        have hhead : (renderHist sep (item :: items)).data.head? = some d := by
          cases items <;> simp [renderHist, List.intercalate, List.intersperse_cons_cons, hd,
            List.head?_append]
        have hdigit := not_isspace_of_isDecimal ((histItem_spec item).1 d hd)
        rw [hs] at hhead
        have hmem : d ∈ lead ++ trail := List.mem_of_mem_head? hhead
        rcases List.mem_append.mp hmem with h | h
        · exact absurd (hlead d h) (by simp [hdigit])
        · exact absurd (htrail d h) (by simp [hdigit])
      have hinj : Function.Injective String.mk := fun a b h => by injection h
      have hnodup : (Dict.keys ([] : Dict String α) ++
          (item :: items).map fun item => String.mk item.1.text).Nodup := by
        simpa [List.map_map, Function.comp_def] using hkeys.map hinj
      have hfold := Dict.foldl_set_of_nodup (fun item : HistKey × ℕ => String.mk item.1.text)
        (fun item => f item.2) (item :: items) [] hnodup
      rw [parseHistWith, if_neg hne, parts_renderHist hsep, List.foldl_map]
      simp only [parseHistStep_histItem hread]
      simpa using hfold

/-- `parse_hist` reads back what the canonical printer writes: items with
distinct keys, joined by `", "` or `","`, come back as the dictionary of those
keys, in order, `n` and `n+` staying apart, each with the double nearest its
count, which is the count itself whenever it is at most `2 ^ 53`. -/
theorem parseHist_renderHist (items : List (HistKey × ℕ)) (hkeys : (items.map (·.1.text)).Nodup)
    (sep : String) (hsep : sep = ", " ∨ sep = ",") :
    parseHist (renderHist sep items) =
        items.map (fun item => (String.mk item.1.text, PyFloat.ofRat item.2)) ∧
      ((∀ item ∈ items, item.2 ≤ 2 ^ 53) →
        parseHist (renderHist sep items) =
          items.map fun item => (String.mk item.1.text, .finite (item.2 : ℚ))) := by
  have hparse := parseHistWith_renderHist float float_toString items hkeys sep hsep
  refine ⟨hparse, fun hsmall => ?_⟩
  rw [parseHist, hparse]
  exact List.map_congr_left fun item hitem => by rw [ofRat_natCast (hsmall item hitem)]

theorem parseHist_docstring_example :
    parseHist "0:123, 1:456, 32+:789" = [("0", .finite 123), ("1", .finite 456), ("32+", .finite 789)] := by
  have h := parseHist_renderHist [(⟨['0'], by simp, by decide, false⟩, 123),
    (⟨['1'], by simp, by decide, false⟩, 456), (⟨['3', '2'], by simp, by decide, true⟩, 789)]
    (by decide) ", " (Or.inl rfl)
  exact h.2 (by decide)

/-- A count past `2 ^ 53` does not come back: `float` rounds
`9007199254740993`, which is `2 ^ 53 + 1`, to the even neighbour `2 ^ 53`. -/
theorem parseHist_large_count :
    parseHist "0:9007199254740993" = [("0", .finite 9007199254740992)] := by
  have h := parseHistWith_renderHist float float_toString
    [(⟨['0'], by simp, by decide, false⟩, 9007199254740993)] (by decide) ", " (Or.inl rfl)
  have hround : PyFloat.ofRat ((9007199254740993 : ℕ) : ℚ) = .finite 9007199254740992 := by
    have h53 := ofRat_two_pow_53_add_one
    norm_num at h53 ⊢
    exact h53
  simp only [List.map_cons, List.map_nil, hround] at h
  exact h

end RoundTrip

end BenchIngest.Phase1
