import BenchIngest.PyNumber

/-!
# The per-core cell decoder

`parse_per_core_values` reads a cell holding one latency per core: a number,
or text with comma-separated values over one or more lines, where a line break
may be written as the two characters backslash and `n` (the marker row
reconstruction inserts).  It un-escapes the markers, splits the text into lines
and the lines at commas, and keeps every stripped part that `float` accepts;
`per_core_mean` averages them, with `nan` for a cell without any.

The decoding only depends on the pieces the text falls into at line breaks and
commas (`tokensFrom`), so gluing two texts with a marker, a line break or a
comma concatenates their decoded values.
-/

namespace BenchIngest.PerCore

open Py

/-- A cell of the frame as `parse_per_core_values` sees it. -/
inductive Cell
  | none
  | number (x : PyFloat)
  | text (s : String)

/-- `if "\\n" in text or "\\r" in text: text = text.replace(...).replace(...)`. -/
def unescape (text : List Char) : List Char :=
  if containsPair '\\' 'n' text || containsPair '\\' 'r' text then
    replace '\\' 'n' ['\n'] (replace '\\' 'r' ['\r'] text)
  else text

/-- The stripped nonempty comma-separated parts of every line. -/
def cellParts (text : List Char) : List (List Char) :=
  (splitlines text).flatMap fun line => ((split line ',').map strip).filter (· ≠ [])

def parsePerCoreValues : Cell → List PyFloat
  | .none => []
  | .number x => if x.isNan then [] else [x]
  | .text s =>
      let text := unescape (strip s.data)
      if text = [] then [] else (cellParts text).filterMap float

def perCoreMean (cell : Cell) : PyFloat :=
  let values := parsePerCoreValues cell
  if values = [] then .nan else PyFloat.mean values

/-- Where the decoder cuts a text: at a line boundary or a comma. -/
def isSeparator (c : Char) : Bool :=
  isLineBreak c || c = ','

def keepNonempty (piece : List Char) : List (List Char) :=
  if piece = [] then [] else [piece]

/-- The pieces between separators, each stripped, the empty ones dropped;
`piece` holds what was read of the current piece. -/
def tokensFrom : List Char → List Char → List (List Char)
  | [], piece => keepNonempty (strip piece)
  | c :: rest, piece =>
      if isSeparator c then keepNonempty (strip piece) ++ tokensFrom rest []
      else tokensFrom rest (piece ++ [c])

/-- Both escape replacements, applied unconditionally. -/
def unescapeAll (text : List Char) : List Char :=
  replace '\\' 'n' ['\n'] (replace '\\' 'r' ['\r'] text)

section Tokens

theorem strip_eq_nil_of_whitespace {w : List Char} (hw : ∀ c ∈ w, isspace c = true) :
    strip w = [] := by
  simpa using strip_whitespace_append hw []

theorem tokensFrom_append_separator (x y : List Char) {c : Char} (hc : isSeparator c = true)
    (piece : List Char) :
    tokensFrom (x ++ c :: y) piece = tokensFrom x piece ++ tokensFrom y [] := by
  induction x generalizing piece with
  | nil => simp [tokensFrom, hc]
  | cons d x ih =>
      by_cases hd : isSeparator d
      · simp [tokensFrom, hd, ih]
      · simp [tokensFrom, hd, ih]

theorem tokensFrom_whitespace_piece {q : List Char} (hq : ∀ c ∈ q, isspace c = true)
    (x piece : List Char) : tokensFrom x (q ++ piece) = tokensFrom x piece := by
  induction x generalizing piece with
  | nil => simp [tokensFrom, strip_whitespace_append hq]
  | cons d x ih =>
      by_cases hd : isSeparator d
      · simp [tokensFrom, hd, strip_whitespace_append hq]
      · simp only [tokensFrom, hd, if_false, Bool.false_eq_true, List.append_assoc, ih]

theorem tokensFrom_whitespace_append {w : List Char} (hw : ∀ c ∈ w, isspace c = true)
    (x : List Char) : tokensFrom (w ++ x) [] = tokensFrom x [] := by
  induction w with
  | nil => rfl
  | cons d w ih =>
      simp only [List.mem_cons, forall_eq_or_imp] at hw
      by_cases hd : isSeparator d
      · simp [tokensFrom, hd, ih hw.2, strip, keepNonempty]
      · have hstep : tokensFrom (d :: (w ++ x)) [] = tokensFrom (w ++ x) ([d] ++ []) := by
          simp [tokensFrom, hd]
        rw [List.cons_append, hstep, tokensFrom_whitespace_piece (by simpa using hw.1), ih hw.2]

theorem tokensFrom_of_whitespace {w : List Char} (hw : ∀ c ∈ w, isspace c = true)
    (piece : List Char) : tokensFrom w piece = keepNonempty (strip piece) := by
  induction w generalizing piece with
  | nil => rfl
  | cons d w ih =>
      simp only [List.mem_cons, forall_eq_or_imp] at hw
      by_cases hd : isSeparator d
      · simp [tokensFrom, hd, ih hw.2, strip, keepNonempty]
      · simp only [tokensFrom, hd, if_false, Bool.false_eq_true, ih hw.2,
          strip_append_whitespace (w := [d]) (by simpa using hw.1)]

theorem tokensFrom_append_whitespace {w : List Char} (hw : ∀ c ∈ w, isspace c = true)
    (x piece : List Char) : tokensFrom (x ++ w) piece = tokensFrom x piece := by
  induction x generalizing piece with
  | nil => exact tokensFrom_of_whitespace hw piece
  | cons d x ih =>
      by_cases hd : isSeparator d
      · simp [tokensFrom, hd, ih]
      · simp [tokensFrom, hd, ih]

theorem lineParts_eq_tokensFrom {line : List Char} (hline : ∀ c ∈ line, isLineBreak c = false)
    {piece : List Char} (hpiece : ∀ c ∈ piece, isSeparator c = false) :
    ((split (piece ++ line) ',').map strip).filter (· ≠ []) = tokensFrom line piece := by
  induction line generalizing piece with
  | nil =>
      have hsingle : split piece ',' = [piece] :=
        List.splitOnP_eq_single _ _ fun c hc hsep => by
          have hc' := hpiece c hc
          simp [isSeparator, show c = ',' by simpa using hsep] at hc'
      by_cases h : strip piece = [] <;> simp [hsingle, tokensFrom, keepNonempty, h]
  | cons c line ih =>
      simp only [List.mem_cons, forall_eq_or_imp] at hline
      by_cases hc : c = ','
      · subst hc
        have hfirst : split (piece ++ ',' :: line) ',' = piece :: split line ',' :=
          List.splitOnP_first _ _ (fun d hd hsep => by
            have hd' := hpiece d hd
            simp [isSeparator, show d = ',' by simpa using hsep] at hd') _ (by simp) _
        have hrest := ih hline.2 (List.forall_mem_nil _)
        rw [List.nil_append] at hrest
        by_cases h : strip piece = [] <;>
          simpa [hfirst, tokensFrom, isSeparator, keepNonempty, h] using hrest
      · have hsep : isSeparator c = false := by simp [isSeparator, hline.1, hc]
        rw [tokensFrom, if_neg (by simp [hsep]), ← ih hline.2 (fun d hd => by
          rcases List.mem_append.mp hd with hd | hd
          · exact hpiece d hd
          · simp at hd; subst hd; exact hsep)]
        simp

/-- Splitting into lines and then at commas cuts at every separator. -/
theorem splitlinesFrom_parts (text line : List Char) (hline : ∀ c ∈ line, isLineBreak c = false) :
    (splitlinesFrom text line).flatMap
        (fun line => ((split line ',').map strip).filter (· ≠ [])) =
      tokensFrom (line ++ text) [] := by
  have hparts := fun (l : List Char) (hl : ∀ c ∈ l, isLineBreak c = false) =>
    (lineParts_eq_tokensFrom hl (List.forall_mem_nil _)).trans rfl
  induction text, line using splitlinesFrom.induct with
  | case1 => simp [splitlinesFrom, tokensFrom, keepNonempty, strip]
  | case2 line h => simpa [splitlinesFrom, h] using hparts line hline
  | case3 rest line ih =>
      rw [splitlinesFrom, List.flatMap_cons, ih (by simp), tokensFrom_append_separator _ _
        (by decide), tokensFrom]
      simpa [isSeparator, isLineBreak, strip, keepNonempty] using hparts line hline
  | case4 c rest line hnot hbreak ih =>
      rw [splitlinesFrom.eq_3 _ _ _ hnot, if_pos hbreak, List.flatMap_cons, ih (by simp),
        tokensFrom_append_separator _ _ (by simp [isSeparator, hbreak])]
      simpa using hparts line hline
  | case5 c rest line hnot hbreak ih =>
      rw [splitlinesFrom.eq_3 _ _ _ hnot, if_neg hbreak, ih fun d hd => by
        rcases List.mem_append.mp hd with hd | hd
        · exact hline d hd
        · simp only [List.mem_singleton] at hd; subst hd; simpa using hbreak]
      simp

theorem cellParts_eq_tokensFrom (text : List Char) : cellParts text = tokensFrom text [] :=
  splitlinesFrom_parts text [] (by simp)

end Tokens

section Unescape

theorem containsPair_eq_false {a b : Char} {s : List Char} (h : a ∉ s) :
    containsPair a b s = false := by
  induction s using containsPair.induct a b with
  | case1 => rfl
  | case2 c => rfl
  | case3 c d rest ih =>
      simp only [List.mem_cons, not_or] at h ih
      simp [containsPair, Ne.symm h.1, ih h.2]

theorem unescape_eq_unescapeAll (text : List Char) : unescape text = unescapeAll text := by
  unfold unescape unescapeAll
  split
  · rfl
  · next h =>
      simp only [Bool.or_eq_true, not_or, Bool.not_eq_true] at h
      rw [replace_eq_self h.2, replace_eq_self h.1]

theorem replace_whitespace_around (a b : Char) (new : List Char) (ha : isspace a = false)
    (hb : isspace b = false) {lead trail : List Char} (hlead : ∀ c ∈ lead, isspace c = true)
    (htrail : ∀ c ∈ trail, isspace c = true) (m : List Char) :
    replace a b new (lead ++ m ++ trail) = lead ++ replace a b new m ++ trail := by
  have hnot : ∀ {w : List Char}, (∀ c ∈ w, isspace c = true) → ∀ {x : Char}, isspace x = false →
      x ∉ w := fun hw x hx hmem => by simp [hw x hmem] at hx
  rw [List.append_assoc, replace_append (fun h => absurd (List.mem_of_getLast?_eq_some h)
      (hnot hlead ha)),
    replace_append (fun _ h => hnot htrail hb (List.mem_of_mem_head? h)),
    replace_eq_self (containsPair_eq_false (hnot hlead ha)),
    replace_eq_self (containsPair_eq_false (hnot htrail ha)), List.append_assoc]

theorem unescapeAll_whitespace_around {lead trail : List Char}
    (hlead : ∀ c ∈ lead, isspace c = true) (htrail : ∀ c ∈ trail, isspace c = true)
    (m : List Char) : unescapeAll (lead ++ m ++ trail) = lead ++ unescapeAll m ++ trail := by
  simp only [unescapeAll, replace_whitespace_around '\\' 'r' _ (by decide) (by decide) hlead htrail,
    replace_whitespace_around '\\' 'n' _ (by decide) (by decide) hlead htrail]

/-- Stripping and the test for a marker change nothing the decoder keeps. -/
theorem parsePerCoreValues_text (s : String) :
    parsePerCoreValues (.text s) = (tokensFrom (unescapeAll s.data) []).filterMap float := by
  obtain ⟨lead, trail, hlead, htrail, hs⟩ := eq_strip_between s.data
  have hkey : tokensFrom (unescapeAll (strip s.data)) [] = tokensFrom (unescapeAll s.data) [] := by
    conv_rhs => rw [hs, unescapeAll_whitespace_around hlead htrail,
      tokensFrom_append_whitespace htrail, tokensFrom_whitespace_append hlead]
  simp only [parsePerCoreValues, unescape_eq_unescapeAll]
  split
  · next h => rw [← hkey, h]; rfl
  · rw [cellParts_eq_tokensFrom, hkey]

theorem unescapeAll_append_plain (a b : List Char) (c : Char) (hc : c ≠ '\\')
    (hn : c ≠ 'n') (hr : c ≠ 'r') :
    unescapeAll (a ++ c :: b) = unescapeAll a ++ c :: unescapeAll b := by
  simp only [unescapeAll]
  rw [replace_append (fun _ h => hr (by simpa using h)), replace_cons_of_ne c hc,
    replace_append (fun _ h => hn (by simpa using h)), replace_cons_of_ne c hc]

theorem unescapeAll_append_marker (a b : List Char) :
    unescapeAll (a ++ '\\' :: 'n' :: b) = unescapeAll a ++ '\n' :: unescapeAll b := by
  simp only [unescapeAll]
  rw [replace_append (fun _ h => by simp at h), replace, if_neg (by decide),
    replace_cons_of_ne 'n' (by decide), replace_append (fun _ h => by simp at h), replace,
    if_pos (by decide)]
  rfl

end Unescape

/-- The three joins glue the decoded values. -/
theorem parsePerCoreValues_append_join (a b : String) {M : String}
    (hM : M = "\\n" ∨ M = "\n" ∨ M = ",") :
    parsePerCoreValues (.text (a ++ M ++ b)) =
      parsePerCoreValues (.text a) ++ parsePerCoreValues (.text b) := by
  have hsplit : ∃ c, isSeparator c = true ∧
      unescapeAll (a.data ++ M.data ++ b.data) = unescapeAll a.data ++ c :: unescapeAll b.data := by
    rcases hM with rfl | rfl | rfl
    · exact ⟨'\n', by decide, by simpa using unescapeAll_append_marker a.data b.data⟩
    · exact ⟨'\n', by decide, by
        simpa using unescapeAll_append_plain a.data b.data '\n' (by decide) (by decide) (by decide)⟩
    · exact ⟨',', by decide, by
        simpa using unescapeAll_append_plain a.data b.data ',' (by decide) (by decide) (by decide)⟩
  obtain ⟨c, hc, hjoin⟩ := hsplit
  simp only [parsePerCoreValues_text, String.data_append, hjoin,
    tokensFrom_append_separator _ _ hc, List.filterMap_append]

theorem parsePerCoreValues_foldl_join {M : String} (hM : M = "\\n" ∨ M = "\n" ∨ M = ",")
    (first : String) (lines : List String) :
    parsePerCoreValues (.text (lines.foldl (fun text line => text ++ M ++ line) first)) =
      parsePerCoreValues (.text first) ++
        lines.flatMap fun line => parsePerCoreValues (.text line) := by
  induction lines generalizing first with
  | nil => simp
  | cons line lines ih =>
      rw [List.foldl_cons, ih, parsePerCoreValues_append_join _ _ hM, List.flatMap_cons,
        List.append_assoc]

/-- A cell decodes to the `float` of each token of its un-escaped text that
`float` reads, in order.  Gluing cells with the escaped line break (or a line
break, or a comma) concatenates their decoded values, so a cell whose lines
were joined by row reconstruction decodes to all its lines' values in order;
its mean is the mean of those values, and with exact values it is `nan`
exactly when there are none. -/
theorem parsePerCoreValues_join_homomorphism :
    (∀ s : String, parsePerCoreValues (.text s) = (tokensFrom (unescapeAll s.data) []).filterMap float) ∧
    (∀ (a b M : String), (M = "\\n" ∨ M = "\n" ∨ M = ",") →
      parsePerCoreValues (.text (a ++ M ++ b)) =
        parsePerCoreValues (.text a) ++ parsePerCoreValues (.text b)) ∧
    (∀ (M first : String) (lines : List String), (M = "\\n" ∨ M = "\n" ∨ M = ",") →
      let values := parsePerCoreValues (.text first) ++
        lines.flatMap fun line => parsePerCoreValues (.text line)
      let cell := Cell.text (lines.foldl (fun text line => text ++ M ++ line) first)
      parsePerCoreValues cell = values ∧
        perCoreMean cell = (if values = [] then .nan else PyFloat.mean values) ∧
        ∀ qs : List ℚ, values = qs.map .finite →
          perCoreMean cell = (if qs = [] then .nan else .finite (qs.sum / qs.length)) ∧
            (perCoreMean cell = .nan ↔ qs = [])) := by
  refine ⟨parsePerCoreValues_text, fun a b M hM => parsePerCoreValues_append_join a b hM,
    fun M first lines hM => ?_⟩
  have hvalues := parsePerCoreValues_foldl_join hM first lines
  refine ⟨hvalues, by simp only [perCoreMean, hvalues], fun qs hqs => ?_⟩
  have hmean : perCoreMean (.text (lines.foldl (fun text line => text ++ M ++ line) first)) =
      (if qs = [] then .nan else .finite (qs.sum / qs.length)) := by
    simp only [perCoreMean, hvalues, hqs, List.map_eq_nil_iff, PyFloat.mean_finite]
  refine ⟨hmean, ?_⟩
  rw [hmean]
  split <;> simp_all

end BenchIngest.PerCore
