import Mathlib.Data.List.DropRight
import Mathlib.Data.List.Basic

/-!
# Python string primitives

The scripts handle text with a handful of `str` methods and with files read in
text mode.  They are modelled here over `List Char`, each as CPython defines it
for the calls the scripts make: `strip` drops the characters `str.isspace`
accepts, `splitlines` breaks at every line boundary of `str.splitlines` and
reads `\r\n` as one boundary, `replace` is the two-character pattern replacement
the per-core decoder uses, and `readlines` reads a file in universal-newline
mode, where `\r\n` and a lone `\r` both arrive as `\n`.
-/

namespace BenchIngest.Py

/-- `str.isspace` on one character: the code points of `Py_UNICODE_ISSPACE`. -/
def isspace (c : Char) : Bool :=
  let n := c.toNat
  (0x09 ≤ n && n ≤ 0x0D) || (0x1C ≤ n && n ≤ 0x20) || n == 0x85 || n == 0xA0 ||
    n == 0x1680 || (0x2000 ≤ n && n ≤ 0x200A) || n == 0x2028 || n == 0x2029 ||
    n == 0x202F || n == 0x205F || n == 0x3000

/-- The characters at which `str.splitlines` ends a line. -/
def isLineBreak (c : Char) : Bool :=
  let n := c.toNat
  (0x0A ≤ n && n ≤ 0x0D) || (0x1C ≤ n && n ≤ 0x1E) || n == 0x85 || n == 0x2028 ||
    n == 0x2029

theorem isspace_of_isLineBreak {c : Char} (h : isLineBreak c = true) : isspace c = true := by
  simp only [isLineBreak, isspace, Bool.or_eq_true, Bool.and_eq_true, decide_eq_true_eq,
    beq_iff_eq] at h ⊢
  omega

/-- `str.strip()` with no argument. -/
def strip (s : List Char) : List Char :=
  (s.dropWhile isspace).rdropWhile isspace

/-- `str.split(sep)` for a one-character separator: every occurrence cuts. -/
def split (s : List Char) (sep : Char) : List (List Char) :=
  s.splitOn sep

/-- `str.splitlines()`, scanning with the current line in `line`.  A final line
is reported only when it is not empty, so `"a\n"` gives one line. -/
def splitlinesFrom : List Char → List Char → List (List Char)
  | [], line => if line = [] then [] else [line]
  | '\r' :: '\n' :: rest, line => line :: splitlinesFrom rest []
  | c :: rest, line =>
      if isLineBreak c then line :: splitlinesFrom rest []
      else splitlinesFrom rest (line ++ [c])

def splitlines (s : List Char) : List (List Char) :=
  splitlinesFrom s []

/-- `str.replace(old, new)` for a two-character `old = [a, b]`, scanning left
to right as CPython does. -/
def replace (a b : Char) (new : List Char) : List Char → List Char
  | [] => []
  | [c] => [c]
  | c :: d :: rest =>
      if c = a ∧ d = b then new ++ replace a b new rest
      else c :: replace a b new (d :: rest)

/-- `old in s` for a two-character `old = [a, b]`. -/
def containsPair (a b : Char) : List Char → Bool
  | [] => false
  | [_] => false
  | c :: d :: rest => (c = a && d = b) || containsPair a b (d :: rest)

def startswith (s pre : List Char) : Bool :=
  pre.isPrefixOf s

def endswith (s suf : List Char) : Bool :=
  suf.isSuffixOf s

/-- Universal-newline decoding of a text file. -/
def translateNewlines : List Char → List Char
  | [] => []
  | '\r' :: '\n' :: rest => '\n' :: translateNewlines rest
  | '\r' :: rest => '\n' :: translateNewlines rest
  | c :: rest => c :: translateNewlines rest

/-- Cutting decoded text after each `\n`, the current line in `line`. -/
def linesFrom : List Char → List Char → List (List Char)
  | [], line => if line = [] then [] else [line]
  | c :: rest, line =>
      if c = '\n' then (line ++ ['\n']) :: linesFrom rest []
      else linesFrom rest (line ++ [c])

/-- `f.readlines()` of a file opened in text mode. -/
def readlines (text : List Char) : List (List Char) :=
  linesFrom (translateNewlines text) []

/-- `line.rstrip("\n")`. -/
def rstripNewline (line : List Char) : List Char :=
  line.rdropWhile (· = '\n')

section Strip

theorem dropWhile_append_of_all {p : Char → Bool} {w : List Char} (hw : ∀ c ∈ w, p c = true)
    (s : List Char) : (w ++ s).dropWhile p = s.dropWhile p := by
  induction w with
  | nil => rfl
  | cons c w ih =>
      simp only [List.mem_cons, forall_eq_or_imp] at hw
      simp [List.dropWhile_cons, hw.1, ih hw.2]

theorem rdropWhile_append_of_all {p : Char → Bool} {w : List Char} (hw : ∀ c ∈ w, p c = true)
    (s : List Char) : (s ++ w).rdropWhile p = s.rdropWhile p := by
  have hrev : ∀ c ∈ w.reverse, p c = true := fun c hc => hw c (List.mem_reverse.mp hc)
  simp only [List.rdropWhile, List.reverse_append, dropWhile_append_of_all hrev]

theorem strip_whitespace_append {w : List Char} (hw : ∀ c ∈ w, isspace c = true)
    (s : List Char) : strip (w ++ s) = strip s := by
  simp only [strip, dropWhile_append_of_all hw]

theorem strip_append_whitespace {w : List Char} (hw : ∀ c ∈ w, isspace c = true)
    (s : List Char) : strip (s ++ w) = strip s := by
  unfold strip
  rw [List.dropWhile_append]
  split
  · next hnil =>
      have hs : s.dropWhile isspace = [] := List.isEmpty_iff.mp hnil
      rw [hs, List.rdropWhile_nil, List.dropWhile_eq_nil_iff.mpr hw, List.rdropWhile_nil]
  · exact rdropWhile_append_of_all hw _

theorem strip_cons_of_isspace {c : Char} (hc : isspace c = true) (s : List Char) :
    strip (c :: s) = strip s :=
  strip_whitespace_append (w := [c]) (by simpa using hc) s

theorem strip_of_ends {s : List Char} (hhead : ∀ c ∈ s.head?, isspace c = false)
    (hlast : ∀ c ∈ s.getLast?, isspace c = false) : strip s = s := by
  have hdrop : s.dropWhile isspace = s := by
    cases s with
    | nil => rfl
    | cons c t => simp [List.dropWhile_cons, hhead c rfl]
  rw [strip, hdrop, List.rdropWhile_eq_self_iff]
  intro hne
  simp [hlast _ (List.getLast?_eq_getLast s hne)]

/-- Every string is its stripped text between two runs of whitespace. -/
theorem eq_strip_between (s : List Char) :
    ∃ lead trail, (∀ c ∈ lead, isspace c = true) ∧ (∀ c ∈ trail, isspace c = true) ∧
      s = lead ++ strip s ++ trail := by
  refine ⟨s.takeWhile isspace, ((s.dropWhile isspace).reverse.takeWhile isspace).reverse,
    fun c hc => List.mem_takeWhile_imp hc, fun c hc => ?_, ?_⟩
  · exact List.mem_takeWhile_imp (List.mem_reverse.mp hc)
  · conv_lhs => rw [← List.takeWhile_append_dropWhile isspace s]
    rw [List.append_assoc]
    congr 1
    rw [strip, List.rdropWhile, ← List.reverse_append, List.takeWhile_append_dropWhile,
      List.reverse_reverse]

end Strip

section Replace

variable {a b : Char} {new : List Char}

theorem replace_cons_of_ne (c : Char) (hc : c ≠ a) (s : List Char) :
    replace a b new (c :: s) = c :: replace a b new s := by
  cases s with
  | nil => rfl
  | cons d rest => simp [replace, hc]

/-- A replacement never reaches across a cut unless the left part ends with the
pattern's first character and the right part starts with its second. -/
theorem replace_append {x y : List Char} (h : x.getLast? = some a → y.head? ≠ some b) :
    replace a b new (x ++ y) = replace a b new x ++ replace a b new y := by
  induction x using replace.induct a b new with
  | case1 => rfl
  | case2 c =>
      by_cases hc : c = a
      · subst hc
        cases y with
        | nil => rfl
        | cons d rest =>
            have hd : d ≠ b := fun hd => h rfl (by simp [hd])
            simp [replace, hd]
      · simp [replace_cons_of_ne c hc, replace]
  | case3 c d rest hcd ih =>
      show replace a b new (c :: d :: (rest ++ y)) = _
      rw [replace, if_pos hcd, replace, if_pos hcd, List.append_assoc,
        ih fun hl => h (by cases rest <;> simp_all)]
  | case4 c d rest hcd ih =>
      show replace a b new (c :: (d :: rest ++ y)) = _
      rw [List.cons_append, replace, if_neg hcd, replace, if_neg hcd, ← List.cons_append,
        ih fun hl => h (by simpa using hl), List.cons_append]

theorem replace_eq_self {s : List Char} (h : containsPair a b s = false) :
    replace a b new s = s := by
  induction s using replace.induct a b new with
  | case1 => rfl
  | case2 c => rfl
  | case3 c d rest hcd _ => simp_all [containsPair]
  | case4 c d rest hcd ih =>
      simp only [containsPair, Bool.or_eq_false_iff] at h
      simp [replace, hcd, ih h.2]

end Replace

section Lines

/-! The lines `readlines` returns, and joining them back. -/

/-- A line of decoded text as `readlines` cuts it. -/
structure IsTextLine (line : List Char) : Prop where
  ne_nil : line ≠ []
  no_cr : '\r' ∉ line
  no_inner_lf : '\n' ∉ line.dropLast

/-- Lines `readlines` can return: text lines, each but the last ending in a line feed. -/
def IsTextLines (lines : List (List Char)) : Prop :=
  (∀ line ∈ lines, IsTextLine line) ∧ ∀ line ∈ lines.dropLast, line.getLast? = some '\n'

theorem translateNewlines_cons_of_ne {c : Char} (hc : c ≠ '\r') (rest : List Char) :
    translateNewlines (c :: rest) = c :: translateNewlines rest := by
  simp [translateNewlines, hc]

theorem translateNewlines_of_cr_not_mem : ∀ {t : List Char}, '\r' ∉ t → translateNewlines t = t
  | [], _ => rfl
  | c :: t, h => by
      rw [List.mem_cons, not_or] at h
      rw [translateNewlines_cons_of_ne (Ne.symm h.1), translateNewlines_of_cr_not_mem h.2]

theorem cr_not_mem_translateNewlines (t : List Char) : '\r' ∉ translateNewlines t := by
  induction t using translateNewlines.induct <;> simp_all [translateNewlines, eq_comm]

theorem linesFrom_append_of_lf_not_mem {body : List Char} (h : '\n' ∉ body) (rest acc : List Char) :
    linesFrom (body ++ rest) acc = linesFrom rest (acc ++ body) := by
  induction body generalizing acc with
  | nil => simp
  | cons c body ih =>
      simp only [List.mem_cons, not_or] at h
      simp [linesFrom, Ne.symm h.1, ih h.2]

theorem flatten_linesFrom (t acc : List Char) : (linesFrom t acc).flatten = acc ++ t := by
  induction t generalizing acc with
  | nil => by_cases h : acc = [] <;> simp [linesFrom, h]
  | cons c t ih => by_cases h : c = '\n' <;> simp [linesFrom, h, ih]

theorem isTextLines_nil : IsTextLines [] :=
  ⟨by simp, by simp⟩

theorem isTextLines_single {line : List Char} (h : IsTextLine line) : IsTextLines [line] :=
  ⟨by simp [h], by simp⟩

theorem isTextLines_cons {line : List Char} {lines : List (List Char)} (h : IsTextLine line)
    (hend : line.getLast? = some '\n') (hlines : IsTextLines lines) :
    IsTextLines (line :: lines) := by
  refine ⟨List.forall_mem_cons.mpr ⟨h, hlines.1⟩, ?_⟩
  cases lines with
  | nil => simp
  | cons l ls =>
      simp only [List.dropLast_cons₂, List.mem_cons]
      rintro x (rfl | hx)
      · exact hend
      · exact hlines.2 x hx

theorem IsTextLines.tail {line : List Char} {lines : List (List Char)}
    (h : IsTextLines (line :: lines)) : IsTextLines lines := by
  refine ⟨fun l hl => h.1 l (List.mem_cons_of_mem _ hl), fun l hl => h.2 l ?_⟩
  cases lines with
  | nil => simp at hl
  | cons l' ls => exact List.mem_cons_of_mem _ (by simpa using hl)

theorem isTextLines_linesFrom : ∀ (t acc : List Char), '\r' ∉ t → '\n' ∉ acc → '\r' ∉ acc →
    IsTextLines (linesFrom t acc)
  | [], acc, _, hlf, hcr => by
      by_cases h : acc = []
      · simp only [linesFrom, if_pos h]
        exact isTextLines_nil
      · simp only [linesFrom, if_neg h]
        exact isTextLines_single ⟨h, hcr, fun hm => hlf (List.dropLast_subset _ hm)⟩
  | c :: t, acc, ht, hlf, hcr => by
      simp only [List.mem_cons, not_or] at ht
      by_cases hc : c = '\n'
      · subst hc
        rw [linesFrom, if_pos rfl]
        exact isTextLines_cons ⟨by simp, by simp [hcr], by simpa using hlf⟩ (by simp)
          (isTextLines_linesFrom t [] ht.2 (by simp) (by simp))
      · rw [linesFrom, if_neg hc]
        exact isTextLines_linesFrom t (acc ++ [c]) ht.2 (by simp [hlf, Ne.symm hc])
          (by simp [hcr, ht.1])

theorem isTextLines_readlines (text : List Char) : IsTextLines (readlines text) :=
  isTextLines_linesFrom _ [] (cr_not_mem_translateNewlines text) (by simp) (by simp)

/-- A text line is its body and, where it has one, its final line feed. -/
theorem IsTextLine.eq_body {line : List Char} (h : IsTextLine line) :
    '\n' ∉ line.dropLast ∧ (line = line.dropLast ++ ['\n'] ∨ '\n' ∉ line) := by
  refine ⟨h.no_inner_lf, ?_⟩
  obtain ⟨c, hc⟩ : ∃ c, line.getLast? = some c := ⟨_, List.getLast?_eq_getLast _ h.ne_nil⟩
  have hsplit := List.dropLast_append_getLast? c hc
  by_cases hlf : c = '\n'
  · exact .inl (hlf ▸ hsplit.symm)
  · refine .inr fun hm => ?_
    rw [← hsplit, List.mem_append, List.mem_singleton] at hm
    exact hm.elim h.no_inner_lf (fun e => hlf e.symm)

theorem linesFrom_flatten : ∀ {lines : List (List Char)}, IsTextLines lines →
    linesFrom lines.flatten [] = lines
  | [], _ => rfl
  | [line], h => by
      have hline := h.1 line (by simp)
      rcases hline.eq_body with ⟨hbody, hsplit | hlf⟩
      · rw [List.flatten_cons, List.flatten_nil, List.append_nil, hsplit,
          linesFrom_append_of_lf_not_mem hbody]
        simp [linesFrom]
      · rw [List.flatten_cons, List.flatten_nil, List.append_nil,
          ← List.append_nil line, linesFrom_append_of_lf_not_mem hlf]
        simp [linesFrom, hline.ne_nil]
  | line :: l :: rest, h => by
      have hline := h.1 line (by simp)
      have hend : line.getLast? = some '\n' := h.2 line (by simp)
      have hsplit := List.dropLast_append_getLast? '\n' hend
      rw [List.flatten_cons, ← hsplit, List.append_assoc,
        linesFrom_append_of_lf_not_mem hline.no_inner_lf, List.nil_append, List.singleton_append,
        linesFrom, if_pos rfl, linesFrom_flatten h.tail, hsplit]

/-- `readlines` gives back the lines it could have returned, once joined. -/
theorem readlines_flatten {lines : List (List Char)} (h : IsTextLines lines) :
    readlines lines.flatten = lines := by
  have hcr : '\r' ∉ lines.flatten := by
    simp only [List.mem_flatten, not_exists, not_and]
    exact fun line hline => (h.1 line hline).no_cr
  rw [readlines, translateNewlines_of_cr_not_mem hcr, linesFrom_flatten h]

theorem flatten_readlines (text : List Char) : (readlines text).flatten = translateNewlines text := by
  rw [readlines, flatten_linesFrom, List.nil_append]

theorem translateNewlines_eq_iff (text : List Char) :
    translateNewlines text = text ↔ '\r' ∉ text :=
  ⟨fun h => h ▸ cr_not_mem_translateNewlines text, translateNewlines_of_cr_not_mem⟩

theorem length_translateNewlines_le (t : List Char) : (translateNewlines t).length ≤ t.length := by
  induction t using translateNewlines.induct <;> simp_all [translateNewlines]; omega

theorem translateNewlines_eq_nil {t : List Char} : translateNewlines t = [] ↔ t = [] := by
  induction t using translateNewlines.induct <;> simp_all [translateNewlines]

theorem readlines_eq_nil {t : List Char} : readlines t = [] ↔ t = [] := by
  rw [← translateNewlines_eq_nil, ← flatten_readlines, List.flatten_eq_nil_iff]
  refine ⟨fun h => by simp [h], fun h => ?_⟩
  rcases hl : readlines t with _ | ⟨l, ls⟩
  · rfl
  · have hmem : l ∈ readlines t := hl ▸ List.mem_cons_self l ls
    exact absurd (h l hmem) ((isTextLines_readlines t).1 l hmem).ne_nil

end Lines

end BenchIngest.Py

namespace BenchIngest

variable {ε α β : Type}

theorem except_bind_eq_ok {x : Except ε α} {f : α → Except ε β} {b : β} :
    x.bind f = .ok b ↔ ∃ a, x = .ok a ∧ f a = .ok b := by
  cases x <;> simp [Except.bind]

theorem except_map_eq_ok {x : Except ε α} {f : α → β} {b : β} :
    x.map f = .ok b ↔ ∃ a, x = .ok a ∧ f a = b := by
  cases x <;> simp [Except.map]

/-- Every result of a successful `mapM` in `Except` is a result of the
function on some element. -/
theorem forall_mem_of_mapM_ok {f : α → Except ε β} {P : β → Prop}
    (hf : ∀ a b, f a = .ok b → P b) :
    ∀ {l : List α} {ys : List β}, l.mapM f = .ok ys → ∀ y ∈ ys, P y
  | [], ys, h => by
      cases h
      simp
  | a :: l, ys, h => by
      rw [List.mapM_cons] at h
      cases hfa : f a with
      | error e => rw [hfa] at h; cases h
      | ok b =>
          cases hl : l.mapM f with
          | error e => rw [hfa, hl] at h; cases h
          | ok bs =>
              rw [hfa, hl] at h
              cases h
              intro y hy
              rcases List.mem_cons.mp hy with rfl | hy
              · exact hf a y hfa
              · exact forall_mem_of_mapM_ok hf hl y hy

/-- A `mapM` in `Except` whose every call succeeds. -/
theorem mapM_map_eq_ok {α β γ ε : Type} {f : β → Except ε γ} {k : α → β} {g : α → γ}
    {xs : List α} (h : ∀ x ∈ xs, f (k x) = .ok (g x)) : (xs.map k).mapM f = .ok (xs.map g) := by
  induction xs with
  | nil => rfl
  | cons x xs ih =>
      rw [List.map_cons, List.mapM_cons, h x (List.mem_cons_self x xs),
        ih fun y hy => h y (List.mem_cons_of_mem x hy)]
      rfl

/-- A `mapM` in `Except` whose every call succeeds succeeds. -/
theorem exists_mapM_eq_ok {α β ε : Type} {f : α → Except ε β} :
    ∀ {xs : List α}, (∀ x ∈ xs, ∃ y, f x = .ok y) → ∃ ys, xs.mapM f = .ok ys
  | [], _ => ⟨[], rfl⟩
  | x :: xs, h => by
      obtain ⟨y, hy⟩ := h x (List.mem_cons_self x xs)
      obtain ⟨ys, hys⟩ := exists_mapM_eq_ok fun z hz => h z (List.mem_cons_of_mem x hz)
      exact ⟨y :: ys, by rw [List.mapM_cons, hy, hys]; rfl⟩

end BenchIngest
