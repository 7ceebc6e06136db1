import BenchIngest.PyDict
import BenchIngest.PyNumber
import Mathlib.Data.List.Infix
import Mathlib.Data.Rat.Floor

/-!
# Applying an SSD latency profile to the simulator's config file

`load_profile` converts the three timings of a profile to nanoseconds with
`to_ns`, which multiplies in doubles and rounds, so a time whose double product
falls just short of a half rounds down where exact arithmetic would round up.
`apply_config` reads the config file in text mode, replaces each line whose
stripped text starts with `K =` for a key `K` of the profile by `K = value`,
writes the original lines to a backup unless one exists, and writes the new
lines back.  The files are the explicit state `Files`.  Reading in text mode
turns `\r\n` and `\r` into `\n`, so the backup holds the decoded text, which is
the original exactly when it has no carriage return.  Over any run of profiles
with the same keys, none containing ` =`, the config is the original with the
last profile applied, and the backup is the one written first; every profile
`load_profile` returns has the same seven keys, so this holds of any run of the
script, a run that raises leaving the files as they were.
-/

namespace BenchIngest.SsdProfile

open Py Dict

/-- A profile: config keys to integer values, in order. -/
abbrev Updates := Dict String ℤ

/-- `UNIT_TO_NS`: each unit's factor, a double. -/
def unitToNs : Dict String ℚ :=
  [("ns", 1), ("us", 1000), ("ms", 1000000)]

def toNs (value : PyFloat) (unit : String) : Except String ℤ :=
  let unit := String.mk (unit.data.map Char.toLower)
  match unitToNs.get? unit with
  | none => .error s!"Unsupported unit: {unit}"
  | some factor => pyRound (value.mulPos factor)

/-- `values[key]`, raising `KeyError`. -/
def keyLookup (values : Dict String PyFloat) (key : String) : Except String PyFloat :=
  match values.get? key with
  | some value => .ok value
  | none => .error s!"KeyError: \x27{key}\x27"

/-- `load_profile` on the `units` table of the JSON file and its `values`
table, each value as `float` converts it. -/
def loadProfile (units : Dict String String) (values : Dict String PyFloat) :
    Except String Updates := do
  let read_ns ← toNs (← keyLookup values "page_read_tR") (units.getD "read" "ns")
  let prog_ns ← toNs (← keyLookup values "page_program_tPROG") (units.getD "program" "ns")
  let erase_ns ← toNs (← keyLookup values "block_erase_tBERS") (units.getD "erase" "ns")
  pure [("LSBRead", read_ns), ("CSBRead", read_ns), ("MSBRead", read_ns),
    ("LSBWrite", prog_ns), ("CSBWrite", prog_ns), ("MSBWrite", prog_ns), ("Erase", erase_ns)]

/-- `f"{key} = {value}\n"`. -/
def updateLine (key : String) (value : ℤ) : List Char :=
  key.data ++ [' ', '=', ' '] ++ (toString value).data ++ ['\n']

/-- `stripped.startswith(f"{key} =")`. -/
def startsKey (stripped : List Char) (key : String) : Bool :=
  startswith stripped (key.data ++ [' ', '='])

/-- The inner loop on one line: the line of the first key that starts it, or
the line itself. -/
def replaceLine (updates : Updates) (line : List Char) : List Char :=
  match updates.find? (startsKey (strip line) ·.1) with
  | some (key, value) => updateLine key value
  | none => line

/-- The config file and its backup, when there is one. -/
structure Files where
  config : String
  bak : Option String
  deriving DecidableEq, Repr

def applyConfig (updates : Updates) (files : Files) : Files :=
  let lines := readlines files.config.data
  let out_lines := lines.map (replaceLine updates)
  { config := String.mk out_lines.flatten
    bak := match files.bak with
      | some bak => some bak
      | none => some (String.mk lines.flatten) }

/-- `main()`: the profile loaded from its JSON tables, applied to the config. -/
def main (units : Dict String String) (values : Dict String PyFloat) (files : Files) :
    Except String Files :=
  (loadProfile units values).map fun updates => applyConfig updates files

/-- The files after one run of the script on a profile: unchanged when it
raises. -/
def invoke (files : Files) (profile : Dict String String × Dict String PyFloat) : Files :=
  match main profile.1 profile.2 files with
  | .ok files => files
  | .error _ => files

/-! ## Loading a profile -/

theorem toNs_of_get? (value : PyFloat) {factor : ℚ} {unit : String}
    (h : unitToNs.get? (String.mk (unit.data.map Char.toLower)) = some factor) :
    toNs value unit = pyRound (value.mulPos factor) := by
  rw [toNs, h]

theorem mem_of_unitToNs {unit : String} {factor : ℚ} (h : unitToNs.get? unit = some factor) :
    factor ∈ [(1 : ℚ), 1000, 1000000] := by
  simp only [unitToNs, get?] at h
  split_ifs at h <;> cases h <;> simp

/-- `to_ns` of a finite time in a supported unit: the unit's factor is 1, 1000
or 1000000; a result is the integer nearest the double nearest the product (of
two nearest, the even one), that double lying within a relative `2 ^ (-53)` of
the exact product; a product short of `2 ^ 1023` always converts; and an exact
product that is an integer up to `2 ^ 53` converts to itself. -/
theorem toNs_spec {value factor : ℚ} {unit : String}
    (hunit : unitToNs.get? (String.mk (unit.data.map Char.toLower)) = some factor) :
    factor ∈ [(1 : ℚ), 1000, 1000000] ∧
      (∀ n, toNs (.finite value) unit = .ok n → ∃ r, PyFloat.ofRat (value * factor) = .finite r ∧
        |r - n| ≤ 1 / 2 ∧ (|r - n| = 1 / 2 → n % 2 = 0) ∧
        |r - value * factor| ≤ max (|value * factor| / 2 ^ 53) (2 ^ (-1075 : ℤ))) ∧
      (|value * factor| < 2 ^ 1023 → ∃ n, toNs (.finite value) unit = .ok n) ∧
      ∀ k : ℕ, value * factor = k → k ≤ 2 ^ 53 → toNs (.finite value) unit = .ok k := by
  rw [toNs_of_get? _ hunit]
  refine ⟨mem_of_unitToNs hunit, fun n h => ?_, fun hlt => ?_, fun k hk hle => ?_⟩
  · cases hr : PyFloat.ofRat (value * factor) with
    | finite r =>
        simp only [PyFloat.mulPos, hr, pyRound, Except.ok.injEq] at h
        subst h
        obtain ⟨hnear, heven⟩ := roundHalfEven_nearest r
        exact ⟨r, rfl, hnear, heven, ofRat_error hr⟩
    | inf b => simp [PyFloat.mulPos, hr, pyRound] at h
    | nan => simp [PyFloat.mulPos, hr, pyRound] at h
  · obtain ⟨r, hr⟩ := ofRat_finite_of_lt hlt
    exact ⟨roundHalfEven r, by simp only [PyFloat.mulPos, hr, pyRound]⟩
  · rw [PyFloat.mulPos, hk, ofRat_natCast hle, pyRound]
    exact congrArg Except.ok (by exact_mod_cast roundHalfEven_intCast k)

/-- Half a microsecond and a half: `float("0.5015")` times 1000 is the double
just below `501.5`, so the time converts to 501 nanoseconds, where the exact
product would round to 502. -/
theorem toNs_microseconds_half :
    PyFloat.ofRat (5015 / 10000) = .finite (4517110426252607 / 2 ^ 53) ∧
      toNs (.finite (4517110426252607 / 2 ^ 53)) "us" = .ok 501 ∧
      roundHalfEven (5015 / 10000 * 1000) = 502 ∧
      ∃ r, PyFloat.ofRat (4517110426252607 / 2 ^ 53 * 1000) = .finite r ∧
        |r - 501| ≤ 1 / 2 ∧ (|r - 501| = 1 / 2 → (501 : ℤ) % 2 = 0) ∧
        |r - 4517110426252607 / 2 ^ 53 * 1000| ≤
          max (|4517110426252607 / 2 ^ 53 * 1000| / 2 ^ 53) (2 ^ (-1075 : ℤ)) := by
  have hus : unitToNs.get? (String.mk ("us".data.map Char.toLower)) = some 1000 := by decide
  have hvalue : PyFloat.ofRat (5015 / 10000) = .finite (4517110426252607 / 2 ^ 53) := by
    have hlog : Int.log 2 |(5015 / 10000 : ℚ)| = -1 := by
      rw [abs_of_pos (by norm_num)]
      exact log_two_eq (by norm_num) (by norm_num)
    have hfloor : ⌊(5015 / 10000 : ℚ) / 2 ^ (max (-1 : ℤ) (-1022) - 52)⌋ = 4517110426252607 := by
      rw [Int.floor_eq_iff]
      norm_num
    simp only [PyFloat.ofRat, hlog, roundHalfEven, hfloor]
    norm_num [abs_div]
  have hproduct : PyFloat.ofRat (4517110426252607 / 2 ^ 53 * 1000) =
      .finite (8822481301274623 / 2 ^ 44) := by
    have hlog : Int.log 2 |(4517110426252607 / 2 ^ 53 * 1000 : ℚ)| = 8 := by
      rw [abs_of_pos (by norm_num)]
      exact log_two_eq (by norm_num) (by norm_num)
    have hfloor : ⌊(4517110426252607 / 2 ^ 53 * 1000 : ℚ) / 2 ^ (max (8 : ℤ) (-1022) - 52)⌋ =
        8822481301274623 := by
      rw [Int.floor_eq_iff]
      norm_num
    simp only [PyFloat.ofRat, hlog, roundHalfEven, hfloor]
    norm_num [abs_div]
  have hround : roundHalfEven (8822481301274623 / 2 ^ 44) = 501 := by
    have hfloor : ⌊(8822481301274623 / 2 ^ 44 : ℚ)⌋ = 501 := by
      rw [Int.floor_eq_iff]
      norm_num
    norm_num [roundHalfEven, hfloor]
  have hexact : roundHalfEven (5015 / 10000 * 1000) = 502 := by
    have hfloor : ⌊(5015 / 10000 * 1000 : ℚ)⌋ = 501 := by
      rw [Int.floor_eq_iff]
      norm_num
    norm_num [roundHalfEven, hfloor]
  have h : toNs (.finite (4517110426252607 / 2 ^ 53)) "us" = .ok 501 := by
    rw [toNs_of_get? _ hus, PyFloat.mulPos, hproduct, pyRound, hround]
  exact ⟨hvalue, h, hexact, (toNs_spec hus).2.1 501 h⟩

theorem keyLookup_ok {values : Dict String PyFloat} {key : String} {value : PyFloat}
    (h : keyLookup values key = .ok value) : values.get? key = some value := by
  unfold keyLookup at h
  split at h <;> cases h
  assumption

/-- The seven keys of every profile `load_profile` returns. -/
def profileKeys : List String :=
  ["LSBRead", "CSBRead", "MSBRead", "LSBWrite", "CSBWrite", "MSBWrite", "Erase"]

theorem loadProfile_keys {units : Dict String String} {values : Dict String PyFloat} {u : Updates}
    (h : loadProfile units values = .ok u) : u.keys = profileKeys := by
  obtain ⟨_, -, h⟩ := except_bind_eq_ok.mp h
  obtain ⟨_, -, h⟩ := except_bind_eq_ok.mp h
  obtain ⟨_, -, h⟩ := except_bind_eq_ok.mp h
  obtain ⟨_, -, h⟩ := except_bind_eq_ok.mp h
  obtain ⟨_, -, h⟩ := except_bind_eq_ok.mp h
  obtain ⟨_, -, h⟩ := except_bind_eq_ok.mp h
  cases h
  rfl

/-! ## Keys at the start of a line -/

theorem startsKey_iff {s : List Char} {key : String} :
    startsKey s key = true ↔ key.data ++ [' ', '='] <+: s := by
  simp [startsKey, startswith]

theorem not_prefix_of_cons_space {d : Char} {k : List Char} (h : ¬[' ', '='] <:+: d :: k)
    {s : List Char} (p₁ : [' ', '='] <+: s) (p₂ : d :: k ++ [' ', '='] <+: s) : False := by
  have hp := List.prefix_of_prefix_length_le p₁ p₂ (by simp)
  cases k with
  | nil => simp at hp
  | cons e k =>
      simp only [List.cons_append, List.cons_prefix_cons, List.nil_prefix, and_true] at hp
      obtain ⟨rfl, rfl⟩ := hp
      exact h (List.IsPrefix.isInfix (by simp))

/-- Two keys without ` =` that both start a text followed by ` =` are one key. -/
theorem eq_of_starts_both : ∀ {k₁ k₂ s : List Char}, ¬[' ', '='] <:+: k₁ →
    ¬[' ', '='] <:+: k₂ → k₁ ++ [' ', '='] <+: s → k₂ ++ [' ', '='] <+: s → k₁ = k₂
  | [], [], _, _, _, _, _ => rfl
  | [], _ :: _, _, _, h₂, p₁, p₂ => (not_prefix_of_cons_space h₂ p₁ p₂).elim
  | _ :: _, [], _, h₁, _, p₁, p₂ => (not_prefix_of_cons_space h₁ p₂ p₁).elim
  | _ :: _, _ :: _, [], _, _, p₁, _ => by simp at p₁
  | c :: k₁, d :: k₂, e :: s, h₁, h₂, p₁, p₂ => by
      simp only [List.cons_append, List.cons_prefix_cons] at p₁ p₂
      obtain ⟨rfl, p₁⟩ := p₁
      obtain ⟨rfl, p₂⟩ := p₂
      rw [eq_of_starts_both (fun h => h₁ (h.trans (List.infix_cons (List.infix_refl k₁))))
        (fun h => h₂ (h.trans (List.infix_cons (List.infix_refl k₂)))) p₁ p₂]

theorem startsKey_eq_decide {s : List Char} {key key' : String} (hkey : ¬[' ', '='] <:+: key.data)
    (hkey' : ¬[' ', '='] <:+: key'.data) (h : startsKey s key = true) :
    startsKey s key' = decide (key' = key) := by
  by_cases heq : key' = key
  · subst heq
    simpa using h
  · rw [decide_eq_false heq, Bool.eq_false_iff]
    intro h'
    rw [startsKey_iff] at h h'
    exact heq (String.ext (eq_of_starts_both hkey' hkey h' h))

theorem strip_head_not_space (s : List Char) : ∀ c ∈ (strip s).head?, isspace c = false := by
  intro c hc
  obtain ⟨u, hu⟩ : strip s <+: s.dropWhile isspace := List.rdropWhile_prefix _ _
  have hne : strip s ≠ [] := by
    rintro h
    simp [h] at hc
  have hnot := List.head?_dropWhile_not isspace s
  rw [← hu, List.head?_append_of_ne_nil _ hne, Option.mem_def.mp hc] at hnot
  exact hnot

/-- A key that starts the stripped text of a text line holds no line break and
begins with a character that is not whitespace. -/
theorem startsKey_facts {line : List Char} (hline : IsTextLine line) {key : String}
    (h : startsKey (strip line) key = true) :
    '\n' ∉ key.data ∧ '\r' ∉ key.data ∧ ∃ c rest, key.data = c :: rest ∧ isspace c = false := by
  rw [startsKey_iff] at h
  obtain ⟨lead, trail, -, -, hsplit⟩ := eq_strip_between line
  obtain ⟨u, hu⟩ := h
  have hline_eq : line = (lead ++ key.data) ++ ([' ', '='] ++ u ++ trail) := by
    rw [hsplit, ← hu]
    simp
  refine ⟨fun hm => hline.no_inner_lf ?_, fun hm => hline.no_cr ?_, ?_⟩
  · rw [hline_eq, List.dropLast_append_of_ne_nil _ (by simp)]
    simp [hm]
  · rw [hline_eq]
    simp [hm]
  · have hhead := strip_head_not_space line
    rw [← hu] at hhead
    cases hk : key.data with
    | nil => exact absurd (hhead ' ' (by simp [hk])) (by decide)
    | cons c rest => exact ⟨c, rest, rfl, hhead c (by simp [hk])⟩

theorem toString_int_chars (v : ℤ) :
    (∀ c ∈ (toString v).data, isDigit c = true ∨ c = '-') ∧
      ∀ c ∈ (toString v).data.getLast?, isDigit c = true := by
  obtain ⟨hne, hall, -⟩ := toString_nat_spec v.natAbs
  rw [toString_int_data]
  refine ⟨fun c hc => ?_, fun c hc => ?_⟩
  · rcases List.mem_append.mp hc with hc | hc
    · split at hc <;> simp_all
    · exact .inl (hall c hc)
  · rw [List.getLast?_append_of_ne_nil _ hne] at hc
    exact hall c (List.mem_of_getLast?_eq_some hc)

/-- The line written for such a key is a text line ending in a line feed, and
its stripped text is the line without it. -/
theorem updateLine_spec {key : String} (hlf : '\n' ∉ key.data) (hcr : '\r' ∉ key.data)
    (hhead : ∃ c rest, key.data = c :: rest ∧ isspace c = false) (v : ℤ) :
    IsTextLine (updateLine key v) ∧ (updateLine key v).getLast? = some '\n' ∧
      strip (updateLine key v) = key.data ++ [' ', '=', ' '] ++ (toString v).data := by
  obtain ⟨hchars, hlast⟩ := toString_int_chars v
  have hdigits : ∀ c ∈ (toString v).data, c ≠ '\n' ∧ c ≠ '\r' := fun c hc => by
    rcases hchars c hc with hd | rfl
    · constructor <;> rintro rfl <;> simp [isDigit] at hd
    · decide
  obtain ⟨c, rest, hk, hc⟩ := hhead
  have hbody : strip (key.data ++ [' ', '=', ' '] ++ (toString v).data) =
      key.data ++ [' ', '=', ' '] ++ (toString v).data := by
    refine strip_of_ends (by simp [hk, hc]) fun d hd => ?_
    obtain ⟨hne, -, -⟩ := toString_nat_spec v.natAbs
    have hne' : (toString v).data ≠ [] := by
      rw [toString_int_data]
      simp [hne]
    rw [List.getLast?_append_of_ne_nil _ hne'] at hd
    exact not_isspace_of_isDigit (hlast d hd)
  refine ⟨⟨by simp [updateLine], ?_, ?_⟩, List.getLast?_concat _, ?_⟩
  · simp only [updateLine, List.mem_append, List.mem_cons, List.mem_singleton, not_or]
    exact ⟨⟨⟨hcr, by decide⟩, fun h => (hdigits _ h).2 rfl⟩, by decide⟩
  · simp only [updateLine, List.dropLast_concat, List.mem_append, List.mem_cons,
      List.mem_singleton, not_or]
    exact ⟨⟨hlf, by decide⟩, fun h => (hdigits _ h).1 rfl⟩
  · rw [updateLine, strip_append_whitespace (by decide), hbody]

theorem find?_congr' {α : Type} {p q : α → Bool} {l : List α} (h : ∀ x ∈ l, p x = q x) :
    l.find? p = l.find? q := by
  induction l with
  | nil => rfl
  | cons x l ih =>
      simp only [List.find?_cons, h x (List.mem_cons_self x l),
        ih fun y hy => h y (List.mem_cons_of_mem x hy)]

/-! ## Two profiles in a row -/

/-- Where a key starts a text line, the first profile entry that starts it. -/
theorem replaceLine_spec (u : Updates) {line : List Char} (hline : IsTextLine line) :
    replaceLine u line = line ∨
      IsTextLine (replaceLine u line) ∧ (replaceLine u line).getLast? = some '\n' := by
  unfold replaceLine
  split
  · rename_i key value hfind
    have hstart := List.find?_some hfind
    obtain ⟨hlf, hcr, hhead⟩ := startsKey_facts hline hstart
    obtain ⟨htext, hlast, -⟩ := updateLine_spec hlf hcr hhead value
    exact .inr ⟨htext, hlast⟩
  · exact .inl rfl

theorem isTextLines_map_replaceLine (u : Updates) {lines : List (List Char)}
    (h : IsTextLines lines) : IsTextLines (lines.map (replaceLine u)) := by
  refine ⟨fun line hline => ?_, fun line hline => ?_⟩
  · obtain ⟨line, hmem, rfl⟩ := List.mem_map.mp hline
    rcases replaceLine_spec u (h.1 line hmem) with heq | ⟨htext, -⟩
    · rw [heq]
      exact h.1 line hmem
    · exact htext
  · rw [← List.map_dropLast] at hline
    obtain ⟨line, hmem, rfl⟩ := List.mem_map.mp hline
    rcases replaceLine_spec u (h.1 line (List.mem_of_mem_dropLast hmem)) with heq | ⟨-, hlast⟩
    · rw [heq]
      exact h.2 line hmem
    · exact hlast

section Profiles

variable {keys : List String} (hkeys : ∀ k ∈ keys, ¬[' ', '='] <:+: k.data)
include hkeys

/-- A line the first profile rewrote is rewritten by a second profile with the
same keys as the original line is. -/
theorem replaceLine_replaceLine {u₁ u₂ : Updates} (h₁ : u₁.keys ⊆ keys) (h₂ : u₂.keys ⊆ keys)
    (h₁₂ : u₁.keys ⊆ u₂.keys) {line : List Char} (hline : IsTextLine line) :
    replaceLine u₂ (replaceLine u₁ line) = replaceLine u₂ line := by
  cases hfind : u₁.find? (startsKey (strip line) ·.1) with
  | none => simp only [replaceLine, hfind]
  | some kv =>
      obtain ⟨K, v₁⟩ := kv
      have hmem : K ∈ u₁.keys := List.mem_map_of_mem Prod.fst (List.mem_of_find?_eq_some hfind)
      have hstart : startsKey (strip line) K = true := by simpa using List.find?_some hfind
      have hK := hkeys K (h₁ hmem)
      obtain ⟨hlf, hcr, hhead⟩ := startsKey_facts hline hstart
      obtain ⟨-, -, hstrip⟩ := updateLine_spec hlf hcr hhead v₁
      have hstart' : startsKey (strip (updateLine K v₁)) K = true := by
        rw [hstrip, startsKey_iff]
        exact ⟨' ' :: (toString v₁).data, by simp⟩
      have hcongr : ∀ x ∈ u₂,
          startsKey (strip (updateLine K v₁)) x.1 = startsKey (strip line) x.1 := fun x hx => by
        have hx := hkeys x.1 (h₂ (List.mem_map_of_mem Prod.fst hx))
        rw [startsKey_eq_decide hK hx hstart', startsKey_eq_decide hK hx hstart]
      obtain ⟨v₂, hv₂⟩ : ∃ v₂, (K, v₂) ∈ u₂ := by simpa [Dict.keys] using h₁₂ hmem
      obtain ⟨kv, hkv⟩ : ∃ kv, u₂.find? (startsKey (strip line) ·.1) = some kv :=
        Option.ne_none_iff_exists'.mp fun hnone => List.find?_eq_none.mp hnone _ hv₂ hstart
      simp only [replaceLine, hfind, find?_congr' hcongr, hkv]

/-- The second of two applications with the same keys writes the config the
second profile writes to the original, and keeps the first one's backup. -/
theorem applyConfig_applyConfig {u₁ u₂ : Updates} (h₁ : u₁.keys ⊆ keys) (h₂ : u₂.keys ⊆ keys)
    (h₁₂ : u₁.keys ⊆ u₂.keys) (files : Files) :
    applyConfig u₂ (applyConfig u₁ files) =
      { config := (applyConfig u₂ files).config, bak := (applyConfig u₁ files).bak } := by
  have hlines := isTextLines_readlines files.config.data
  have hreread : readlines (applyConfig u₁ files).config.data =
      (readlines files.config.data).map (replaceLine u₁) :=
    readlines_flatten (isTextLines_map_replaceLine u₁ hlines)
  simp only [applyConfig, Files.mk.injEq] at hreread ⊢
  refine ⟨?_, by cases files.bak <;> rfl⟩
  rw [hreread, List.map_map]
  congr 2
  exact List.map_congr_left fun line hline =>
    replaceLine_replaceLine hkeys h₁ h₂ h₁₂ (hlines.1 line hline)

/-- Over a run of applications with the same keys, the config is the last
profile applied to the original, and the backup is the first one written. -/
theorem foldl_applyConfig {u : Updates} {us : List Updates}
    (hsame : ∀ v ∈ u :: us, v.keys ⊆ keys ∧ keys ⊆ v.keys) (files : Files) :
    (u :: us).foldl (fun files u => applyConfig u files) files =
      { config := (applyConfig ((u :: us).getLast (List.cons_ne_nil u us)) files).config,
        bak := (applyConfig u files).bak } := by
  induction us generalizing u files with
  | nil => rfl
  | cons v us ih =>
      have hu := hsame u (List.mem_cons_self _ _)
      have hv := hsame v (List.mem_cons_of_mem u (List.mem_cons_self _ _))
      have hlast := hsame _ (List.mem_cons_of_mem u (List.getLast_mem (List.cons_ne_nil v us)))
      simp only [List.foldl_cons, ih fun w hw => hsame w (List.mem_cons_of_mem u hw),
        List.getLast_cons (List.cons_ne_nil v us),
        applyConfig_applyConfig hkeys hu.1 hlast.1 (hu.1.trans hlast.2),
        applyConfig_applyConfig hkeys hu.1 hv.1 (hu.1.trans hv.2)]

end Profiles

theorem replaceLine_of_forall_not_startsKey (u : Updates) {line : List Char}
    (h : ∀ k ∈ u.keys, startsKey (strip line) k = false) : replaceLine u line = line := by
  have hnone : u.find? (startsKey (strip line) ·.1) = none :=
    List.find?_eq_none.mpr fun kv hkv => by simp [h kv.1 (List.mem_map_of_mem Prod.fst hkv)]
  simp only [replaceLine, hnone]

/-- Applying profiles with one key set, none holding a space and an equals sign,
to a config with no backup: the config is the last profile applied to the
original alone, in particular applying a profile twice is applying it once; the
backup holds the original as text mode decoded it, which is the original exactly
when it has no carriage return; one application keeps the lines, rewriting only
those a key starts. -/
theorem applyConfig_run (C : String) (u : Updates) (us : List Updates)
    (hkeys : ∀ k ∈ u.keys, ¬[' ', '='] <:+: k.data)
    (hsame : ∀ v ∈ us, v.keys ⊆ u.keys ∧ u.keys ⊆ v.keys) :
    (u :: us).foldl (fun files u => applyConfig u files) ⟨C, none⟩ =
        ⟨(applyConfig ((u :: us).getLast (List.cons_ne_nil u us)) ⟨C, none⟩).config,
          some (String.mk (translateNewlines C.data))⟩ ∧
      applyConfig u (applyConfig u ⟨C, none⟩) = applyConfig u ⟨C, none⟩ ∧
      (String.mk (translateNewlines C.data) = C ↔ '\r' ∉ C.data) ∧
      readlines (applyConfig u ⟨C, none⟩).config.data = (readlines C.data).map (replaceLine u) ∧
      (readlines (applyConfig u ⟨C, none⟩).config.data).length = (readlines C.data).length ∧
      ∀ line, (∀ k ∈ u.keys, startsKey (strip line) k = false) → replaceLine u line = line := by
  have hsame' : ∀ v ∈ u :: us, v.keys ⊆ u.keys ∧ u.keys ⊆ v.keys :=
    List.forall_mem_cons.mpr ⟨⟨List.Subset.refl _, List.Subset.refl _⟩, hsame⟩
  have hlines : readlines (applyConfig u ⟨C, none⟩).config.data =
      (readlines C.data).map (replaceLine u) :=
    readlines_flatten (isTextLines_map_replaceLine u (isTextLines_readlines C.data))
  refine ⟨?_, ?_, ?_, hlines, by rw [hlines, List.length_map], fun line =>
    replaceLine_of_forall_not_startsKey u⟩
  · rw [foldl_applyConfig hkeys hsame']
    simp [applyConfig, flatten_readlines]
  · rw [applyConfig_applyConfig hkeys (List.Subset.refl _) (List.Subset.refl _) (List.Subset.refl _)]
  · rw [← translateNewlines_eq_iff, String.ext_iff]

/-- Two applications to a config with an indented key and no final newline. -/
theorem applyConfig_run_twice :
    (∀ k ∈ Dict.keys [("LSBRead", (40000 : ℤ)), ("Erase", 3000000)], ¬[' ', '='] <:+: k.data) ∧
      (∀ v ∈ [[("LSBRead", (50000 : ℤ)), ("Erase", 2000000)]],
        Dict.keys v ⊆ Dict.keys [("LSBRead", (40000 : ℤ)), ("Erase", 3000000)] ∧
        Dict.keys [("LSBRead", (40000 : ℤ)), ("Erase", 3000000)] ⊆ Dict.keys v) ∧
      [[("LSBRead", (40000 : ℤ)), ("Erase", 3000000)], [("LSBRead", 50000), ("Erase", 2000000)]].foldl
          (fun files u => applyConfig u files) ⟨"[NAND]\n  LSBRead = 1\nErase=7", none⟩ =
        ⟨(applyConfig [("LSBRead", 50000), ("Erase", 2000000)]
          ⟨"[NAND]\n  LSBRead = 1\nErase=7", none⟩).config,
          some (String.mk (translateNewlines "[NAND]\n  LSBRead = 1\nErase=7".data))⟩ :=
  ⟨by decide, by decide, (applyConfig_run "[NAND]\n  LSBRead = 1\nErase=7"
    [("LSBRead", 40000), ("Erase", 3000000)] [[("LSBRead", 50000), ("Erase", 2000000)]]
    (by decide) (by decide)).1⟩

/-- A config with a carriage return gets a backup without it. -/
theorem applyConfig_crlf_backup :
    applyConfig [("LSBRead", 40000)] ⟨"a\r\n", none⟩ = ⟨"a\n", some "a\n"⟩ := by
  decide

/-! ## Runs of the script -/

theorem foldl_invoke (profiles : List (Dict String String × Dict String PyFloat)) (files : Files) :
    profiles.foldl invoke files =
      (profiles.filterMap fun p => (loadProfile p.1 p.2).toOption).foldl
        (fun files u => applyConfig u files) files := by
  induction profiles generalizing files with
  | nil => rfl
  | cons p profiles ih =>
      cases h : loadProfile p.1 p.2 <;> simp [invoke, main, h, ih, Except.toOption, Except.map]

/-- Running the script over any sequence of profiles from a config `C` with no
backup, a run that raises leaving the files as they were: when no profile
loads the files are unchanged, and otherwise the config is the last profile
that loaded applied to `C` alone, and the backup holds `C` as text mode decoded
it. -/
theorem invoke_runs (C : String) (profiles : List (Dict String String × Dict String PyFloat)) :
    profiles.foldl invoke ⟨C, none⟩ =
      match (profiles.filterMap fun p => (loadProfile p.1 p.2).toOption).getLast? with
      | none => ⟨C, none⟩
      | some u => ⟨(applyConfig u ⟨C, none⟩).config, some (String.mk (translateNewlines C.data))⟩ := by
  rw [foldl_invoke]
  cases hl : profiles.filterMap fun p => (loadProfile p.1 p.2).toOption with
  | nil => rfl
  | cons u us =>
      have hkeys : ∀ v ∈ u :: us, v.keys ⊆ profileKeys ∧ profileKeys ⊆ v.keys := fun v hv => by
        obtain ⟨p, -, hp⟩ := List.mem_filterMap.mp (hl ▸ hv)
        cases hload : loadProfile p.1 p.2 <;>
          simp only [hload, Except.toOption, Option.some.injEq, reduceCtorEq] at hp
        subst hp
        rw [loadProfile_keys hload]
        exact ⟨List.Subset.refl _, List.Subset.refl _⟩
      rw [foldl_applyConfig (by decide) hkeys, List.getLast?_eq_getLast _ (List.cons_ne_nil u us)]
      simp [applyConfig, flatten_readlines]

end BenchIngest.SsdProfile
