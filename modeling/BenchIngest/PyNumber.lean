import BenchIngest.PyText
import Mathlib.Algebra.Order.Field.Rat
import Mathlib.Data.Int.Log
import Mathlib.Data.Rat.Floor
import Mathlib.Tactic.Linarith
import Mathlib.Tactic.Ring

/-!
# Python numbers read from text

`float(s)` and `int(s)` as CPython 3.11 evaluates them on a `str`.  Both first
turn a decimal digit of any script into its ASCII digit and any other
whitespace character into a blank, strip the whitespace, accept single
underscores between digits, and then read the whole remaining text or fail.
`int` refuses a numeral of more than 4300 digits.  `float` takes the exact value
of its literal and rounds it to the nearest double, past the largest double to
an infinity; `inf`, `-inf` and `nan` are kept apart as such.  A product by a
positive double is rounded the same way, and `round` of a float takes the
nearest integer, raising on an infinity or `nan`.  The sums and means
the scripts then take of the floats they read are exact in this model, the
reading under which their specification states them.
-/

namespace BenchIngest.Py

/-- A Python `float`: a finite value, an infinity, or `nan`. -/
inductive PyFloat
  | finite (q : ℚ)
  | inf (negative : Bool)
  | nan
  deriving DecidableEq, Repr

namespace PyFloat

/-- IEEE addition with exact finite values: `nan` absorbs, opposite infinities
give `nan`. -/
def add : PyFloat → PyFloat → PyFloat
  | nan, _ => nan
  | _, nan => nan
  | inf s, inf t => if s = t then inf s else nan
  | inf s, finite _ => inf s
  | finite _, inf t => inf t
  | finite p, finite q => finite (p + q)

/-- Division by a positive count. -/
def divNat (x : PyFloat) (n : ℕ) : PyFloat :=
  match x with
  | finite q => finite (q / n)
  | x => x

def isNan (x : PyFloat) : Bool :=
  x = nan

/-- `np.mean` of a nonempty list of floats. -/
def mean (xs : List PyFloat) : PyFloat :=
  (xs.foldl add (finite 0)).divNat xs.length

theorem foldl_add_finite (p : ℚ) (qs : List ℚ) :
    (qs.map finite).foldl add (finite p) = finite (p + qs.sum) := by
  induction qs generalizing p with
  | nil => simp
  | cons q qs ih => simp [add, ih, add_assoc]

theorem mean_finite (qs : List ℚ) : mean (qs.map finite) = finite (qs.sum / qs.length) := by
  simp [mean, foldl_add_finite, divNat]

/-- Exact addition takes its summands in any order. -/
theorem add_comm_right (x y z : PyFloat) : (x.add y).add z = (x.add z).add y := by
  rcases x with p | (_ | _) | _ <;> rcases y with q | (_ | _) | _ <;>
    rcases z with r | (_ | _) | _ <;> simp [add, add_right_comm]

theorem mean_perm {xs ys : List PyFloat} (h : xs.Perm ys) : mean xs = mean ys := by
  rw [mean, mean, h.foldl_eq' (fun x _ y _ z => add_comm_right z x y), h.length_eq]

theorem foldl_add_replicate_of_idem {x : PyFloat} (hx : add x x = x) (m : ℕ) :
    (List.replicate m x).foldl add x = x := by
  induction m with
  | zero => rfl
  | succ m ih => rw [List.replicate_succ, List.foldl_cons, hx, ih]

/-- The mean of copies of one float is that float. -/
theorem mean_replicate {n : ℕ} (hn : 0 < n) (x : PyFloat) : mean (List.replicate n x) = x := by
  obtain ⟨m, rfl⟩ : ∃ m, n = m + 1 := ⟨n - 1, by omega⟩
  cases x with
  | finite q =>
      have hsum : (List.replicate (m + 1) q).sum = (m + 1) * q := by
        induction m with
        | zero => simp
        | succ m ih =>
            rw [List.replicate_succ, List.sum_cons, ih (Nat.succ_pos m)]
            push_cast
            ring
      rw [← List.map_replicate, mean_finite, hsum, List.length_replicate]
      congr 1
      field_simp
  | inf s =>
      rw [mean, List.replicate_succ, List.foldl_cons, show (finite 0).add (inf s) = inf s from rfl,
        foldl_add_replicate_of_idem (by simp [add])]
      rfl
  | nan =>
      rw [mean, List.replicate_succ, List.foldl_cons, show (finite 0).add nan = nan from rfl,
        foldl_add_replicate_of_idem rfl]
      rfl

def isFinite : PyFloat → Bool
  | finite _ => true
  | _ => false

theorem isFinite_iff {x : PyFloat} : x.isFinite ↔ ∃ q, x = finite q := by
  cases x <;> simp [isFinite]

/-- Python's `<` on floats: `nan` is neither below nor above anything. -/
def lt : PyFloat → PyFloat → Bool
  | finite p, finite q => decide (p < q)
  | inf true, inf false => true
  | inf true, finite _ => true
  | finite _, inf false => true
  | _, _ => false

/-- Python's `==` on two float objects: `nan` equals nothing. -/
def eq (x y : PyFloat) : Bool :=
  decide (x = y) && !x.isNan

/-- A stable sort that compares with `<` keeps `x` before `y` unless `y < x`. -/
def sortLe (x y : PyFloat) : Bool :=
  !y.lt x

/-- The extended number a float other than `nan` stands for. -/
def toOrd : PyFloat → WithBot (WithTop ℚ)
  | finite q => ((q : WithTop ℚ) : WithBot (WithTop ℚ))
  | inf true => ⊥
  | inf false => ((⊤ : WithTop ℚ) : WithBot (WithTop ℚ))
  | nan => ⊥

theorem lt_eq_toOrd {x y : PyFloat} (hx : x ≠ nan) (hy : y ≠ nan) :
    x.lt y = decide (x.toOrd < y.toOrd) := by
  cases x with
  | nan => exact absurd rfl hx
  | finite p =>
      cases y with
      | nan => exact absurd rfl hy
      | finite q => simp [lt, toOrd]
      | inf b =>
          cases b
          · exact (decide_eq_true (WithBot.coe_lt_coe.mpr (WithTop.coe_lt_top p))).symm
          · simp [lt, toOrd]
  | inf a =>
      cases y with
      | nan => exact absurd rfl hy
      | finite q => cases a <;> simp [lt, toOrd]
      | inf b => cases a <;> cases b <;> simp [lt, toOrd]

theorem sortLe_eq_toOrd {x y : PyFloat} (hx : x ≠ nan) (hy : y ≠ nan) :
    x.sortLe y = decide (x.toOrd ≤ y.toOrd) := by
  rw [sortLe, lt_eq_toOrd hy hx, Bool.eq_iff_iff]
  simp [not_lt]

theorem toOrd_injective {x y : PyFloat} (hx : x ≠ nan) (hy : y ≠ nan) (h : x.toOrd = y.toOrd) :
    x = y := by
  cases x with
  | nan => exact absurd rfl hx
  | finite p =>
      cases y with
      | nan => exact absurd rfl hy
      | finite q => simpa [toOrd] using h
      | inf b => cases b <;> simp [toOrd] at h
  | inf a =>
      cases y with
      | nan => exact absurd rfl hy
      | finite q => cases a <;> simp [toOrd] at h
      | inf b => cases a <;> cases b <;> simp_all [toOrd]


end PyFloat

/-! ## Rounding -/

/-- Python's `round` on an exact number: to the nearest integer, a half to the
even one. -/
def roundHalfEven (q : ℚ) : ℤ :=
  if q - ⌊q⌋ < 1 / 2 then ⌊q⌋
  else if 1 / 2 < q - ⌊q⌋ then ⌊q⌋ + 1
  else if ⌊q⌋ % 2 = 0 then ⌊q⌋ else ⌊q⌋ + 1

/-- The binary64 double nearest `q`, of two nearest the one whose significand
is even, as `_Py_dg_strtod` rounds the value of a decimal literal.  Where
`2 ^ e ≤ |q| < 2 ^ (e + 1)` the doubles are the multiples of `2 ^ (e - 52)`,
and nowhere finer than the subnormal spacing `2 ^ (-1074)`; a result of
magnitude `2 ^ 1024` or more is the infinity of the sign of `q`.  A zero
result has no sign here. -/
def PyFloat.ofRat (q : ℚ) : PyFloat :=
  let ulp : ℚ := 2 ^ (max (Int.log 2 |q|) (-1022) - 52)
  let r : ℚ := roundHalfEven (q / ulp) * ulp
  if 2 ^ 1024 ≤ |r| then .inf (decide (q < 0)) else .finite r

/-- A float as the double it is stored in: a finite value rounded to the
nearest double. -/
def PyFloat.toDouble : PyFloat → PyFloat
  | .finite q => ofRat q
  | x => x

/-! ## Digits -/

/-- `Py_ISDIGIT`: an ASCII digit. -/
def isDigit (c : Char) : Bool :=
  '0'.toNat ≤ c.toNat && c.toNat ≤ '9'.toNat

/-- The first code point of each run of ten decimal digits, the characters of
Unicode category Nd in the Unicode 14.0.0 tables of CPython 3.11; the digit of
value `d` of a run is its first code point plus `d`. -/
def decimalRuns : List ℕ :=
  [0x30, 0x660, 0x6F0, 0x7C0, 0x966, 0x9E6, 0xA66, 0xAE6, 0xB66, 0xBE6, 0xC66, 0xCE6, 0xD66,
    0xDE6, 0xE50, 0xED0, 0xF20, 0x1040, 0x1090, 0x17E0, 0x1810, 0x1946, 0x19D0, 0x1A80, 0x1A90,
    0x1B50, 0x1BB0, 0x1C40, 0x1C50, 0xA620, 0xA8D0, 0xA900, 0xA9D0, 0xA9F0, 0xAA50, 0xABF0,
    0xFF10, 0x104A0, 0x10D30, 0x11066, 0x110F0, 0x11136, 0x111D0, 0x112F0, 0x11450, 0x114D0,
    0x11650, 0x116C0, 0x11730, 0x118E0, 0x11950, 0x11C50, 0x11D50, 0x11DA0, 0x16A60, 0x16AC0,
    0x16B50, 0x1D7CE, 0x1D7D8, 0x1D7E2, 0x1D7EC, 0x1D7F6, 0x1E140, 0x1E2F0, 0x1E950, 0x1FBF0]

/-- `Py_UNICODE_TODECIMAL`: the value of a decimal digit of any script. -/
def decimalValue (c : Char) : Option ℕ :=
  (decimalRuns.find? fun s => s ≤ c.toNat && c.toNat < s + 10).map (c.toNat - ·)

/-- `str.isdecimal` on one character, which is also what `\d` matches in a
`str` pattern. -/
def isDecimal (c : Char) : Bool :=
  (decimalValue c).isSome

/-- The number a string of decimal digits denotes. -/
def digitsValue (ds : List Char) : ℕ :=
  ds.foldl (fun n c => 10 * n + (decimalValue c).getD 0) 0

/-- `_PyUnicode_TransformDecimalAndSpaceToASCII` on one character of a text
that is not all ASCII: a decimal digit becomes its ASCII digit and a
whitespace character a blank, and any other character from `DEL` up becomes
`?`, which no number contains. -/
def asciiDecimalChar (c : Char) : Char :=
  if c.toNat < 127 then c
  else if isspace c then ' '
  else match decimalValue c with
    | some d => Char.ofNat ('0'.toNat + d)
    | none => '?'

/-- The text `int` and `float` parse from a `str`: the text itself when it is
all ASCII, else each of its characters transformed.  CPython also cuts the
text after a `?`, which fails the parse either way. -/
def transformDecimalAndSpace (s : List Char) : List Char :=
  if s.all (·.toNat < 128) then s else s.map asciiDecimalChar

/-- `Py_ISSPACE`, the whitespace `float` and `int` strip: blank, tab, line
feed, vertical tab, form feed and carriage return. -/
def numberSpace (c : Char) : Bool :=
  c.toNat = 32 || (9 ≤ c.toNat && c.toNat ≤ 13)

def numberStrip (s : List Char) : List Char :=
  (s.dropWhile numberSpace).rdropWhile numberSpace

/-- CPython's `_Py_string_to_number_with_underscores`: an underscore must stand
between two digits, and the underscores are then dropped.  `prev` is the
character read before. -/
def dropUnderscoresFrom (prev : Char) : List Char → Option (List Char)
  | [] => if prev = '_' then none else some []
  | c :: rest =>
      if c = '_' then
        if isDigit prev then dropUnderscoresFrom c rest else none
      else if prev = '_' ∧ isDigit c = false then none
      else (dropUnderscoresFrom c rest).map (c :: ·)

def dropUnderscores (s : List Char) : Option (List Char) :=
  dropUnderscoresFrom '\x00' s

/-- An optional leading sign: whether it is `-`, and the rest. -/
def takeSign : List Char → Bool × List Char
  | '-' :: rest => (true, rest)
  | '+' :: rest => (false, rest)
  | rest => (false, rest)

def signed (negative : Bool) (q : ℚ) : ℚ :=
  if negative then -q else q

/-- The exponent part of a decimal literal, which must end the text. -/
def exponentPart : List Char → Option ℤ
  | [] => some 0
  | c :: rest =>
      if c = 'e' ∨ c = 'E' then
        let (negative, r) := takeSign rest
        if r ≠ [] ∧ r.all isDigit then
          some (if negative then -(digitsValue r : ℤ) else digitsValue r)
        else none
      else none

/-- The finite literals `_Py_dg_strtod` reads in full: an optional sign, digits
with an optional fraction holding at least one digit in all, and an optional
exponent. -/
def decimalLiteral (s : List Char) : Option ℚ :=
  let (negative, r) := takeSign s
  let whole := r.takeWhile isDigit
  let (frac, r) : List Char × List Char :=
    match r.dropWhile isDigit with
    | '.' :: r => (r.takeWhile isDigit, r.dropWhile isDigit)
    | r => ([], r)
  if whole ++ frac = [] then none
  else (exponentPart r).map fun (e : ℤ) =>
    signed negative (digitsValue (whole ++ frac) * (10 : ℚ) ^ (e - (frac.length : ℤ)))

/-- `_Py_parse_inf_or_nan`, read in full and ignoring ASCII case. -/
def infOrNan (s : List Char) : Option PyFloat :=
  let (negative, r) := takeSign s
  let r := r.map Char.toLower
  if r = "inf".toList ∨ r = "infinity".toList then some (.inf negative)
  else if r = "nan".toList then some .nan
  else none

/-- What `float` reads from a `str` before rounding: the exact value of its
literal, an infinity or `nan`. -/
def floatLiteral (s : List Char) : Option PyFloat :=
  (dropUnderscores (numberStrip (transformDecimalAndSpace s))).bind fun t =>
    match decimalLiteral t with
    | some q => some (.finite q)
    | none => infOrNan t

/-- `float(s)` for a `str`: its literal rounded to the nearest double. -/
def float (s : List Char) : Option PyFloat :=
  (floatLiteral s).map PyFloat.toDouble

/-- `sys.int_info.default_max_str_digits`: `int` of a `str` raises
`ValueError` on a numeral of more digits. -/
def maxStrDigits : ℕ := 4300

/-- `int(s)` for a `str`, in base ten. -/
def int (s : List Char) : Option ℤ :=
  (dropUnderscores (numberStrip (transformDecimalAndSpace s))).bind fun t =>
    let (negative, r) := takeSign t
    if r ≠ [] ∧ r.all isDigit ∧ r.length ≤ maxStrDigits then
      some (if negative then -(digitsValue r : ℤ) else digitsValue r)
    else none

/-- `float(n)` of a Python `int`: the nearest double, raising `OverflowError`
past the largest one. -/
def intToFloat (n : ℤ) : Except String PyFloat :=
  match PyFloat.ofRat n with
  | .finite q => .ok (.finite q)
  | _ => .error "int too large to convert to float"

/-- `x * c` for a positive double `c`: the exact product rounded to the nearest
double; an infinity keeps its sign and `nan` stays `nan`. -/
def PyFloat.mulPos (x : PyFloat) (c : ℚ) : PyFloat :=
  match x with
  | .finite q => ofRat (q * c)
  | x => x

/-- `round(x)` of a float, an `int`: the nearest integer, of two nearest the
even one. -/
def pyRound : PyFloat → Except String ℤ
  | .finite q => .ok (roundHalfEven q)
  | .inf _ => .error "cannot convert float infinity to integer"
  | .nan => .error "cannot convert float NaN to integer"

section Rounding

/-- Python's `round` gives a nearest integer, and of two nearest the even one. -/
theorem roundHalfEven_nearest (q : ℚ) :
    |q - roundHalfEven q| ≤ 1 / 2 ∧ (|q - roundHalfEven q| = 1 / 2 → roundHalfEven q % 2 = 0) := by
  have hsucc : q - ((⌊q⌋ + 1 : ℤ) : ℚ) = q - ⌊q⌋ - 1 := by push_cast; ring
  have h0 : 0 ≤ q - ⌊q⌋ := Int.fract_nonneg q
  have h1 : q - ⌊q⌋ < 1 := Int.fract_lt_one q
  unfold roundHalfEven
  split_ifs with hlo hhi heven
  · rw [abs_of_nonneg h0]
    exact ⟨hlo.le, fun h => absurd h hlo.ne⟩
  · rw [hsucc, abs_of_neg (sub_neg.mpr h1), neg_sub]
    have hlt : 1 - (q - ⌊q⌋) < 1 / 2 := by linarith
    exact ⟨hlt.le, fun h => absurd h hlt.ne⟩
  · have hhalf : q - ⌊q⌋ = 1 / 2 := le_antisymm (not_lt.mp hhi) (not_lt.mp hlo)
    rw [abs_of_nonneg h0]
    exact ⟨hhalf.le, fun _ => heven⟩
  · have hhalf : q - ⌊q⌋ = 1 / 2 := le_antisymm (not_lt.mp hhi) (not_lt.mp hlo)
    rw [hsucc, hhalf]
    exact ⟨by norm_num [abs_le], fun _ => by omega⟩

@[simp] theorem roundHalfEven_intCast (z : ℤ) : roundHalfEven z = z := by
  simp [roundHalfEven]

/-- Rounding `q` to a multiple of `u` moves it by at most `u / 2`. -/
theorem abs_roundHalfEven_mul_sub_le (q : ℚ) {u : ℚ} (hu : 0 < u) :
    |roundHalfEven (q / u) * u - q| ≤ u / 2 := by
  have hround := (roundHalfEven_nearest (q / u)).1
  have hdiff : roundHalfEven (q / u) * u - q = -((q / u - roundHalfEven (q / u)) * u) := by
    field_simp
    ring
  rw [hdiff, abs_neg, abs_mul, abs_of_pos hu]
  nlinarith

/-- The binade of a positive value. -/
theorem log_two_eq {q : ℚ} {e : ℤ} (hlo : (2 : ℚ) ^ e ≤ q) (hhi : q < 2 ^ (e + 1)) :
    Int.log 2 q = e := by
  have hq : 0 < q := lt_of_lt_of_le (zpow_pos two_pos e) hlo
  refine le_antisymm ?_ ?_
  · have := (Int.lt_zpow_iff_log_lt (b := 2) one_lt_two hq).mp (by exact_mod_cast hhi)
    omega
  · exact (Int.zpow_le_iff_le_log (b := 2) one_lt_two hq).mp (by exact_mod_cast hlo)

theorem eq_of_ofRat_eq_finite {q r : ℚ} (h : PyFloat.ofRat q = .finite r) :
    r = roundHalfEven (q / 2 ^ (max (Int.log 2 |q|) (-1022) - 52)) *
      2 ^ (max (Int.log 2 |q|) (-1022) - 52) := by
  unfold PyFloat.ofRat at h
  dsimp only at h
  split at h
  · cases h
  · cases h
    rfl

/-- The double nearest `q` is within half a spacing of it: a relative error of
at most `2 ^ (-53)`, or `2 ^ (-1075)` among the subnormals. -/
theorem ofRat_error {q r : ℚ} (h : PyFloat.ofRat q = .finite r) :
    |r - q| ≤ max (|q| / 2 ^ 53) (2 ^ (-1075 : ℤ)) := by
  have hr := eq_of_ofRat_eq_finite h
  rcases eq_or_ne q 0 with rfl | hq
  · have h0 : roundHalfEven 0 = 0 := by simpa using roundHalfEven_intCast 0
    simp [hr, h0]
  set L := Int.log 2 |q|
  have herr := abs_roundHalfEven_mul_sub_le q (zpow_pos two_pos (max L (-1022) - 52))
  rw [← hr] at herr
  refine herr.trans ?_
  rcases le_total L (-1022) with hL | hL
  · refine le_max_of_le_right (le_of_eq ?_)
    rw [max_eq_right hL, show (-1022 - 52 : ℤ) = -1075 + 1 by norm_num, zpow_add_one₀ two_ne_zero]
    ring
  · refine le_max_of_le_left ?_
    have hlog : (2 : ℚ) ^ L ≤ |q| := by
      exact_mod_cast Int.zpow_log_le_self (b := 2) one_lt_two (abs_pos.mpr hq)
    calc (2 : ℚ) ^ (max L (-1022) - 52) / 2 = 2 ^ L / 2 ^ 53 := by
          rw [max_eq_left hL, zpow_sub₀ two_ne_zero, div_div]
          norm_num
      _ ≤ |q| / 2 ^ 53 := div_le_div_of_nonneg_right hlog (by positivity)

/-- A value on the grid of its binade, and short of `2 ^ 1024`, is a double. -/
theorem ofRat_of_grid {q : ℚ} (m : ℤ) (hq : q = m * 2 ^ (max (Int.log 2 |q|) (-1022) - 52))
    (hbig : |q| < 2 ^ 1024) : PyFloat.ofRat q = .finite q := by
  have hulp : (2 : ℚ) ^ (max (Int.log 2 |q|) (-1022) - 52) ≠ 0 := zpow_ne_zero _ two_ne_zero
  have hdiv : q / 2 ^ (max (Int.log 2 |q|) (-1022) - 52) = m := by
    rw [div_eq_iff hulp]
    exact hq
  simp only [PyFloat.ofRat, hdiv, roundHalfEven_intCast, ← hq, if_neg (not_le.mpr hbig)]

/-- Every natural number up to `2 ^ 53` is a double. -/
theorem ofRat_natCast {n : ℕ} (hn : n ≤ 2 ^ 53) : PyFloat.ofRat n = .finite n := by
  have hbig : |(n : ℚ)| < 2 ^ 1024 := by
    rw [Nat.abs_cast]
    exact lt_of_le_of_lt (show (n : ℚ) ≤ 2 ^ 53 by exact_mod_cast hn) (by norm_num)
  have hlog : Int.log 2 |(n : ℚ)| = Nat.log 2 n := by
    rw [Nat.abs_cast, Int.log_natCast]
  have hle : Nat.log 2 n ≤ 53 :=
    (Nat.log_mono_right hn).trans (Nat.log_pow (by norm_num) 53).le
  rcases Nat.eq_zero_or_pos n with rfl | hpos
  · exact ofRat_of_grid 0 (by simp) hbig
  rcases hle.lt_or_eq with hlt | heq
  · refine ofRat_of_grid (n * 2 ^ (52 - Nat.log 2 n)) ?_ hbig
    rw [hlog, max_eq_left (by omega)]
    have hsplit : ((Nat.log 2 n : ℤ) - 52) = -((52 - Nat.log 2 n : ℕ) : ℤ) := by omega
    rw [hsplit, zpow_neg, zpow_natCast]
    push_cast
    field_simp
  · have htop : n = 2 ^ 53 :=
      le_antisymm hn (heq ▸ Nat.pow_log_le_self 2 hpos.ne')
    refine ofRat_of_grid (2 ^ 52) ?_ hbig
    rw [hlog, heq, htop]
    norm_num

/-- A value short of `2 ^ 1023` rounds to a finite double. -/
theorem ofRat_finite_of_lt {q : ℚ} (hq : |q| < 2 ^ 1023) : ∃ r, PyFloat.ofRat q = .finite r := by
  have hlog : Int.log 2 |q| < 1023 := by
    rcases (abs_nonneg q).eq_or_lt with h0 | hpos
    · rw [← h0, Int.log_zero_right]
      norm_num
    · refine (Int.lt_zpow_iff_log_lt (by norm_num) hpos).mp ?_
      have h1023 : ((2 : ℕ) : ℚ) ^ (1023 : ℤ) = 2 ^ 1023 := by
        rw [Nat.cast_ofNat, ← zpow_natCast]
        rfl
      rwa [h1023]
  set e := max (Int.log 2 |q|) (-1022) - 52 with he
  have hulp : (2 : ℚ) ^ e ≤ 2 ^ (970 : ℤ) := zpow_le_zpow_right₀ (by norm_num) (by omega)
  have herr := abs_roundHalfEven_mul_sub_le q (zpow_pos two_pos e)
  have hbound : |(roundHalfEven (q / 2 ^ e) : ℚ) * 2 ^ e| < 2 ^ 1024 := by
    have htri := abs_sub_abs_le_abs_sub ((roundHalfEven (q / 2 ^ e) : ℚ) * 2 ^ e) q
    have h970 : (2 : ℚ) ^ (970 : ℤ) = 2 ^ 970 := zpow_natCast 2 970
    have : (2 : ℚ) ^ 970 ≤ 2 ^ 1023 := pow_le_pow_right₀ (by norm_num) (by norm_num)
    have : (2 : ℚ) ^ 1024 = 2 * 2 ^ 1023 := by ring
    linarith
  exact ⟨_, if_neg (not_le.mpr hbound)⟩

/-- A natural number short of `2 ^ 1023` converts to a finite double. -/
theorem intToFloat_natCast {n : ℕ} (hn : n < 2 ^ 1023) : ∃ r, intToFloat n = .ok (.finite r) := by
  have hq : |((n : ℤ) : ℚ)| < 2 ^ 1023 := by
    rw [Int.cast_natCast, Nat.abs_cast]
    calc (n : ℚ) < ((2 ^ 1023 : ℕ) : ℚ) := Nat.cast_lt.mpr hn
      _ = 2 ^ 1023 := by rw [Nat.cast_pow, Nat.cast_ofNat]
  obtain ⟨r, hr⟩ := ofRat_finite_of_lt hq
  refine ⟨r, ?_⟩
  unfold intToFloat
  rw [hr]

/-- An integer from 0 to `2 ^ 53` converts to the double of its value. -/
theorem intToFloat_of_le {n : ℤ} (h0 : 0 ≤ n) (hn : n ≤ 2 ^ 53) : intToFloat n = .ok (.finite n) := by
  obtain ⟨m, rfl⟩ := Int.eq_ofNat_of_zero_le h0
  have hm : m ≤ 2 ^ 53 := by exact_mod_cast hn
  unfold intToFloat
  rw [Int.cast_natCast, ofRat_natCast hm]

theorem intToFloat_isFinite {n : ℤ} {x : PyFloat} (h : intToFloat n = .ok x) : x.isFinite := by
  unfold intToFloat at h
  split at h
  · cases h
    rfl
  · cases h

/-- `2 ^ 53 + 1` is halfway between two doubles and rounds to the even one,
`2 ^ 53`. -/
theorem ofRat_two_pow_53_add_one : PyFloat.ofRat (2 ^ 53 + 1) = .finite (2 ^ 53) := by
  have hlog : Int.log 2 |(2 ^ 53 + 1 : ℚ)| = 53 := by
    have hcast : |(2 ^ 53 + 1 : ℚ)| = ((2 ^ 53 + 1 : ℕ) : ℚ) := by norm_num
    have hnat : Nat.log 2 (2 ^ 53 + 1) = 53 := by
      rw [Nat.log_eq_iff (by norm_num)]
      norm_num
    rw [hcast, Int.log_natCast, hnat]
    rfl
  have hfloor : ⌊(2 ^ 53 + 1 : ℚ) / 2 ^ (53 - 52 : ℤ)⌋ = 2 ^ 52 := by
    rw [Int.floor_eq_iff]
    norm_num
  simp only [PyFloat.ofRat, hlog, roundHalfEven, hfloor]
  norm_num

end Rounding

section Digits

theorem decimalValue_eq_some {c : Char} {d : ℕ} (h : decimalValue c = some d) :
    ∃ s ∈ decimalRuns, c.toNat = s + d ∧ d < 10 := by
  obtain ⟨s, hs, rfl⟩ := Option.map_eq_some'.mp h
  have hrange := List.find?_some hs
  simp only [Bool.and_eq_true, decide_eq_true_eq] at hrange
  exact ⟨s, List.mem_of_find?_eq_some hs, by omega, by omega⟩

/-- No decimal digit is whitespace. -/
theorem not_isspace_of_isDecimal {c : Char} (h : isDecimal c = true) : isspace c = false := by
  have hruns : ∀ s ∈ decimalRuns, ∀ d < 10, ((0x09 ≤ s + d && s + d ≤ 0x0D) ||
      (0x1C ≤ s + d && s + d ≤ 0x20) || s + d == 0x85 || s + d == 0xA0 || s + d == 0x1680 ||
      (0x2000 ≤ s + d && s + d ≤ 0x200A) || s + d == 0x2028 || s + d == 0x2029 ||
      s + d == 0x202F || s + d == 0x205F || s + d == 0x3000) = false := by decide
  obtain ⟨d, hd⟩ := Option.isSome_iff_exists.mp h
  obtain ⟨s, hs, hc, hlt⟩ := decimalValue_eq_some hd
  unfold isspace
  rw [hc]
  exact hruns s hs d hlt

theorem decimalRuns_eq_cons : decimalRuns = 0x30 :: decimalRuns.tail := rfl

theorem decimalValue_of_isDigit {c : Char} (h : isDigit c = true) :
    decimalValue c = some (c.toNat - '0'.toNat) := by
  simp only [isDigit, Bool.and_eq_true, decide_eq_true_eq] at h
  have hfirst : (0x30 ≤ c.toNat && c.toNat < 0x30 + 10) = true := by
    simp only [Bool.and_eq_true, decide_eq_true_eq]
    simp at h
    omega
  rw [decimalValue, decimalRuns_eq_cons]
  simp only [List.find?_cons, hfirst, Option.map_some']
  rfl

theorem isDecimal_of_isDigit {c : Char} (h : isDigit c = true) : isDecimal c = true := by
  simp [isDecimal, decimalValue_of_isDigit h]

/-- Below the second run the decimal digits are the ASCII ones. -/
theorem isDecimal_eq_isDigit {c : Char} (h : c.toNat < 0x660) : isDecimal c = isDigit c := by
  cases hd : isDigit c
  · have hrest : ∀ s ∈ decimalRuns.tail, ¬(s ≤ c.toNat && c.toNat < s + 10) = true := by
      have hbig : ∀ s ∈ decimalRuns.tail, 0x660 ≤ s := by decide
      intro s hs hin
      simp only [Bool.and_eq_true, decide_eq_true_eq] at hin
      exact absurd (hbig s hs) (by omega)
    have hfirst : ¬(0x30 ≤ c.toNat && c.toNat < 0x30 + 10) = true := by
      simp only [isDigit, Bool.and_eq_false_iff, decide_eq_false_iff_not] at hd
      simp only [Bool.and_eq_true, decide_eq_true_eq]
      simp at hd
      omega
    rw [isDecimal, decimalValue, decimalRuns_eq_cons]
    simp only [List.find?_cons, Bool.not_eq_true] at hfirst ⊢
    simp only [hfirst, List.find?_eq_none.mpr hrest, Option.map_none', Option.isSome_none]
  · exact isDecimal_of_isDigit hd

/-- The ASCII digit of each value. -/
theorem asciiDigit_spec : ∀ d < 10,
    isDigit (Char.ofNat ('0'.toNat + d)) = true ∧ decimalValue (Char.ofNat ('0'.toNat + d)) = some d ∧
      (Char.ofNat ('0'.toNat + d)).toNat < 127 := by
  decide

theorem asciiDecimalChar_of_decimalValue {c : Char} {d : ℕ} (h : decimalValue c = some d) :
    asciiDecimalChar c = Char.ofNat ('0'.toNat + d) := by
  have hspace := not_isspace_of_isDecimal (c := c) (by simp [isDecimal, h])
  by_cases hascii : c.toNat < 127
  · have hdigit : isDigit c = true := by
      rw [← isDecimal_eq_isDigit (by omega)]
      simp [isDecimal, h]
    rw [decimalValue_of_isDigit hdigit, Option.some.injEq] at h
    rw [asciiDecimalChar, if_pos hascii, ← h, Nat.add_sub_cancel' (by
      simp only [isDigit, Bool.and_eq_true, decide_eq_true_eq] at hdigit
      exact hdigit.1), Char.ofNat_toNat]
  · simp [asciiDecimalChar, hascii, hspace, h]

/-- A string of decimal digits is read as the string of their ASCII digits. -/
theorem transformDecimalAndSpace_of_decimals {ds : List Char} (h : ∀ c ∈ ds, isDecimal c = true) :
    transformDecimalAndSpace ds = ds.map asciiDecimalChar := by
  unfold transformDecimalAndSpace
  split
  · next hascii =>
      refine (List.map_congr_left fun c hc => ?_).trans (List.map_id ds) |>.symm
      obtain ⟨d, hd⟩ := Option.isSome_iff_exists.mp (h c hc)
      have hlt : c.toNat < 127 := by
        have := List.all_eq_true.mp hascii c hc
        have hne : c.toNat ≠ 127 := fun h127 => by
          have hnone : decimalValue c = none := by
            simp [decimalValue, h127, decimalRuns]
          rw [hnone] at hd
          cases hd
        simp at this
        omega
      simp [asciiDecimalChar, hlt]
  · rfl

theorem transformDecimalAndSpace_of_ascii {s : List Char} (h : ∀ c ∈ s, c.toNat < 128) :
    transformDecimalAndSpace s = s := by
  rw [transformDecimalAndSpace, if_pos (List.all_eq_true.mpr fun c hc => decide_eq_true (h c hc))]

theorem digitsValue_append (xs ys : List Char) :
    digitsValue (xs ++ ys) = digitsValue xs * 10 ^ ys.length + digitsValue ys := by
  have hfold : ∀ (n : ℕ) (ys : List Char),
      ys.foldl (fun n c => 10 * n + (decimalValue c).getD 0) n =
        n * 10 ^ ys.length + digitsValue ys := by
    intro n ys
    induction ys generalizing n with
    | nil => simp [digitsValue]
    | cons c ys ih =>
        have hcons : digitsValue (c :: ys) =
            (10 * 0 + (decimalValue c).getD 0) * 10 ^ ys.length + digitsValue ys := ih _
        rw [List.foldl_cons, ih, hcons, List.length_cons, pow_succ]
        ring
  simp only [digitsValue, List.foldl_append]
  exact hfold _ ys

theorem digitsValue_cons (c : Char) (ys : List Char) :
    digitsValue (c :: ys) = (decimalValue c).getD 0 * 10 ^ ys.length + digitsValue ys := by
  simpa [digitsValue] using digitsValue_append [c] ys

theorem getD_decimalValue_lt (c : Char) : (decimalValue c).getD 0 < 10 := by
  cases h : decimalValue c with
  | none => decide
  | some d =>
      obtain ⟨-, -, -, hd⟩ := decimalValue_eq_some h
      exact hd

/-- A numeral of `k` digits denotes a number below `10 ^ k`. -/
theorem digitsValue_lt (ds : List Char) : digitsValue ds < 10 ^ ds.length := by
  induction ds with
  | nil => simp [digitsValue]
  | cons c ds ih =>
      rw [digitsValue_cons, List.length_cons, pow_succ]
      have := getD_decimalValue_lt c
      nlinarith

/-- Turning decimal digits into ASCII ones keeps the number they denote. -/
theorem digitsValue_map_asciiDecimalChar {ds : List Char} (h : ∀ c ∈ ds, isDecimal c = true) :
    digitsValue (ds.map asciiDecimalChar) = digitsValue ds := by
  induction ds with
  | nil => rfl
  | cons c ds ih =>
      obtain ⟨d, hd⟩ := Option.isSome_iff_exists.mp (h c (List.mem_cons_self c ds))
      obtain ⟨-, -, -, hd10⟩ := decimalValue_eq_some hd
      obtain ⟨-, hd', -⟩ := asciiDigit_spec d hd10
      rw [List.map_cons, digitsValue_cons, digitsValue_cons, asciiDecimalChar_of_decimalValue hd, hd',
        hd, List.length_map, ih fun c hc => h c (List.mem_cons_of_mem _ hc)]

theorem isDigit_asciiDecimalChar {c : Char} (h : isDecimal c = true) :
    isDigit (asciiDecimalChar c) = true ∧ (asciiDecimalChar c).toNat < 127 := by
  obtain ⟨d, hd⟩ := Option.isSome_iff_exists.mp h
  rw [asciiDecimalChar_of_decimalValue hd]
  obtain ⟨-, -, -, hd10⟩ := decimalValue_eq_some hd
  obtain ⟨hdigit, -, hlt⟩ := asciiDigit_spec d hd10
  exact ⟨hdigit, hlt⟩

end Digits

section Numerals

theorem toDigitsCore_succ (fuel n : ℕ) (ds : List Char) :
    Nat.toDigitsCore 10 (fuel + 1) n ds =
      if n / 10 = 0 then Nat.digitChar (n % 10) :: ds
      else Nat.toDigitsCore 10 fuel (n / 10) (Nat.digitChar (n % 10) :: ds) :=
  rfl

theorem digitChar_spec : ∀ k < 10,
    isDigit (Nat.digitChar k) = true ∧ decimalValue (Nat.digitChar k) = some k := by
  decide

theorem toDigitsCore_spec (fuel n : ℕ) (ds : List Char) (hn : n < fuel) :
    (∀ c ∈ Nat.toDigitsCore 10 fuel n ds, isDigit c = true ∨ c ∈ ds) ∧
      ds.length < (Nat.toDigitsCore 10 fuel n ds).length ∧
      digitsValue (Nat.toDigitsCore 10 fuel n ds) = n * 10 ^ ds.length + digitsValue ds := by
  induction fuel generalizing n ds with
  | zero => omega
  | succ fuel ih =>
      obtain ⟨hdigit, hvalue⟩ := digitChar_spec (n % 10) (Nat.mod_lt _ (by norm_num))
      have hsplit : 10 * (n / 10) + n % 10 = n := Nat.div_add_mod n 10
      have hcons : ∀ c ∈ Nat.digitChar (n % 10) :: ds, isDigit c = true ∨ c ∈ ds := by
        intro c hc
        rcases List.mem_cons.mp hc with rfl | hc
        · exact Or.inl hdigit
        · exact Or.inr hc
      rw [toDigitsCore_succ]
      split
      · next h =>
          have hsmall : n % 10 = n := by omega
          refine ⟨hcons, by simp, ?_⟩
          rw [digitsValue_cons, hvalue, Option.getD_some, hsmall]
      · next h =>
          obtain ⟨hall, hlen, hval⟩ := ih (n / 10) (Nat.digitChar (n % 10) :: ds) (by omega)
          refine ⟨fun c hc => ?_, by simp at hlen; omega, ?_⟩
          · rcases hall c hc with hc | hc
            · exact Or.inl hc
            · exact hcons c hc
          · rw [hval, digitsValue_cons, hvalue, Option.getD_some, List.length_cons, pow_succ]
            calc n / 10 * (10 ^ ds.length * 10) + (n % 10 * 10 ^ ds.length + digitsValue ds)
                = (10 * (n / 10) + n % 10) * 10 ^ ds.length + digitsValue ds := by ring
              _ = n * 10 ^ ds.length + digitsValue ds := by rw [hsplit]

theorem not_isspace_of_isDigit {c : Char} (hc : isDigit c = true) : isspace c = false :=
  not_isspace_of_isDecimal (isDecimal_of_isDigit hc)

/-- The decimal numeral Python prints for a natural number: nonempty, all
digits, and worth the number. -/
theorem toString_nat_spec (n : ℕ) :
    (toString n).data ≠ [] ∧ (∀ c ∈ (toString n).data, isDigit c = true) ∧
      digitsValue (toString n).data = n := by
  have hdata : (toString n).data = Nat.toDigitsCore 10 (n + 1) n [] := rfl
  obtain ⟨hall, hlen, hval⟩ := toDigitsCore_spec (n + 1) n [] (by omega)
  rw [hdata]
  refine ⟨List.ne_nil_of_length_pos hlen, fun c hc => by simpa using hall c hc, ?_⟩
  rw [hval]
  simp [digitsValue]

/-- The numeral Python prints for an integer: a minus sign where it is
negative, then the numeral of its absolute value. -/
theorem toString_int_data (v : ℤ) :
    (toString v).data = (if v < 0 then ['-'] else []) ++ (toString v.natAbs).data := by
  cases v with
  | ofNat m => simp [toString, Int.natCast_nonneg]
  | negSucc m => simp [toString, Int.negSucc_lt_zero]

theorem numberStrip_of_no_space {s : List Char} (h : ∀ c ∈ s, numberSpace c = false) :
    numberStrip s = s := by
  have hdrop : ∀ t : List Char, (∀ c ∈ t, numberSpace c = false) → t.dropWhile numberSpace = t
    | [], _ => rfl
    | c :: t, ht => by simp [List.dropWhile_cons, ht c (List.mem_cons_self c t)]
  unfold numberStrip List.rdropWhile
  rw [hdrop s h, hdrop s.reverse (fun c hc => h c (List.mem_reverse.mp hc)), List.reverse_reverse]

theorem dropUnderscoresFrom_of_no_underscore {prev : Char} (hprev : prev ≠ '_') :
    ∀ {s : List Char}, '_' ∉ s → dropUnderscoresFrom prev s = some s
  | [], _ => by simp [dropUnderscoresFrom, hprev]
  | c :: s, h => by
      simp only [List.mem_cons, not_or] at h
      simp [dropUnderscoresFrom, Ne.symm h.1, hprev,
        dropUnderscoresFrom_of_no_underscore (Ne.symm h.1) h.2]

/-- A string of ASCII digits passes the transform, the stripping, the
underscore rule and the sign unchanged. -/
theorem numeral_preprocess {ds : List Char} (hne : ds ≠ []) (hall : ∀ c ∈ ds, isDigit c = true) :
    dropUnderscores (numberStrip (transformDecimalAndSpace ds)) = some ds ∧
      takeSign ds = (false, ds) := by
  have hdigit : ∀ c ∈ ds, '0'.toNat ≤ c.toNat ∧ c.toNat ≤ '9'.toNat := fun c hc => by
    simpa only [isDigit, Bool.and_eq_true, decide_eq_true_eq] using hall c hc
  have hspace : ∀ c ∈ ds, numberSpace c = false := fun c hc => by
    have := hdigit c hc
    simp only [numberSpace, Bool.or_eq_false_iff, Bool.and_eq_false_iff, decide_eq_false_iff_not]
    simp at this
    omega
  have hunder : '_' ∉ ds := fun h => by simpa [isDigit] using hall '_' h
  have hstrip : dropUnderscores (numberStrip (transformDecimalAndSpace ds)) = some ds := by
    rw [transformDecimalAndSpace_of_ascii fun c hc => by have := hdigit c hc; simp at this; omega,
      numberStrip_of_no_space hspace]
    exact dropUnderscoresFrom_of_no_underscore (by decide) hunder
  refine ⟨hstrip, ?_⟩
  obtain ⟨c, rest, rfl⟩ := List.exists_cons_of_ne_nil hne
  have hc := hall c (List.mem_cons_self c rest)
  have hminus : c ≠ '-' := by rintro rfl; simp [isDigit] at hc
  have hplus : c ≠ '+' := by rintro rfl; simp [isDigit] at hc
  simp [takeSign, hminus, hplus]

/-- `float` reads a string of digits as the number it denotes, rounded to a
double. -/
theorem floatLiteral_numeral {ds : List Char} (hne : ds ≠ []) (hall : ∀ c ∈ ds, isDigit c = true) :
    floatLiteral ds = some (.finite (digitsValue ds)) := by
  obtain ⟨hclean, hsign⟩ := numeral_preprocess hne hall
  have htake : ds.takeWhile isDigit = ds := List.takeWhile_eq_self_iff.mpr hall
  have hdrop : ds.dropWhile isDigit = [] := List.dropWhile_eq_nil_iff.mpr hall
  obtain ⟨c, rest, rfl⟩ := List.exists_cons_of_ne_nil hne
  simp [floatLiteral, hclean, decimalLiteral, hsign, htake, hdrop, exponentPart, signed,
    hall c (List.mem_cons_self c rest)]

theorem float_numeral {ds : List Char} (hne : ds ≠ []) (hall : ∀ c ∈ ds, isDigit c = true) :
    float ds = some (.ofRat (digitsValue ds)) := by
  simp [float, floatLiteral_numeral hne hall, PyFloat.toDouble]

/-- `int` reads a string of decimal digits of any script, leading zeros
included, as the number it denotes, unless it has more than 4300 of them. -/
theorem int_decimals {ds : List Char} (hne : ds ≠ []) (hall : ∀ c ∈ ds, isDecimal c = true) :
    int ds = if ds.length ≤ maxStrDigits then some (digitsValue ds : ℤ) else none := by
  have hascii : ∀ c ∈ ds.map asciiDecimalChar, isDigit c = true := by
    simp only [List.mem_map]
    rintro _ ⟨c, hc, rfl⟩
    exact (isDigit_asciiDecimalChar (hall c hc)).1
  have hne' : ds.map asciiDecimalChar ≠ [] := by simpa using hne
  obtain ⟨hclean, hsign⟩ := numeral_preprocess hne' hascii
  have hlt : ∀ c ∈ ds.map asciiDecimalChar, c.toNat < 128 := by
    simp only [List.mem_map]
    rintro _ ⟨c, hc, rfl⟩
    exact Nat.lt_succ_of_lt (isDigit_asciiDecimalChar (hall c hc)).2
  rw [transformDecimalAndSpace_of_ascii hlt] at hclean
  have hdigits := List.all_eq_true.mpr hascii
  simp only [int, transformDecimalAndSpace_of_decimals hall, hclean, Option.some_bind, hsign,
    hne', hdigits, List.length_map, ne_eq, not_false_eq_true, true_and,
    digitsValue_map_asciiDecimalChar hall, Bool.false_eq_true, if_false]

end Numerals

end BenchIngest.Py
