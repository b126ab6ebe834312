import Mathlib.Algebra.Ring.Int.Defs
import Mathlib.Algebra.Ring.Nat
import Mathlib.Data.List.DropRight
import ForwardProxy.Lib.Search
import ForwardProxy.Lib.Lines

/-!
# Byte strings

A `std::string` is a list of bytes, and a position in it is a natural number, with `none` for
`npos`. This module has the string operations that `http.hpp` uses: its own `to_lower` and `trim`,
and the library's `find`, `rfind`, `getline`, `strtol`, `atoi`, and `to_string`, in the C locale.
-/

namespace ForwardProxy

/-- A byte of a `std::string`. -/
abbrev Byte := UInt8
/-- A `std::string`, which may hold any bytes, NUL among them. -/
abbrev Bytes := List Byte

/-- A string literal of the source, which is ASCII throughout. -/
def str (s : String) : Bytes := s.toList.map fun c => UInt8.ofNat c.toNat

/-- `'\r'`. -/
abbrev CR : Byte := 13
/-- `'\n'`. -/
abbrev LF : Byte := 10
/-- `' '`. -/
abbrev SP : Byte := 32
/-- `'\t'`. -/
abbrev TAB : Byte := 9
/-- `'\0'`. -/
abbrev NUL : Byte := 0
/-- `':'`. -/
abbrev COLON : Byte := 58
/-- `'/'`. -/
abbrev SLASH : Byte := 47
/-- `'*'`. -/
abbrev STAR : Byte := 42

/-! ## Searching -/

/-- `std::string::find` from the start. -/
def find (s pat : Bytes) : Option ℕ := Lib.Search.find pat s

/-- `std::string::find` from position `pos`. -/
def findFrom (s pat : Bytes) (pos : ℕ) : Option ℕ := (find (s.drop pos) pat).map (pos + ·)

/-- The position that `findFrom` returns is the first from `pos` on. -/
theorem findFrom_eq_some_iff {s pat : Bytes} {pos e : ℕ} : findFrom s pat pos = some e ↔
    pos ≤ e ∧ Lib.Search.OccursAt pat s e ∧
      ∀ i, pos ≤ i → i < e → ¬Lib.Search.OccursAt pat s i := by
  unfold findFrom find
  rw [Option.map_eq_some_iff]
  constructor
  · rintro ⟨p, hp, rfl⟩
    obtain ⟨hocc, hmin⟩ := Lib.Search.find_eq_some_iff.mp hp
    rw [Lib.Search.occursAt_drop] at hocc
    refine ⟨by omega, hocc, fun i hi hlt h => hmin (i - pos) (by omega) ?_⟩
    rw [Lib.Search.occursAt_drop, Nat.add_sub_cancel' hi]
    exact h
  · rintro ⟨hle, hocc, hmin⟩
    refine ⟨e - pos, Lib.Search.find_eq_some_iff.mpr ⟨?_, fun i hi h => ?_⟩, by omega⟩
    · rw [Lib.Search.occursAt_drop, Nat.add_sub_cancel' hle]
      exact hocc
    · rw [Lib.Search.occursAt_drop] at h
      exact hmin (pos + i) (by omega) (by omega) h

/-- What is found in a string cut short is what is found in the string, if it ends before the cut.
-/
theorem findFrom_take_iff {s pat : Bytes} (hne : pat ≠ []) {n pos e : ℕ} :
    findFrom (s.take n) pat pos = some e ↔ findFrom s pat pos = some e ∧ e + pat.length ≤ n := by
  rw [findFrom_eq_some_iff, findFrom_eq_some_iff, Lib.Search.occursAt_take hne]
  constructor
  · rintro ⟨hle, ⟨hocc, hend⟩, hmin⟩
    refine ⟨⟨hle, hocc, fun i hi hlt h => hmin i hi hlt ?_⟩, hend⟩
    exact (Lib.Search.occursAt_take hne s n i).mpr ⟨h, by omega⟩
  · rintro ⟨⟨hle, hocc, hmin⟩, hend⟩
    refine ⟨hle, ⟨hocc, hend⟩, fun i hi hlt h => hmin i hi hlt ?_⟩
    exact ((Lib.Search.occursAt_take hne s n i).mp h).1

/-- `find` against `npos`, as the source asks whether a string holds another. -/
def contains (s pat : Bytes) : Bool := (find s pat).isSome

/-- `std::string::rfind` of one character. -/
def rfind (s : Bytes) (c : Byte) : Option ℕ :=
  match s with
  | [] => none
  | b :: s =>
    match rfind s c with
    | some i => some (i + 1)
    | none => if b = c then some 0 else none

/-! ## Letter case and blanks -/

/-- `tolower` of one byte, in the C locale. -/
def tolower (c : Byte) : Byte := if 65 ≤ c ∧ c ≤ 90 then c + 32 else c

/-- `to_lower`: every byte through `tolower`. -/
def toLower (s : Bytes) : Bytes := s.map tolower

/-- The set `" \t\r\n"` of `trim`. -/
def isBlank (c : Byte) : Bool := c = SP || c = TAB || c = CR || c = LF

/-- `trim`: from the first byte that is not blank to the last. -/
def trim (s : Bytes) : Bytes := (s.dropWhile isBlank).rdropWhile isBlank

/-! ## Lines -/

/-- The lines that successive `std::getline` calls read from a string stream. -/
def getlines (s : Bytes) : List Bytes := Lib.Lines.lines LF s

/-- A line without the carriage return that `getline` leaves at its end. -/
def popCR (line : Bytes) : Bytes := if line.getLast? = some CR then line.dropLast else line

/-- `popCR` takes off a `CR` at the end. -/
theorem popCR_append (l : Bytes) : popCR (l ++ [CR]) = l := by
  simp [popCR]

/-! ## Numbers -/

/-- `isspace`, which `strtol` skips. -/
def isSpace (c : Byte) : Bool := c = SP || (9 ≤ c && c ≤ 13)

/-- `isdigit`. -/
def isDigit (c : Byte) : Bool := 48 ≤ c && c ≤ 57

/-- A digit is neither a blank nor a sign. -/
theorem digit_cases {d : Byte} (h : isDigit d = true) : isSpace d = false ∧ d ≠ 45 ∧ d ≠ 43 := by
  unfold isDigit at h
  unfold isSpace SP
  simp only [Bool.and_eq_true, decide_eq_true_eq, UInt8.le_iff_toNat_le, UInt8.reduceToNat] at h
  simp only [Bool.or_eq_false_iff, Bool.and_eq_false_iff, decide_eq_false_iff_not, ne_eq,
    ← UInt8.toNat_inj, UInt8.le_iff_toNat_le, UInt8.reduceToNat]
  omega

/-- The value of a string of decimal digits. -/
def decimalValue (ds : Bytes) : ℕ := ds.foldl (fun n c => 10 * n + (c.toNat - 48)) 0

/-- What `strtol` reports: the value, the bytes from `*endptr` on, and whether `errno` is
`ERANGE`. -/
structure StrtolResult where
  value : ℤ
  rest : Bytes
  erange : Bool
  deriving DecidableEq

/-- `*end == '\0'`: the conversion stopped at the end of the C string. -/
def StrtolResult.atEnd (r : StrtolResult) : Bool := r.rest = [] || r.rest.head? = some NUL

/-- The largest `long`. -/
def LONG_MAX : ℤ := 2^63 - 1
/-- The smallest `long`. -/
def LONG_MIN : ℤ := -2^63

/-- An optional sign, and what follows it. -/
def splitSign : Bytes → Bool × Bytes
  | 45 :: s => (true, s)
  | 43 :: s => (false, s)
  | s => (false, s)

/-- A digit is no sign. -/
theorem splitSign_digit {d : Byte} (h : isDigit d = true) (s : Bytes) :
    splitSign (d :: s) = (false, d :: s) := by
  obtain ⟨-, hminus, hplus⟩ := digit_cases h
  unfold splitSign
  split
  · rename_i heq
    exact absurd (List.cons.inj heq).1 hminus
  · rename_i heq
    exact absurd (List.cons.inj heq).1 hplus
  · rfl

/-- `strtol(s, &end, 10)` on a 64-bit `long`. Without a digit to convert, `*endptr` is the start of
the string and the value is zero; a value out of range is clamped. -/
def strtol (s : Bytes) : StrtolResult :=
  let (negative, t) := splitSign (s.dropWhile isSpace)
  let ds := t.takeWhile isDigit
  if ds = [] then ⟨0, s, false⟩
  else
    let v : ℤ := if negative then -decimalValue ds else decimalValue ds
    let rest := t.dropWhile isDigit
    if LONG_MAX < v then ⟨LONG_MAX, rest, true⟩
    else if v < LONG_MIN then ⟨LONG_MIN, rest, true⟩
    else ⟨v, rest, false⟩

/-- `strtol` reads digits up to the first byte that is none, and clamps their value. -/
theorem strtol_digits_append {ds t : Bytes} (hne : ds ≠ []) (hdigits : ds.all isDigit = true)
    (ht : ∀ c ∈ t.head?, isDigit c = false) : strtol (ds ++ t) =
      if LONG_MAX < (decimalValue ds : ℤ) then ⟨LONG_MAX, t, true⟩
      else ⟨decimalValue ds, t, false⟩ := by
  have hall : ∀ c ∈ ds, isDigit c = true := List.all_eq_true.mp hdigits
  have htake : (ds ++ t).takeWhile isDigit = ds := by
    rw [List.takeWhile_append_of_pos hall]
    cases t with
    | nil => simp
    | cons c t => simp [ht c rfl]
  have hdrop : (ds ++ t).dropWhile isDigit = t := by
    rw [List.dropWhile_append_of_pos hall]
    cases t with
    | nil => rfl
    | cons c t => simp [ht c rfl]
  obtain ⟨d, ds', rfl⟩ := List.exists_cons_of_ne_nil hne
  have hd := hall d (by simp)
  have hstart : (d :: ds' ++ t).dropWhile isSpace = d :: ds' ++ t :=
    List.dropWhile_cons_of_neg (by simp [(digit_cases hd).1])
  have hsign : splitSign (d :: ds' ++ t) = (false, d :: ds' ++ t) := splitSign_digit hd _
  have hmin : ¬(decimalValue (d :: ds') : ℤ) < LONG_MIN := by
    unfold LONG_MIN
    omega
  unfold strtol
  simp only [hstart, hsign, htake, hdrop, if_neg hne, Bool.false_eq_true, if_false, if_neg hmin]

/-- `strtol` reads a string of digits that is in range to its end. -/
theorem strtol_digits {v : Bytes} (hne : v ≠ []) (hdigits : v.all isDigit = true)
    (hrange : (decimalValue v : ℤ) ≤ LONG_MAX) : strtol v = ⟨decimalValue v, [], false⟩ := by
  have hread := strtol_digits_append hne hdigits (t := []) (by simp)
  rw [List.append_nil, if_neg (Int.not_lt.mpr hrange)] at hread
  exact hread

/-- `atoi`: the value of `strtol` as a 32-bit `int`. -/
def atoi (s : Bytes) : ℤ := (strtol s).value.bmod (2^32)

/-- `std::to_string` of a number that is not negative. -/
def decimal (n : ℕ) : Bytes := (Nat.toDigits 10 n).map fun c => UInt8.ofNat c.toNat

/-- A number has at least one digit. -/
theorem decimal_ne_nil (n : ℕ) : decimal n ≠ [] := by
  simp [decimal, Nat.toDigits_ne_nil]

/-- A digit as a character is one as a byte, with the same code. -/
theorem isDigit_ofNat {c : Char} (h : c.isDigit = true) :
    isDigit (UInt8.ofNat c.toNat) = true ∧ (UInt8.ofNat c.toNat).toNat = c.toNat := by
  have hnat : 48 ≤ c.toNat ∧ c.toNat ≤ 57 := by
    simpa [Char.isDigit, UInt32.le_iff_toNat_le] using h
  have hvalue : (UInt8.ofNat c.toNat).toNat = c.toNat := by
    rw [UInt8.toNat_ofNat', Nat.mod_eq_of_lt (by omega)]
  refine ⟨?_, hvalue⟩
  simp only [isDigit, Bool.and_eq_true, decide_eq_true_eq, UInt8.le_iff_toNat_le, hvalue,
    UInt8.reduceToNat]
  omega

/-- A number is written in digits only. -/
theorem isDigit_of_mem_decimal {n : ℕ} {c : Byte} (h : c ∈ decimal n) : isDigit c = true := by
  obtain ⟨d, hd, rfl⟩ := List.mem_map.mp h
  exact (isDigit_ofNat (Nat.isDigit_of_mem_toDigits (by decide) (by decide) hd)).1

/-- The digits of a number have its value. -/
theorem decimalValue_decimal (n : ℕ) : decimalValue (decimal n) = n := by
  have hfold : ∀ (cs : List Char) (m : ℕ), (∀ c ∈ cs, c.isDigit = true) →
      (cs.map fun c => UInt8.ofNat c.toNat).foldl (fun n c => 10 * n + (c.toNat - 48)) m =
        Nat.ofDigitChars 10 cs m := by
    intro cs
    induction cs with
    | nil => simp
    | cons c cs ih =>
      intro m h
      obtain ⟨hc, hcs⟩ := List.forall_mem_cons.mp h
      rw [List.map_cons, List.foldl_cons, ih _ hcs, Nat.ofDigitChars_cons, (isDigit_ofNat hc).2]
      rfl
  calc decimalValue (decimal n) = Nat.ofDigitChars 10 (Nat.toDigits 10 n) 0 :=
        hfold _ 0 fun _ => Nat.isDigit_of_mem_toDigits (by decide) (by decide)
    _ = n := Nat.ofDigitChars_toDigits (by decide) (by decide)

/-- A number that fits into an `int` is read back by `atoi`. -/
theorem atoi_decimal {n : ℕ} (hn : n < 2^31) : atoi (decimal n) = n := by
  have hrange : (decimalValue (decimal n) : ℤ) ≤ LONG_MAX := by
    rw [decimalValue_decimal]
    unfold LONG_MAX
    omega
  have hall : (decimal n).all isDigit = true :=
    List.all_eq_true.mpr fun _ => isDigit_of_mem_decimal
  rw [atoi, strtol_digits (decimal_ne_nil n) hall hrange, decimalValue_decimal]
  exact Int.bmod_eq_of_le (by dsimp only; omega) (by dsimp only; omega)

/-- `std::to_string` of an `int`. -/
def decimalInt (n : ℤ) : Bytes :=
  if n < 0 then 45 :: decimal n.natAbs else decimal n.natAbs

/-- A 64-bit `size_t`. -/
def wrap64 (n : ℕ) : ℕ := n % 2^64

end ForwardProxy
