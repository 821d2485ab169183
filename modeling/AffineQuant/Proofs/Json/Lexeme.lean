import AffineQuant.Json.Reader
import AffineQuant.Json.Writer
import AffineQuant.Proofs.Decimal.Spelling

/-!
# Numbers and strings as texts

The reader takes a number or a string off the head of a text exactly as it was written, and leaves
what follows. The two are the only tokens with an inner structure; all others are fixed words or
single characters, and need nothing beyond the definition of the reader.

## Where a token ends

A number does not say itself where it ends: what follows has to be something that cannot belong to
it (`Delimited`). This is a condition on the rest of the text and so it has to be carried through
the statements about values. Within a number the same question arises for each row of digits
(`Digit.Stops`), and the answer is handed from the end of the text forwards: what is delimited
stops the exponent, the exponent stops the fraction, and the fraction stops the whole part.

A string ends with its quote, whatever follows. Each of its units is read back by itself, escaped
or not (`readUnits_writeUnit`), and none is written as something that starts with a quote.

## Steps

The reader of strings is bounded by a number of steps. One step is used for each unit, and a unit is
at least one character long, so the length of the text is always enough.
-/

namespace AffineQuant

/-! ## Digits -/

namespace Digit

/-- What cannot continue a row of digits. -/
def Stops (s : List Char) : Prop := ∀ c ∈ s.head?, ofChar? c = none

theorem scan_of_stops {s : List Char} (h : Stops s) : scan s = ([], s) := by
  cases s with
  | nil => rfl
  | cons c s => rw [scan, h c rfl]

theorem scan_append (ds : List Digit) {s : List Char} (h : Stops s) :
    scan (ds.map toChar ++ s) = (ds, s) := by
  induction ds with
  | nil => exact scan_of_stops h
  | cons d ds ih => rw [List.map_cons, List.cons_append, scan, ofChar?_toChar, ih]

theorem isWellFormed_ofNat (negative : Bool) (n : ℕ) (fraction : List Digit)
    (exponent : Option ℤ) : Numeral.IsWellFormed ⟨negative, ofNat n, fraction, exponent⟩ := by
  refine ⟨ofNat_ne_nil n, fun h ↦ ?_⟩
  rcases n.eq_zero_or_pos with rfl | hpos
  · exact congrArg List.length (ofNat_of_lt (by decide))
  · exact absurd h (head?_ofNat_ne hpos)

end Digit

namespace Json

open Digit

/-! ## Numbers -/

/-- A character that ends a number. -/
def isDelimiter (c : Char) : Bool := c == ',' || c == ']' || c == '\x7d' || isBlank c

/-- The text is at its end or goes on with something that is not part of a number. -/
def Delimited (s : List Char) : Prop := ∀ c ∈ s.head?, isDelimiter c = true

theorem delimited_nil : Delimited [] := fun _ h ↦ absurd h (by simp)

theorem delimited_cons {c : Char} (s : List Char) (h : isDelimiter c = true) :
    Delimited (c :: s) := by
  intro c' hc'
  rw [List.head?_cons, Option.mem_some_iff] at hc'
  exact hc' ▸ h

theorem of_isDelimiter {c : Char} (h : isDelimiter c = true) :
    ofChar? c = none ∧ c ≠ '.' ∧ c ≠ 'e' ∧ c ≠ 'E' := by
  simp only [isDelimiter, isBlank, Bool.or_eq_true, beq_iff_eq] at h
  rcases h with ((rfl | rfl) | rfl) | ((rfl | rfl) | rfl) | rfl <;> decide

theorem Delimited.stops {s : List Char} (h : Delimited s) : Stops s :=
  fun c hc ↦ (of_isDelimiter (h c hc)).1

/-- The exponent of a numeral as it is written. -/
def writeExponent : Option ℤ → List Char
  | none => []
  | some e => 'e' :: (if 0 ≤ e then ['+'] else []) ++ writeInt e

theorem stops_writeExponent (e : Option ℤ) {s : List Char} (h : Delimited s) :
    Stops (writeExponent e ++ s) := by
  cases e with
  | none => exact h.stops
  | some e =>
    intro c hc
    obtain rfl : 'e' = c := by simpa [writeExponent] using hc
    decide

theorem readExponent_write (e : Option ℤ) {s : List Char} (h : Delimited s) :
    readExponent (writeExponent e ++ s) = some (e, s) := by
  cases e with
  | none =>
    cases s with
    | nil => rfl
    | cons c s =>
      obtain ⟨-, -, he, hE⟩ := of_isDelimiter (h c rfl)
      simp [writeExponent, readExponent, he, hE]
  | some e =>
    have hscan := scan_append (ofNat e.natAbs) h.stops
    obtain ⟨d, ds, hds⟩ := List.exists_cons_of_ne_nil (ofNat_ne_nil e.natAbs)
    have hvalue := value_ofNat e.natAbs
    rw [hds] at hscan hvalue
    rcases lt_or_ge e 0 with hneg | hnonneg
    · have hsign : readExponentDigits ('-' :: ((d :: ds).map toChar ++ s)) = some (e, s) := by
        simp only [readExponentDigits, hscan, hvalue, if_true]
        congr
        omega
      simp only [writeExponent, writeInt, if_neg (not_le.mpr hneg), if_pos hneg, hds,
        List.nil_append, List.cons_append, readExponent, hsign, Option.map_some]
    · have hsign : readExponentDigits ('+' :: ((d :: ds).map toChar ++ s)) = some (e, s) := by
        simp only [readExponentDigits, hscan, hvalue, Bool.false_eq_true, if_false]
        congr
        omega
      simp only [writeExponent, writeInt, if_pos hnonneg, if_neg (not_lt.mpr hnonneg), hds,
        List.nil_append, List.cons_append, readExponent, hsign, Option.map_some]

private theorem readFraction_of_ne {s : List Char} (h : ∀ c ∈ s.head?, c ≠ '.') :
    readFraction s = some ([], s) := by
  cases s with
  | nil => rfl
  | cons c s => simp [readFraction, h c rfl]

theorem readFraction_write (ds : List Digit) (e : Option ℤ) {s : List Char} (h : Delimited s) :
    readFraction ((if ds.isEmpty then [] else '.' :: ds.map toChar) ++ (writeExponent e ++ s)) =
      some (ds, writeExponent e ++ s) := by
  cases ds with
  | nil =>
    refine readFraction_of_ne fun c hc ↦ ?_
    cases e with
    | none => exact (of_isDelimiter (h c hc)).2.1
    | some e =>
      obtain rfl : 'e' = c := by simpa [writeExponent] using hc
      decide
  | cons d ds =>
    have hscan := scan_append (d :: ds) (stops_writeExponent e h)
    simp only [List.isEmpty_cons, Bool.false_eq_true, if_false, List.cons_append, readFraction]
    rw [hscan]

private theorem toChar_ne_minus (d : Digit) : d.toChar ≠ '-' := by
  revert d
  decide

private theorem write_append (x : Numeral) (s : List Char) :
    x.write true ++ s = (if x.negative then ['-'] else []) ++ (x.whole.map toChar ++
      ((if x.fraction.isEmpty then [] else '.' :: x.fraction.map toChar) ++
        (writeExponent x.exponent ++ s))) := by
  rw [Numeral.write]
  cases x.exponent with
  | none => simp [writeExponent]
  | some e => simp [writeExponent]

/-- What follows the whole part does not continue its digits. -/
private theorem stops_fraction (ds : List Digit) (e : Option ℤ) {s : List Char}
    (h : Delimited s) :
    Stops ((if ds.isEmpty then [] else '.' :: ds.map toChar) ++ (writeExponent e ++ s)) := by
  cases ds with
  | nil => exact stops_writeExponent e h
  | cons d ds =>
    intro c hc
    obtain rfl : '.' = c := by simpa using hc
    decide

/-- A numeral is read as it was written. -/
theorem readNumber_write {x : Numeral} (hx : x.IsWellFormed) {s : List Char} (h : Delimited s) :
    readNumber (x.write true ++ s) = some (x, s) := by
  obtain ⟨negative, whole, fraction, exponent⟩ := x
  obtain ⟨d, ds, rfl⟩ := List.exists_cons_of_ne_nil hx.whole_ne_nil
  have hscan := scan_append (d :: ds) (stops_fraction fraction exponent h)
  have hzero : ¬((d :: ds).isEmpty = true ∨
      ((d :: ds).head? = some zero ∧ (d :: ds).length ≠ 1)) := by
    rintro (hempty | ⟨hhead, hlength⟩)
    · exact Bool.false_ne_true hempty
    · exact hlength (hx.length_eq_one hhead)
  rw [write_append]
  rw [List.map_cons, List.cons_append] at hscan
  cases negative with
  | false =>
    rw [if_neg Bool.false_ne_true, List.nil_append, List.map_cons, List.cons_append]
    simp only [readNumber]
    split
    · next heq => exact absurd (List.cons.inj heq).1 (toChar_ne_minus d)
    rw [hscan]
    simp only [if_neg hzero, readFraction_write fraction exponent h,
      readExponent_write exponent h, Option.bind_eq_bind, Option.bind_some]
  | true =>
    rw [if_pos rfl, List.singleton_append, List.map_cons, List.cons_append]
    simp only [readNumber]
    rw [hscan]
    simp only [if_neg hzero, readFraction_write fraction exponent h,
      readExponent_write exponent h, Option.bind_eq_bind, Option.bind_some]

/-! ## Strings -/

theorem readEscape_escapeCode {n : ℕ} (h : n < 65536) (s : List Char) :
    readEscape ((escapeCode n).tail ++ s) = some (unitOfCode n, s) := by
  have hsum : 4096 * (n / 4096 % 16) + 256 * (n / 256 % 16) + 16 * (n / 16 % 16) + n % 16 = n := by
    omega
  have hdigit : ∀ k, hexDigit? (hexDigit (k % 16)) = some (k % 16) := fun k ↦
    hexDigit?_hexDigit _ (Nat.mod_lt _ (by decide))
  simp only [escapeCode, List.tail_cons, List.cons_append, List.nil_append, readEscape, hdigit,
    Option.bind_eq_bind, Option.bind_some, hsum]

theorem unitOfCode_surrogate (k : Fin 2048) : unitOfCode (0xD800 + k.val) = .surrogate k := by
  have hk := k.isLt
  rw [unitOfCode, dif_pos (by omega)]
  simp

theorem unitOfCode_control {c : Char} (h : c.toNat < 0x20) : unitOfCode c.toNat = .char c := by
  rw [unitOfCode, dif_neg (by omega), Char.ofNat_toNat]

private theorem readUnits_escape {u : TextUnit} {t s : List Char} (h : readEscape t = some (u, s))
    (n : ℕ) :
    readUnits (n + 1) ('\x5c' :: t) = (readUnits n s).map fun r ↦ (u :: r.1, r.2) := by
  rw [readUnits, if_neg (by decide), if_pos rfl, h]
  simp only [Option.bind_eq_bind, Option.bind_some]
  cases readUnits n s <;> rfl

theorem readUnits_writeUnit (u : TextUnit) (n : ℕ) (s : List Char) :
    readUnits (n + 1) (writeUnit u ++ s) = (readUnits n s).map fun r ↦ (u :: r.1, r.2) := by
  cases u with
  | surrogate k =>
    have hk := k.isLt
    have h := readEscape_escapeCode (show 0xD800 + k.val < 65536 by omega) s
    rw [unitOfCode_surrogate] at h
    exact readUnits_escape h n
  | char c =>
    rw [writeUnit]
    split_ifs with h1 h2 h3 h4 h5 h6 h7 h8
    · rw [h1]
      exact readUnits_escape rfl n
    · rw [h2]
      exact readUnits_escape rfl n
    · rw [h3]
      exact readUnits_escape rfl n
    · rw [h4]
      exact readUnits_escape rfl n
    · rw [h5]
      exact readUnits_escape rfl n
    · rw [h6]
      exact readUnits_escape rfl n
    · rw [h7]
      exact readUnits_escape rfl n
    · have h := readEscape_escapeCode (h8.trans (by decide)) s
      rw [unitOfCode_control h8] at h
      exact readUnits_escape h n
    · rw [List.singleton_append, readUnits, if_neg h1, if_neg h2, if_neg h8]
      cases readUnits n s <;> rfl

theorem readUnits_write (us : List TextUnit) {n : ℕ} (h : us.length < n) (s : List Char) :
    readUnits n (us.flatMap writeUnit ++ '\x22' :: s) = some (us, s) := by
  induction us generalizing n with
  | nil =>
    obtain ⟨n, rfl⟩ := Nat.exists_eq_add_of_lt h
    rfl
  | cons u us ih =>
    obtain ⟨n, rfl⟩ : ∃ n', n = n' + 1 := Nat.exists_eq_add_one.mpr (by omega)
    rw [List.flatMap_cons, List.append_assoc, readUnits_writeUnit,
      ih (by simpa using h), Option.map_some]

theorem length_le_flatMap_writeUnit (us : List TextUnit) :
    us.length ≤ (us.flatMap writeUnit).length := by
  induction us with
  | nil => rfl
  | cons u us ih =>
    have hpos : 0 < (writeUnit u).length := by
      cases u with
      | surrogate k => exact Nat.succ_pos _
      | char c =>
        rw [writeUnit]
        split_ifs <;> exact Nat.succ_pos _
    rw [List.flatMap_cons, List.length_append, List.length_cons]
    omega

end Json

end AffineQuant
