import AffineQuant.Proofs.Json.Lexeme
import AffineQuant.Proofs.Json.Number
import AffineQuant.Proofs.Yaml.Node

/-!
# Scalars as values

A value that was written as a scalar is read from it again, if the type that it was written with
is asked for. A scalar does not show its type, so nothing is said about reading it as another.

## Integers and numerals

Integers and truth values are a matter of their spelling. The readers try several notations one
after another, and what is spelled in decimal has to be shown not to be taken by an earlier one:
digits that do not begin with a zero are no hexadecimal, octal or binary integer (`natOf?_cons`),
and no name of an infinity spells a numeral (`numeralOf?_name`).

## Two roundings

A number is rounded twice on its way, to the 64-bit format and from there to its own. The first
error is too small to take a decimal to an end of the interval of its number
(`Numeral.narrow_toDouble`), but for the few numbers that the gap between decimals and midpoints
does not cover. The argument is the one for JSON. A rounding to nearest is more accurate than its
reader, and what is asked of short significands there holds of all significands here.

Of the numbers that are left one is misread: its decimal becomes the end itself, and the tie goes
to the number on the other side (`misread`). The others are evaluated and come back, and so
`reread` is the identity but at this number and its negative.
-/

namespace AffineQuant

open Digit

variable {cs : List Char} {n : ℕ}

namespace Yaml

/-! ## Integers -/

private theorem hexDigit?_toChar (d : Digit) : hexDigit? d.toChar = some d.val := by
  revert d
  decide

private theorem foldlM_digits (ds : List Digit) (n : ℕ) :
    (ds.map toChar).foldlM (fun n c ↦ do
      let d ← hexDigit? c
      if d < 10 then some (10 * n + d) else none) n =
      some (ds.foldl (fun n d ↦ 10 * n + d.val) n) := by
  induction ds generalizing n with
  | nil => rfl
  | cons d ds ih =>
    rw [List.map_cons, List.foldlM_cons, hexDigit?_toChar]
    simp only [Option.bind_eq_bind, Option.bind_some, if_pos d.isLt]
    exact ih _

theorem ofDigits?_map_toChar {ds : List Digit} (h : ds ≠ []) :
    ofDigits? 10 (ds.map toChar) = some (value ds) := by
  rw [ofDigits?, if_neg (by simpa using h)]
  exact foldlM_digits ds 0

private theorem withoutPlus_cons {c : Char} (h : c ≠ '+') : withoutPlus (c :: cs) = c :: cs := by
  rw [withoutPlus]
  exact fun rest heq ↦ h (List.cons.inj heq).1

/-- A text that begins with none of the signs and not with a zero can only be decimal. -/
private theorem natOf?_cons {c : Char} {limit : ℕ} (hplus : c ≠ '+') (hminus : c ≠ '-')
    (hzero : c ≠ '0') :
    natOf? limit (c :: cs) = (ofDigits? 10 (c :: cs)).bind fun n ↦
      if n < limit then some n else none := by
  have hidle : hasIdleZero (c :: cs) = false := by
    simp [hasIdleZero, hplus, hminus, hzero]
  rw [natOf?, withoutPlus_cons hplus]
  simp [hzero, hidle]

theorem natOf?_writeInt {limit : ℕ} (h : n < limit) : natOf? limit (writeInt n) = some n := by
  have hwrite : writeInt n = (ofNat n).map toChar := by
    rw [writeInt, if_neg (Int.natCast_nonneg n).not_gt, Int.natAbs_natCast, List.nil_append]
  rcases n.eq_zero_or_pos with rfl | hpos
  · have : natOf? limit ['0'] = if 0 < limit then some 0 else none := rfl
    rw [hwrite, ofNat_of_lt (show 0 < 10 by decide), List.map_singleton,
      show toChar _ = '0' from rfl, this, if_pos h]
  · obtain ⟨d, ds, hds⟩ := List.exists_cons_of_ne_nil (ofNat_ne_nil n)
    have hd : d ≠ zero := by
      rintro rfl
      exact head?_ofNat_ne hpos (by rw [hds, List.head?_cons])
    have hchar : ∀ d : Digit, d ≠ zero → d.toChar ≠ '+' ∧ d.toChar ≠ '-' ∧ d.toChar ≠ '0' := by
      decide
    obtain ⟨hplus, hminus, hzero⟩ := hchar d hd
    have hread := ofDigits?_map_toChar (ofNat_ne_nil n)
    rw [value_ofNat, hds, List.map_cons] at hread
    rw [hwrite, hds, List.map_cons, natOf?_cons hplus hminus hzero, hread, Option.bind_some,
      if_pos h]

/-! ## Numerals -/

/-- The exponent of a numeral as it is written. -/
def writeExponent : Option ℤ → List Char
  | none => []
  | some e => 'e' :: writeInt e

theorem write_eq (x : Numeral) :
    x.write false = (if x.negative then ['-'] else []) ++ (x.whole.map toChar ++
      ((if x.fraction.isEmpty then [] else '.' :: x.fraction.map toChar) ++
        writeExponent x.exponent)) := by
  rw [Numeral.write, List.append_assoc, List.append_assoc]
  cases x.exponent <;> rfl

private theorem stops_writeExponent (e : Option ℤ) : Stops (writeExponent e) := by
  cases e with
  | none => exact fun c h ↦ absurd h (by simp [writeExponent])
  | some e =>
    intro c hc
    obtain rfl : 'e' = c := by simpa [writeExponent] using hc
    decide

private theorem toChar_ne_sign (d : Digit) : d.toChar ≠ '-' ∧ d.toChar ≠ '+' ∧ d.toChar ≠ '.' := by
  revert d
  decide

theorem exponentOf?_writeExponent (e : Option ℤ) : exponentOf? (writeExponent e) = some e := by
  cases e with
  | none => rfl
  | some e =>
    have hscan := scan_append (ofNat e.natAbs) (s := []) fun c h ↦ absurd h (by simp)
    obtain ⟨d, ds, hds⟩ := List.exists_cons_of_ne_nil (ofNat_ne_nil e.natAbs)
    have hvalue := value_ofNat e.natAbs
    rw [List.append_nil, hds] at hscan
    rw [hds] at hvalue
    rw [List.map_cons] at hscan
    rcases lt_or_ge e 0 with hneg | hnonneg
    · simp only [writeExponent, writeInt, if_pos hneg, hds, List.map_cons, List.singleton_append,
        exponentOf?, true_or, if_true, hscan, hvalue]
      congr
      omega
    · obtain ⟨hminus, hplus, -⟩ := toChar_ne_sign d
      simp [writeExponent, writeInt, not_lt.mpr hnonneg, hds, exponentOf?, hminus,
        withoutPlus_cons hplus, hscan, hvalue, abs_of_nonneg hnonneg]

theorem numeralOf?_write {x : Numeral} (hx : x.whole ≠ []) :
    numeralOf? (x.write false) = some x := by
  obtain ⟨negative, whole, fraction, exponent⟩ := x
  obtain ⟨d, ds, rfl⟩ := List.exists_cons_of_ne_nil hx
  have hstops : Stops ((if fraction.isEmpty then [] else '.' :: fraction.map toChar) ++
      writeExponent exponent) := by
    cases fraction with
    | nil => exact stops_writeExponent exponent
    | cons d ds =>
      intro c hc
      obtain rfl : '.' = c := by simpa using hc
      decide
  have hwhole := scan_append (d :: ds) hstops
  have hfraction := scan_append fraction (stops_writeExponent exponent)
  have hexponent := exponentOf?_writeExponent exponent
  rw [List.map_cons, List.cons_append] at hwhole
  have hminus := (toChar_ne_sign d).1
  rw [write_eq]
  cases fraction with
  | nil =>
    -- What follows the whole part begins with the mark of the exponent, and not with a point.
    have hpoint : ∀ rest, writeExponent exponent ≠ '.' :: rest := fun rest h ↦ by
      cases exponent with
      | none => cases h
      | some e => exact absurd (List.cons.inj h).1 (by decide)
    rw [List.isEmpty_nil, if_pos rfl, List.nil_append] at hwhole
    cases negative <;> simp [numeralOf?, hminus, hwhole, hexponent]
  | cons f fs =>
    rw [List.isEmpty_cons, if_neg Bool.false_ne_true, List.cons_append] at hwhole
    rw [List.map_cons, List.cons_append] at hwhole hfraction
    cases negative <;> simp [numeralOf?, hminus, hwhole, hfraction, hexponent]

private theorem numeralOf?_name : ∀ name ∈ [".inf", ".Inf", ".INF", "+.inf", "+.Inf", "+.INF"] ++
    ["-.inf", "-.Inf", "-.INF"] ++ [".nan", ".NaN", ".NAN"], numeralOf? name.toList = none := by
  decide

/-- What spells a numeral without a plus denotes the nearest 64-bit number, if that is finite. -/
theorem doubleOf?_eq {x : Numeral} (h : numeralOf? cs = some x) :
    doubleOf? cs = if x.toDouble.isFinite then some x.toDouble else none := by
  have hnames : ∀ name ∈ [".inf", ".Inf", ".INF", "+.inf", "+.Inf", "+.INF"] ++
      ["-.inf", "-.Inf", "-.INF"] ++ [".nan", ".NaN", ".NAN"], String.ofList cs ≠ name := by
    rintro name hname rfl
    have := numeralOf?_name _ hname
    rw [String.toList_ofList, h] at this
    exact Option.some_ne_none x this
  have hplus : ∀ rest, cs ≠ '+' :: rest := by
    rintro rest rfl
    exact Option.some_ne_none x (h.symm.trans rfl)
  have hwithout : withoutPlus cs = cs := by
    rw [withoutPlus]
    exact hplus
  have hnamed : ∀ {names : List String}, (∀ name ∈ names, String.ofList cs ≠ name) →
      names.contains (String.ofList cs) = false := fun h ↦ by
    rw [← Bool.not_eq_true, List.contains_iff_mem]
    exact fun hmem ↦ h _ hmem rfl
  obtain ⟨hsigned, hnan⟩ := List.forall_mem_append.mp hnames
  obtain ⟨hinf, hneg⟩ := List.forall_mem_append.mp hsigned
  simp only [doubleOf?, hnamed hinf, hnamed hneg, hnamed hnan, Bool.false_eq_true, if_false]
  split
  · exact absurd rfl (hplus _)
  · rw [hwithout, h]
    rfl

end Yaml

/-! ## Numbers -/

namespace Numeral

open Binary

variable {x : Numeral} {m : ℕ} {e : ℤ}

theorem toDouble_eq (hpos : 0 < x.significand) (hlt : x.significand < 2 ^ 64)
    (hscale : x.scale.natAbs ≤ 64) : x.toDouble = .round x.negative x.toRat := by
  have hvalue : value (trimLeading (x.whole ++ x.fraction)) = x.significand :=
    value_trimLeading _
  have hlength : 10 ^ ((trimLeading (x.whole ++ x.fraction)).length - 1) ≤ x.significand :=
    pow_length_trimLeading_le hpos
  rw [toDouble]
  generalize trimLeading (x.whole ++ x.fraction) = ds at hvalue hlength
  have hne : ds ≠ [] := by
    rintro rfl
    exact hpos.ne hvalue
  have hpositive := List.length_pos_of_ne_nil hne
  have hfew : ds.length - 1 < 20 :=
    (Nat.pow_lt_pow_iff_right (a := 10) (by decide)).mp <|
      hlength.trans_lt (hlt.trans (by decide))
  simp only [List.isEmpty_iff, hne, if_false]
  rw [if_neg (by omega), if_neg (by omega)]

theorem abs_toRat (x : Numeral) : |x.toRat| = x.significand * (10 : ℚ) ^ x.scale := by
  have hnonneg : 0 ≤ x.significand * (10 : ℚ) ^ x.scale := by positivity
  rw [toRat]
  split_ifs
  · rw [abs_neg, abs_of_nonneg hnonneg]
  · exact abs_of_nonneg hnonneg

private theorem toRat_finite_ne_zero (hc : Format.single.Canonical m e) (hm : m ≠ 0) (s : Bool) :
    (Binary.finite s m e hc : Single).toRat ≠ 0 := by
  have hne : (m : ℚ) * (2 : ℚ) ^ e ≠ 0 :=
    mul_ne_zero (Nat.cast_ne_zero.mpr hm) (zpow_two_pos e).ne'
  cases s with
  | false => exact hne
  | true => exact neg_ne_zero.mpr hne

/-- The digits that record a number are read as that number, although they are rounded twice. -/
theorem narrow_toDouble {hc : Format.single.Canonical m e} (hm : m ≠ 0) {c : ℕ} {k : ℤ}
    (h : Decimal.IsChoice (.finite false m e hc : Single) c k) (hk : decade
      (Binary.finite false m e hc : Single).toRat - 16 ≤ k) (hrec : x.Records c k)
    (hexcepted : ∀ M E, IsEnd m e M E → ¬IsExcepted M E) :
    x.toDouble.isFinite = true ∧ x.toDouble.narrow = .finite x.negative m e hc := by
  obtain ⟨hlo, hhi⟩ := nearest_size hc hm (h.nearest_eq hm)
  obtain ⟨hpos, hlt, hscale⟩ := hrec.bounds (h.le_ten_pow hm hk) hlo hhi
  rw [← hrec.value_eq] at hlo hhi
  have hq : 0 < x.significand * (10 : ℚ) ^ x.scale := (zpow_two_pos _).trans_le hlo
  have hwithin := within_nearest ((zpow_two_le_iff.mpr (by decide)).trans hlo)
  have hnearest := nearest_eq_of_reads hm h hrec hexcepted hpos
    (hwithin.mono (by norm_num) hq.le)
    fun _ ↦ ⟨hwithin.mono (by norm_num) hq.le, fun _ hgrid ↦ hgrid.nearest_eq⟩
  have htwice : Format.single.nearest (Format.double.nearest x.toRat) =
      (Binary.finite x.negative m e hc : Single).toRat := by
    rw [toRat, Binary.toRat]
    cases x.negative with
    | false => exact hnearest
    | true =>
      rw [if_pos rfl, if_pos rfl, Format.nearest_neg, Format.nearest_neg]
      exact congrArg Neg.neg hnearest
  have hdouble : x.toDouble.Denotes (Format.double.nearest x.toRat) := by
    rw [toDouble_eq hpos hlt hscale]
    exact denotes_round_nearest _ <|
      Format.abs_nearest_double_lt (by decide) (by decide) (x.abs_toRat.trans_le hhi.le)
  have hsingle := denotes_toRat (x := (.finite x.negative m e hc : Single)) rfl
  refine ⟨hdouble.isFinite_eq, Denotes.unique ?_ hsingle (toRat_finite_ne_zero hc hm _)⟩
  rw [← htwice]
  refine hdouble.convert_nearest ?_
  rw [htwice]
  exact hsingle.holds.1

end Numeral

/-! ## The way through YAML -/

namespace Yaml

variable {root : Node}

/-- **Words through YAML.** A word is read as it was written. -/
theorem word?_node (h : n < pow2 64) : (Value.word n).node.word? 64 root = some n := by
  have hread : (Value.word n).node.word? 64 root =
      (natOf? (pow2 64) (writeInt n)).bind fun n ↦ if n < pow2 64 then some n else none := rfl
  rw [hread, natOf?_writeInt h, Option.bind_some, if_pos h]

/-- **Truth values through YAML.** -/
theorem bool?_node (b : Bool) : (Value.bool b).node.bool? root = some b := by
  cases b <;> rfl

/-- The number `7.038531e-26`. Its shortest decimal is so near to the upper end of its interval that
the nearest 64-bit number is that end. -/
def misread : Single := .finite false 11420669 (-107) (by decide)

/-- What a finite number is read as after it was written: the number itself, but for one, in place
of which the number next to it in magnitude is read. -/
def reread (x : Single) : Single :=
  if x.abs = misread then .finite x.isNegative 11420670 (-107) (by decide) else x

theorem reread_of_ne {x : Single} (h : x.abs ≠ misread) : reread x = x := if_neg h

theorem reread_eq_iff {x : Single} : reread x = x ↔ x.abs ≠ misread := by
  refine ⟨fun h habs ↦ ?_, reread_of_ne⟩
  rw [reread, if_pos habs] at h
  have hnext : (Binary.finite false 11420670 (-107) (by decide) : Single) = misread :=
    (congrArg Binary.abs h).trans habs
  exact absurd hnext (by decide)

theorem isFinite_reread {x : Single} (h : x.isFinite = true) : (reread x).isFinite = true := by
  rw [reread]
  split_ifs
  · rfl
  · exact h

theorem reread_pos {x : Single} (h : 0 < x) : 0 < reread x := by
  rw [reread]
  split_ifs with habs
  · cases x with
    | nan => exact absurd habs (by decide)
    | inf s => cases s <;> exact absurd habs (by decide)
    | finite s m e hc =>
      cases s with
      | false =>
        have hnext : (0 : Single) < .finite false 11420670 (-107) (by decide) := by decide +kernel
        exact hnext
      | true =>
        obtain ⟨-, rfl, rfl⟩ := Binary.finite.inj habs
        exact absurd h (by decide +kernel +revert)
  · exact h

private theorem narrow_toDouble_excepted (s : Bool) : ∀ m ∈ [11420669, 11420670],
    ∀ e ∈ [-107, -106], ∀ hc : Format.single.Canonical m e,
      (Numeral.ofBinary .data (.finite s m e hc : Single)).toDouble.isFinite = true ∧
        (Numeral.ofBinary .data (.finite s m e hc : Single)).toDouble.narrow =
          reread (.finite s m e hc) := by
  cases s <;> decide +kernel

theorem narrow_toDouble_ofBinary_data {x : Single} (hx : x.isFinite = true) :
    (Numeral.ofBinary .data x).toDouble.isFinite = true ∧
      (Numeral.ofBinary .data x).toDouble.narrow = reread x := by
  obtain ⟨s, m, e, hc, rfl⟩ := Binary.exists_eq_finite hx
  rcases eq_or_ne m 0 with rfl | hm
  · obtain rfl : e = -149 := hc.2.2.2.resolve_left (by decide)
    cases s <;> decide +kernel +revert
  by_cases hexcepted : (m = 11420669 ∨ m = 11420670) ∧ (e = -107 ∨ e = -106)
  · exact narrow_toDouble_excepted s m (by simpa using hexcepted.1) e
      (by simpa using hexcepted.2) hc
  obtain ⟨c, k, hchoice, hk, hsign, -, hrec⟩ := Numeral.exists_ofBinary_data hc hm s
  have hne : (Binary.finite s m e hc : Single).abs ≠ misread := by
    intro h
    obtain ⟨-, rfl, rfl⟩ := Binary.finite.inj h
    exact hexcepted (by decide)
  rw [reread_of_ne hne]
  have hread := Numeral.narrow_toDouble hm hchoice hk hrec
    fun M E hend h ↦ hexcepted (hend.eq_of_isExcepted hc hm h)
  rwa [hsign] at hread

/-- **Numbers through YAML.** Every finite number but one is read as it was written, the sign of a
zero included. -/
theorem single?_node {x : Single} (hx : x.isFinite = true) :
    (Value.number x).node.single? root = some (reread x) := by
  obtain ⟨hfinite, hnarrow⟩ := narrow_toDouble_ofBinary_data hx
  have hread : (Value.number x).node.single? root =
      (doubleOf? (writeNumber x)).bind fun y ↦ some y.narrow := rfl
  have hwrite : writeNumber x = (Numeral.ofBinary .data x).write false := by
    obtain ⟨s, m, e, hc, rfl⟩ := Binary.exists_eq_finite hx
    rfl
  rw [hread, hwrite, doubleOf?_eq (numeralOf?_write (isPlain_ofBinary_data hx).whole_ne_nil),
    if_pos hfinite, Option.bind_some, hnarrow]

end Yaml

end AffineQuant
