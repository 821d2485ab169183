import AffineQuant.Proofs.Decimal.Shortest

/-!
# The numerals of data files

From the decimal that was chosen for a number to the numeral that stands in the text. The numeral
has the same value; what has to be known beyond this is which significand and which power of ten a
reader will find in it, because it computes with these two.

## Digits and point

A numeral in the style of data files denotes its decimal in one of two ways: either its digits are
those of the decimal, or it is a whole number below `10 ^ 13`, whose digits are filled up to the
point and followed by a fraction of one zero (`Spells`). The zero makes the significand ten times
as large and the power of ten negative, so this case cannot be subsumed under the other.
`Records` is the same with the multiple of a power of ten in the place of its digits, from which
trailing zeros may have been dropped.

## Form

Either way it is a numeral as the formats want it: a whole part without a superfluous zero
(`IsWellFormed`), and a point or an exponent that tells it from an integer (`IsPlain`). The second
matters because integers are read in another way.
-/

namespace AffineQuant

open Digit

variable {d : Decimal} {c : ℕ} {k : ℤ} {s : Bool}

/-! ## Proper decimals -/

namespace Decimal

/-- The power of ten by which the digits, read as one number, are scaled. -/
def scale (d : Decimal) : ℤ := d.exponent + 1 - d.digits.length

/-- There are digits, and the first one is not zero. -/
structure IsProper (d : Decimal) : Prop where
  ne_nil : d.digits ≠ []
  head?_ne : d.digits.head? ≠ some zero

theorem exists_ofScaled_eq (hc : 0 < c) (k : ℤ) :
    (ofScaled c k).IsProper ∧
      ∃ t : ℕ, value (ofScaled c k).digits * 10 ^ t = c ∧ (ofScaled c k).scale = k + t := by
  obtain ⟨t, ht⟩ := exists_trimTrailing_append (ofNat c)
  have hvalue : value (trimTrailing (ofNat c)) * 10 ^ t = c := by
    rw [← value_append_zeros, ← ht, value_ofNat]
  have hne : trimTrailing (ofNat c) ≠ [] := by
    intro hnil
    rw [hnil, value_nil, zero_mul] at hvalue
    exact hc.ne hvalue
  have hhead : (trimTrailing (ofNat c)).head? = (ofNat c).head? := by
    rw [ht, List.head?_append_of_ne_nil _ hne, ← ht]
  have hlength := congrArg List.length ht
  rw [List.length_append, List.length_replicate] at hlength
  refine ⟨⟨hne, ?_⟩, t, hvalue, ?_⟩
  · exact hhead.trans_ne (head?_ofNat_ne hc)
  · rw [scale, ofScaled]
    simp only
    omega

end Decimal

/-! ## Numerals -/

namespace Numeral

/-- There is a whole part, without a superfluous zero. -/
structure IsWellFormed (x : Numeral) : Prop where
  whole_ne_nil : x.whole ≠ []
  length_eq_one : x.whole.head? = some zero → x.whole.length = 1

/-- A fraction or an exponent tells the numeral from an integer. -/
structure IsPlain (x : Numeral) : Prop extends IsWellFormed x where
  isReal : x.fraction ≠ [] ∨ x.exponent ≠ none

/-- The numeral denotes the decimal, digit by digit or as a whole number with a fraction of one
zero. -/
structure Spells (x : Numeral) (d : Decimal) : Prop where
  value_eq : x.significand * (10 : ℚ) ^ x.scale = value d.digits * (10 : ℚ) ^ d.scale
  digits_or_whole : (x.significand = value d.digits ∧ x.scale = d.scale) ∨
    (x.scale = -1 ∧ x.significand < 10 ^ 14)

theorem spells_of_digits {x : Numeral} (h : x.significand = value d.digits)
    (h' : x.scale = d.scale) : x.Spells d := ⟨by rw [h, h'], Or.inl ⟨h, h'⟩⟩

theorem scientific_spells (hd : d.IsProper) (s : Bool) :
    (scientific s d).IsPlain ∧ (scientific s d).Spells d := by
  obtain ⟨head, tail, hcons⟩ := List.exists_cons_of_ne_nil hd.ne_nil
  refine ⟨⟨⟨?_, fun _ ↦ ?_⟩, Or.inr (Option.some_ne_none _)⟩, spells_of_digits ?_ ?_⟩
  · rw [scientific, hcons]
    exact List.cons_ne_nil _ _
  · rw [scientific, hcons]
    rfl
  · rw [significand, scientific, List.take_append_drop]
  · rw [scale, scientific, Decimal.scale, hcons]
    simp only [Option.getD_some, List.drop_one, List.tail_cons, List.length_cons]
    push_cast
    ring

private theorem positional_of_neg (hd : d.IsProper) (h : d.exponent < 0) :
    positional s true d =
      ⟨s, [zero], List.replicate (-(d.exponent + 1)).toNat zero ++ d.digits, none⟩ := by
  have hplaces : (d.exponent + 1).toNat = 0 := by omega
  rw [positional]
  simp [hplaces, hd.ne_nil]

private theorem positional_of_lt (h : 0 ≤ d.exponent)
    (hlt : (d.exponent + 1).toNat < d.digits.length) :
    positional s true d =
      ⟨s, d.digits.take (d.exponent + 1).toNat, d.digits.drop (d.exponent + 1).toNat, none⟩ := by
  have hbefore : (-(d.exponent + 1)).toNat = 0 := by omega
  have hafter : (d.exponent + 1).toNat - d.digits.length = 0 := by omega
  have hpos : (d.exponent + 1).toNat ≠ 0 := by omega
  have hne : d.digits ≠ [] := List.ne_nil_of_length_pos (by omega)
  rw [positional]
  simp [-neg_add_rev, hbefore, hafter, hpos, hne, not_le.mpr hlt]

private theorem positional_of_le (hd : d.IsProper) (h : 0 ≤ d.exponent)
    (hle : d.digits.length ≤ (d.exponent + 1).toNat) :
    positional s true d =
      ⟨s, d.digits ++ List.replicate ((d.exponent + 1).toNat - d.digits.length) zero, [zero],
        none⟩ := by
  have hbefore : (-(d.exponent + 1)).toNat = 0 := by omega
  rw [positional]
  simp [-neg_add_rev, hbefore, List.take_of_length_le hle, List.drop_of_length_le hle, hd.ne_nil]

theorem positional_spells (hd : d.IsProper) (hle : d.exponent ≤ 12) (s : Bool) :
    (positional s true d).IsPlain ∧ (positional s true d).Spells d := by
  rcases lt_or_ge d.exponent 0 with h | h
  · rw [positional_of_neg hd h]
    refine ⟨⟨⟨List.cons_ne_nil _ _, fun _ ↦ rfl⟩, Or.inl ?_⟩, spells_of_digits ?_ ?_⟩
    · exact List.append_ne_nil_of_right_ne_nil _ hd.ne_nil
    · rw [significand, value_append, value_zeros_append]
      exact (congrArg (· + _) (Nat.zero_mul _)).trans (Nat.zero_add _)
    · rw [scale, Decimal.scale]
      simp only [Option.getD_none, List.length_append, List.length_replicate]
      omega
  · rcases lt_or_ge (d.exponent + 1).toNat d.digits.length with hlt | hlen
    · rw [positional_of_lt h hlt]
      refine ⟨⟨⟨?_, fun hzero ↦ absurd ?_ hd.head?_ne⟩, Or.inl ?_⟩, spells_of_digits ?_ ?_⟩
      · simp [hd.ne_nil]
        omega
      · rwa [List.head?_take, if_neg (by omega)] at hzero
      · simpa using hlt
      · rw [significand, List.take_append_drop]
      · rw [scale, Decimal.scale]
        simp only [Option.getD_none, List.length_drop]
        omega
    · -- The significand is not that of the decimal, but it is short.
      rw [positional_of_le hd h hlen]
      obtain ⟨t, ht⟩ := Nat.exists_eq_add_of_le hlen
      have hsignificand : value (d.digits ++ List.replicate t zero ++ [zero]) =
          value d.digits * 10 ^ (t + 1) := by
        rw [List.append_assoc, ← List.replicate_succ', value_append_zeros]
      rw [show (d.exponent + 1).toNat - d.digits.length = t by omega]
      refine ⟨⟨⟨?_, fun hzero ↦ absurd ?_ hd.head?_ne⟩, Or.inl (List.cons_ne_nil _ _)⟩, ?_,
        Or.inr ⟨rfl, ?_⟩⟩
      · exact List.append_ne_nil_of_left_ne_nil hd.ne_nil _
      · rwa [List.head?_append_of_ne_nil _ hd.ne_nil] at hzero
      · have hscale : d.scale = (t : ℤ) := by
          rw [Decimal.scale]
          omega
        rw [significand, hsignificand, hscale, scale]
        push_cast
        rw [zpow_natCast, pow_succ]
        norm_num
        ring
      · rw [significand, hsignificand]
        calc value d.digits * 10 ^ (t + 1) < 10 ^ d.digits.length * 10 ^ (t + 1) :=
              Nat.mul_lt_mul_of_pos_right (value_lt _) (Nat.pow_pos (by decide))
          _ = 10 ^ (d.digits.length + (t + 1)) := (pow_add _ _ _).symm
          _ ≤ 10 ^ 14 := Nat.pow_le_pow_right (by decide) (by omega)

/-! ## Numbers in data files -/

/-- The numeral denotes `c * 10 ^ k`, on no finer grid unless it is that of the tenths. -/
structure Records (x : Numeral) (c : ℕ) (k : ℤ) : Prop where
  value_eq : x.significand * (10 : ℚ) ^ x.scale = c * (10 : ℚ) ^ k
  coarse_or_tenths : (x.significand ≤ c ∧ k ≤ x.scale) ∨
    (x.scale = -1 ∧ x.significand < 10 ^ 14)

theorem Spells.records {x : Numeral} (h : x.Spells (Decimal.ofScaled c k)) (hc : 0 < c) :
    x.Records c k := by
  obtain ⟨-, t, hvalue, hscale⟩ := Decimal.exists_ofScaled_eq hc k
  refine ⟨?_, h.digits_or_whole.imp_left fun ⟨hsignificand, hscale'⟩ ↦ ?_⟩
  · rw [h.value_eq, hscale, zpow_add₀ (by norm_num), zpow_natCast, mul_left_comm, mul_comm]
    exact_mod_cast congrArg (· * (10 : ℚ) ^ k) (congrArg (Nat.cast (R := ℚ)) hvalue)
  · rw [hsignificand, hscale', hscale]
    exact ⟨(Nat.le_mul_of_pos_right _ (Nat.pow_pos (by decide))).trans_eq hvalue, by omega⟩

theorem exists_ofBinary_data {m : ℕ} {e : ℤ} (hc : Format.single.Canonical m e) (hm : m ≠ 0)
    (s : Bool) : ∃ c k, Decimal.IsChoice (.finite false m e hc : Single) c k ∧
      decade (Binary.finite false m e hc : Single).toRat - 16 ≤ k ∧
      (ofBinary .data (.finite s m e hc : Single)).negative = s ∧
      (ofBinary .data (.finite s m e hc : Single)).IsPlain ∧
      (ofBinary .data (.finite s m e hc : Single)).Records c k := by
  obtain ⟨c, k, hshortest, hchoice, hk⟩ := Decimal.exists_shortest_eq hc hm .even
  have hproper := (Decimal.exists_ofScaled_eq (hchoice.pos hm) k).1
  refine ⟨c, k, hchoice, hk, ?_⟩
  have hzero : (Binary.finite s m e hc : Single).isZero = false := by simpa [Binary.isZero] using hm
  have habs : (Binary.finite s m e hc : Single).abs = .finite false m e hc := rfl
  rw [ofBinary, hzero, habs]
  simp only [Bool.false_eq_true, if_false]
  rw [show NumberStyle.data.tie = .even from rfl, hshortest]
  split
  · next hpos =>
    have hle : (Decimal.ofScaled c k).exponent ≤ 12 := (of_decide_eq_true hpos).2
    obtain ⟨hplain, hspells⟩ := positional_spells hproper hle s
    exact ⟨rfl, hplain, hspells.records (hchoice.pos hm)⟩
  · obtain ⟨hplain, hspells⟩ := scientific_spells hproper s
    exact ⟨rfl, hplain, hspells.records (hchoice.pos hm)⟩

/-- A zero is recorded with its sign. -/
theorem ofBinary_data_zero {e : ℤ} (hc : Format.single.Canonical 0 e) (s : Bool) :
    ofBinary .data (.finite s 0 e hc : Single) = ⟨s, [zero], [zero], none⟩ := rfl

end Numeral

end AffineQuant
