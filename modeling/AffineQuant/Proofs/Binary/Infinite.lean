import AffineQuant.Proofs.Binary.Exact

/-!
# NaN and infinities

The operations where an operand is no finite number. `Denotes` says nothing there, and neither do
the lemmas on rounding, so these cases are settled from the definitions, once for each operation
that the library uses on such operands.

NaN goes through all of them. An infinity survives a finite operand, except in a product with
zero, which is NaN, so a product with an operand that is not finite is never finite again
(`mul_eq_nan_or_inf`). That one statement excludes all these operands wherever a finite result is
known.

## Signs

Which infinity it is depends on sign bits, and a sign bit says something about the value only
where that is not zero (`sign_toRat`). The lemmas on quotients therefore have a positive divisor,
whose sign and significand are taken apart together (`Denotes.exists_eq_of_pos`), and a product
with an infinity says what happens at zero as well (`Denotes.mul_inf`). The zero is the one number
for which the bit has to be followed by itself: divided by a positive number, the positive zero
keeps its sign (`zero_div_of_pos`).

## Comparisons

A positive number is finite or the positive infinity, and clamping moves an infinity to the end on
its side. NaN is related to nothing, and stays.
-/

namespace AffineQuant.Binary

variable {f : Format} {x y lo hi : Binary f} {q : ℚ}

/-! ## NaN -/

theorem eq_nan_of_isNaN (h : x.isNaN = true) : x = nan := by
  cases x with
  | nan => rfl
  | inf s => exact absurd h Bool.false_ne_true
  | finite s m e hc => exact absurd h Bool.false_ne_true

theorem not_nan_lt (y : Binary f) : ¬nan < y := Bool.false_ne_true

theorem not_lt_nan (x : Binary f) : ¬x < nan := by
  cases x <;> exact Bool.false_ne_true

theorem sub_nan (x : Binary f) : x - nan = nan := by
  cases x <;> rfl

theorem div_nan (x : Binary f) : x / nan = nan := by
  cases x <;> rfl

/-! ## Sums and differences -/

theorem inf_add (s : Bool) (h : y.isFinite = true) : inf s + y = inf s := by
  obtain ⟨t, n, d, hd, rfl⟩ := exists_eq_finite h
  rfl

theorem inf_sub (s : Bool) (h : y.isFinite = true) : inf s - y = inf s := by
  obtain ⟨t, n, d, hd, rfl⟩ := exists_eq_finite h
  rfl

theorem sub_inf (s : Bool) (h : x.isFinite = true) : x - inf s = inf (!s) := by
  obtain ⟨t, n, d, hd, rfl⟩ := exists_eq_finite h
  rfl

/-! ## Products and quotients -/

theorem mul_eq_nan_or_inf (h : ¬(x.isFinite = true ∧ y.isFinite = true)) :
    x * y = nan ∨ ∃ s, x * y = inf s := by
  have hzero : ∀ (n : ℕ) (s : Bool), (if n = 0 then nan else inf s : Binary f) = nan ∨
      ∃ t, (if n = 0 then nan else inf s : Binary f) = inf t := fun n s ↦
    (ite_eq_or_eq (n = 0) nan (inf s)).imp_right fun heq ↦ ⟨s, heq⟩
  rcases x with _ | s | ⟨s, m, e, hc⟩ <;> rcases y with _ | t | ⟨t, n, d, hd⟩
  · exact Or.inl rfl
  · exact Or.inl rfl
  · exact Or.inl rfl
  · exact Or.inl rfl
  · exact Or.inr ⟨s != t, rfl⟩
  · exact hzero n (s != t)
  · exact Or.inl rfl
  · exact hzero m (s != t)
  · exact absurd ⟨rfl, rfl⟩ h

theorem sign_toRat (s : Bool) {m : ℕ} {e : ℤ} (hc : f.Canonical m e) (hm : m ≠ 0) :
    (finite s m e hc).toRat ≠ 0 ∧ decide ((finite s m e hc).toRat < 0) = s := by
  have hpos : (0 : ℚ) < m * (2 : ℚ) ^ e :=
    mul_pos (Nat.cast_pos.mpr (Nat.pos_of_ne_zero hm)) (zpow_two_pos e)
  cases s with
  | false => exact ⟨hpos.ne', decide_eq_false hpos.not_gt⟩
  | true => exact ⟨(neg_neg_iff_pos.mpr hpos).ne, decide_eq_true (neg_neg_iff_pos.mpr hpos)⟩

theorem Denotes.isNegative_eq (hx : x.Denotes q) (hq : q ≠ 0) : x.isNegative = decide (q < 0) := by
  obtain ⟨s, m, e, hc, rfl, rfl⟩ := hx.exists_eq_finite
  have hm : m ≠ 0 := by
    rintro rfl
    exact hq (toRat_of_significand_eq_zero s hc)
  exact (sign_toRat s hc hm).2.symm

/-- Times an infinity, a finite number keeps nothing but its sign. -/
theorem Denotes.mul_inf (hx : x.Denotes q) :
    x * inf false = if q = 0 then nan else inf (decide (q < 0)) := by
  obtain ⟨s, m, e, hc, rfl, rfl⟩ := hx.exists_eq_finite
  change (if m = 0 then nan else inf (s != false)) = _
  rw [Bool.bne_false]
  by_cases hm : m = 0
  · subst hm
    rw [if_pos rfl, if_pos (toRat_of_significand_eq_zero s hc)]
  · obtain ⟨hne, hsign⟩ := sign_toRat s hc hm
    rw [if_neg hm, if_neg hne, hsign]

theorem Denotes.exists_eq_of_pos (hy : y.Denotes q) (hq : 0 < q) :
    ∃ n d hd, n ≠ 0 ∧ y = finite false n d hd ∧ q = (finite false n d hd).toRat := by
  obtain ⟨t, n, d, hd, rfl, rfl⟩ := hy.exists_eq_finite
  have hn : n ≠ 0 := by
    rintro rfl
    exact hq.ne' (toRat_of_significand_eq_zero t hd)
  have ht := (sign_toRat t hd hn).2
  rw [decide_eq_false hq.not_gt] at ht
  subst ht
  exact ⟨n, d, hd, hn, rfl, rfl⟩

theorem inf_mul_of_pos (s : Bool) (hy : y.Denotes q) (hq : 0 < q) : inf s * y = inf s := by
  obtain ⟨n, d, hd, hn, rfl, -⟩ := hy.exists_eq_of_pos hq
  change (if n = 0 then nan else inf (s != false)) = inf s
  rw [if_neg hn, Bool.bne_false]

theorem inf_div_of_pos (s : Bool) (hy : y.Denotes q) (hq : 0 < q) : inf s / y = inf s := by
  obtain ⟨n, d, hd, -, rfl, -⟩ := hy.exists_eq_of_pos hq
  change inf (s != false) = inf s
  rw [Bool.bne_false]

theorem zero_div_of_pos [f.Proper] (hy : y.Denotes q) (hq : 0 < q) : (0 : Binary f) / y = 0 := by
  obtain ⟨n, d, hd, hn, rfl, -⟩ := hy.exists_eq_of_pos hq
  have hzero : (0 : Binary f) = finite false 0 f.leastExp Format.canonical_zero :=
    dif_pos Format.canonical_zero
  rw [hzero]
  change (if n = 0 then _ else round false (toRat _ / toRat _)) = _
  rw [if_neg hn, toRat_of_significand_eq_zero, zero_div, ← hzero]
  rfl

/-! ## Comparisons -/

theorem eq_inf_or_denotes_of_pos [f.Proper] (h : 0 < y) :
    y = inf false ∨ ∃ r > 0, y.Denotes r := by
  have hzero : (0 : Binary f).Denotes 0 := denotes_zero false
  rcases y with _ | ⟨_ | _⟩ | ⟨s, m, e, hc⟩
  · exact absurd h (not_lt_nan 0)
  · exact Or.inl rfl
  · obtain ⟨t, n, d, hd, heq, -⟩ := hzero.exists_eq_finite
    rw [heq] at h
    exact absurd h Bool.false_ne_true
  · have hy := denotes_toRat (x := finite s m e hc) rfl
    exact Or.inr ⟨_, (hzero.lt_iff hy).mp h, hy⟩

/-- An infinity is moved to the end of the interval on its side. -/
theorem clamp_inf (s : Bool) (hlo : lo.isFinite = true) (hhi : hi.isFinite = true) :
    (inf s).clamp lo hi = if s = true then lo else hi := by
  obtain ⟨t, n, d, hd, rfl⟩ := exists_eq_finite hlo
  obtain ⟨u, k, g, hg, rfl⟩ := exists_eq_finite hhi
  cases s <;> rfl

theorem isFinite_widen (x : Single) : x.widen.isFinite = x.isFinite := by
  rcases x with _ | s | ⟨s, m, e, hc⟩
  · rfl
  · rfl
  · exact (denotes_toRat (x := finite s m e hc) rfl).widen.isFinite_eq

end AffineQuant.Binary
