import AffineQuant.Json.Field
import AffineQuant.Json.Writer
import AffineQuant.Proofs.Decimal.Gap
import AffineQuant.Proofs.Decimal.Spelling
import AffineQuant.Proofs.Json.Amount

/-!
# Numbers through JSON

A finite 32-bit number is written as a shortest decimal, and read back by way of the 64-bit format
with an error of its own. That the decimal rounds to the number is clear from its choice. But it is
not the decimal that is rounded to 32 bits in the end, it is what the reader made of it, and for
decimals near a midpoint of two numbers the difference could decide. It is found again all the
same (`Json.single?_ofBinary`).

## The argument

A decimal far from the ends of the interval of the number stays inside, whatever the error. One
that is near an end stands on a coarse grid (`IsChoice.lt_of_far`), so it has a short significand
and the smaller of two errors. By the gap between decimals and midpoints it is farther from the end
than that, or it is the end itself, and then it is read exactly (`eq_or_abs_sub_lt`).

## Ends

The two ends of an interval are treated alike. `IsEnd` has what the argument needs of either: a
midpoint with a significand below `2 ^ 25`, at the distance of half a unit in the last place, which
for the lower end of a power of two is that of the predecessor.

The midpoints excepted from the gap belong to four numbers (`IsEnd.eq_of_isExcepted`). They and
their negatives are evaluated.
-/

namespace AffineQuant

open Binary Decimal

variable {m n M : ℕ} {e d E : ℤ} {c : ℕ} {k : ℤ} {v : ℚ}

/-! ## The ends of an interval -/

/-- `M * 2 ^ E` is an end of the interval of the 32-bit number `m * 2 ^ e`. -/
structure IsEnd (m : ℕ) (e : ℤ) (M : ℕ) (E : ℤ) : Prop where
  abs_sub_eq : |M * (2 : ℚ) ^ E - m * (2 : ℚ) ^ e| = (2 : ℚ) ^ E
  lt : M < 2 ^ 25
  least_le : -150 ≤ E
  le_greatest : E ≤ 103
  lt_exp : E < e

theorem isEnd_upper (hc : Format.single.Canonical m e) : IsEnd m e (2 * m + 1) (e - 1) := by
  obtain ⟨hm, hlo, hhi, -⟩ := hc
  change m < 2 ^ 24 at hm
  change -149 ≤ e at hlo
  change e ≤ 104 at hhi
  refine ⟨?_, by omega, by omega, by omega, by omega⟩
  have h := Format.midpoint_eq_add m e
  rw [Format.midpoint] at h
  rw [h, add_sub_cancel_left, abs_of_pos (zpow_two_pos _)]

theorem isEnd_lower (hd : Format.single.Canonical n d)
    (hpred : (n + 1) * (2 : ℚ) ^ d = m * (2 : ℚ) ^ e) (hle : d ≤ e) :
    IsEnd m e (2 * n + 1) (d - 1) := by
  obtain ⟨hn, hlo, hhi, -⟩ := hd
  change n < 2 ^ 24 at hn
  change -149 ≤ d at hlo
  change d ≤ 104 at hhi
  refine ⟨?_, by omega, by omega, by omega, by omega⟩
  have h := Format.midpoint_eq_sub n d
  rw [Format.midpoint] at h
  rw [h, hpred, abs_sub_comm, sub_sub_cancel, abs_of_pos (zpow_two_pos _)]

theorem eq_or_abs_sub_lt {hc : Format.single.Canonical m e} (hm : m ≠ 0)
    (h : IsChoice (finite false m e hc : Single) c k) (hend : IsEnd m e M E)
    (hexcepted : ¬IsExcepted M E) (hread : Within (1 / 2 ^ 51) v (c * (10 : ℚ) ^ k))
    (hshort : c < 2 ^ 25 → Within (5 / 2 ^ 54) v (c * (10 : ℚ) ^ k))
    (hexact : c < 2 ^ 25 → c * (10 : ℚ) ^ k = M * (2 : ℚ) ^ E → -37 ≤ E → E ≤ 36 →
      5 * (2 : ℚ) ^ E < 4 * (10 : ℚ) ^ k → v = c * (10 : ℚ) ^ k) :
    v = c * (10 : ℚ) ^ k ∨
      |v - c * (10 : ℚ) ^ k| < |c * (10 : ℚ) ^ k - M * (2 : ℚ) ^ E| := by
  have hpos := zpow_two_pos E
  have hM : (M : ℚ) * (2 : ℚ) ^ E ≤ (2 ^ 25 - 1) * (2 : ℚ) ^ E := by
    refine mul_le_mul_of_nonneg_right ?_ hpos.le
    have : (M : ℚ) + 1 ≤ 2 ^ 25 := by exact_mod_cast hend.lt
    linarith
  obtain ⟨hlo, hhi⟩ := abs_le.mp (le_refl |c * (10 : ℚ) ^ k - M * (2 : ℚ) ^ E|)
  rcases lt_or_ge ((2 : ℚ) ^ E / 2 ^ 25) |c * (10 : ℚ) ^ k - M * (2 : ℚ) ^ E| with hfar | hnear
  · -- Far from the end not even the larger error reaches it.
    right
    have : |v - c * (10 : ℚ) ^ k| ≤ 1 / 2 ^ 51 * (c * (10 : ℚ) ^ k) := hread
    linarith
  · -- Near an end the decimal is far from the number, so its grid is coarse.
    have hcoarse : 5 * (2 : ℚ) ^ E < 4 * (10 : ℚ) ^ k := by
      refine h.lt_of_far hm hpos (zpow_two_le_iff.mpr (Int.le_sub_one_of_lt hend.lt_exp)) ?_
      have htriangle := abs_sub_le ((M : ℚ) * (2 : ℚ) ^ E) (c * (10 : ℚ) ^ k) (m * (2 : ℚ) ^ e)
      rw [hend.abs_sub_eq, abs_sub_comm ((M : ℚ) * (2 : ℚ) ^ E)] at htriangle
      linarith
    have hle : c * (10 : ℚ) ^ k ≤ 2 ^ 25 * (2 : ℚ) ^ E := by linarith
    have hc25 : c < 2 ^ 25 := by
      have hten : (0 : ℚ) < (10 : ℚ) ^ k := zpow_pos (by norm_num) k
      have : (c : ℚ) < 2 ^ 25 := lt_of_mul_lt_mul_right (by linarith) hten.le
      exact_mod_cast this
    rcases eq_or_gap_or_exception hend.least_le hend.le_greatest hcoarse (h.pos hm) hend.lt hle with
      ⟨heq, hE, hE'⟩ | hgap | hexception
    · exact Or.inl (hexact hc25 heq hE hE' hcoarse)
    · exact Or.inr ((hshort hc25).trans_lt hgap)
    · exact absurd hexception hexcepted

/-! ## Reading a recorded number -/

private theorem ten_zpow_lt {a b : ℤ} (h : (10 : ℚ) ^ a < (10 : ℚ) ^ b) : a < b :=
  (zpow_lt_zpow_iff_right₀ (by norm_num)).mp h

theorem nearest_size (hc : Format.single.Canonical m e) (hm : m ≠ 0)
    (h : Format.single.nearest v = m * (2 : ℚ) ^ e) :
    (2 : ℚ) ^ (-150 : ℤ) ≤ v ∧ v < (2 : ℚ) ^ (128 : ℤ) := by
  obtain ⟨n, d, hd, hpred, -⟩ := hc.exists_pred hm
  have hupper := isEnd_upper hc
  have hleast : (-149 : ℤ) ≤ d := hd.2.1
  constructor
  · calc (2 : ℚ) ^ (-150 : ℤ) ≤ (2 : ℚ) ^ (d - 1) := zpow_two_le_iff.mpr (by omega)
      _ ≤ Format.midpoint n d := by
          refine le_mul_of_one_le_left (zpow_two_pos _).le ?_
          exact_mod_cast Nat.le_add_left 1 (2 * n)
      _ ≤ v := hd.midpoint_le (by rw [h, hpred])
  · calc v ≤ Format.midpoint m e := hc.le_midpoint h
      _ < (2 : ℚ) ^ ((25 : ℕ) + (e - 1) : ℤ) :=
          mul_lt_zpow_add (natCast_lt_zpow_iff.mpr hupper.lt) _
      _ ≤ (2 : ℚ) ^ (128 : ℤ) := zpow_two_le_iff.mpr (by
          have := hupper.le_greatest
          omega)

theorem Numeral.Records.bounds {x : Numeral} (h : x.Records c k) (hc : c ≤ 10 ^ 17)
    (hlo : (2 : ℚ) ^ (-150 : ℤ) ≤ c * (10 : ℚ) ^ k) (hhi : c * (10 : ℚ) ^ k < (2 : ℚ) ^ (128 : ℤ)) :
    0 < x.significand ∧ x.significand < 2 ^ 64 ∧ x.scale.natAbs ≤ 64 := by
  have hten : (0 : ℚ) < (10 : ℚ) ^ x.scale := zpow_pos (by norm_num) _
  rw [← h.value_eq] at hlo hhi
  have hpos : 0 < x.significand := by
    refine Nat.pos_of_ne_zero fun hzero ↦ ?_
    rw [hzero, Nat.cast_zero, zero_mul] at hlo
    exact absurd hlo (not_le.mpr (zpow_two_pos _))
  have hlt : x.significand < 2 ^ 64 := by
    rcases h.coarse_or_tenths with ⟨hle, -⟩ | ⟨-, hle⟩
    · exact (hle.trans hc).trans_lt (by norm_num)
    · exact hle.trans (by norm_num)
  refine ⟨hpos, hlt, ?_⟩
  have hone : (1 : ℚ) ≤ x.significand := by exact_mod_cast hpos
  have hlim : (x.significand : ℚ) < 2 ^ 64 := by exact_mod_cast hlt
  have hupper : x.scale < 64 := ten_zpow_lt <|
    calc (10 : ℚ) ^ x.scale ≤ x.significand * (10 : ℚ) ^ x.scale :=
          le_mul_of_one_le_left hten.le hone
      _ < (2 : ℚ) ^ (128 : ℤ) := hhi
      _ < (10 : ℚ) ^ (64 : ℤ) := by norm_num
  have hlower : -65 < x.scale := by
    by_contra hle
    have hsmall : (10 : ℚ) ^ x.scale ≤ (10 : ℚ) ^ (-65 : ℤ) :=
      zpow_le_zpow_right₀ (by norm_num) (not_lt.mp hle)
    have := mul_lt_mul_of_pos_right hlim hten
    norm_num at hsmall hlo
    linarith
  omega

theorem Numeral.Records.reads_midpoint {x : Numeral} (h : x.Records c k)
    (hM : M < 2 ^ 25) (hlo : -37 ≤ E) (hhi : E ≤ 36) (hk : 5 * (2 : ℚ) ^ E < 4 * (10 : ℚ) ^ k)
    (heq : c * (10 : ℚ) ^ k = M * (2 : ℚ) ^ E) (hpos : 0 < x.significand) :
    x.scale.natAbs ≤ 22 ∧ Format.double.Grid (x.significand * (10 : ℚ) ^ x.scale) := by
  constructor
  · rcases h.coarse_or_tenths with ⟨-, hle⟩ | ⟨hscale, -⟩
    · have hone : (1 : ℚ) ≤ x.significand := by exact_mod_cast hpos
      have hten : (0 : ℚ) < (10 : ℚ) ^ x.scale := zpow_pos (by norm_num) _
      have hlim : (M : ℚ) < 2 ^ 25 := by exact_mod_cast hM
      have hupper : x.scale < 22 := ten_zpow_lt <|
        calc (10 : ℚ) ^ x.scale ≤ x.significand * (10 : ℚ) ^ x.scale :=
              le_mul_of_one_le_left hten.le hone
          _ = M * (2 : ℚ) ^ E := h.value_eq.trans heq
          _ ≤ 2 ^ 25 * (2 : ℚ) ^ (36 : ℤ) :=
              mul_le_mul hlim.le (zpow_two_le_iff.mpr hhi) (zpow_two_pos E).le (by norm_num)
          _ < (10 : ℚ) ^ (22 : ℤ) := by norm_num
      have hlower : -22 < k := ten_zpow_lt <|
        calc (10 : ℚ) ^ (-22 : ℤ) < 5 / 4 * (2 : ℚ) ^ (-37 : ℤ) := by norm_num
          _ ≤ 5 / 4 * (2 : ℚ) ^ E :=
              mul_le_mul_of_nonneg_left (zpow_two_le_iff.mpr hlo) (by norm_num)
          _ < (10 : ℚ) ^ k := by linarith
      omega
    · rw [hscale]
      decide
  · rw [h.value_eq, heq]
    refine ⟨M, E, ?_, (show (-1074 : ℤ) ≤ E by omega), by push_cast; rfl⟩
    rw [Int.natAbs_natCast]
    exact hM.trans (by decide)

theorem Amount.of?_eq {x : Numeral} (h : x.IsPlain) :
    Amount.of? x = (Amount.real? x).map .real := by
  rw [Amount.of?]
  refine if_neg fun hinteger ↦ ?_
  rcases h.isReal with hfraction | hexponent
  · exact hfraction (List.isEmpty_iff.mp hinteger.1)
  · exact hexponent (Option.isNone_iff_eq_none.mp hinteger.2.1)

/-- Whatever the reader makes of the digits of a number rounds to the number again. -/
theorem nearest_eq_of_reads {hc : Format.single.Canonical m e} (hm : m ≠ 0) {x : Numeral}
    (h : IsChoice (finite false m e hc : Single) c k) (hrec : x.Records c k)
    (hexcepted : ∀ M E, IsEnd m e M E → ¬IsExcepted M E) (hpos : 0 < x.significand)
    (hread : Within (1 / 2 ^ 51) v (x.significand * (10 : ℚ) ^ x.scale))
    (hexact : x.significand < 2 ^ 53 →
      Within (5 / 2 ^ 54) v (x.significand * (10 : ℚ) ^ x.scale) ∧
        (x.scale.natAbs ≤ 22 → Format.double.Grid (x.significand * (10 : ℚ) ^ x.scale) →
          v = x.significand * (10 : ℚ) ^ x.scale)) :
    Format.single.nearest v = m * (2 : ℚ) ^ e := by
  have hshort : c < 2 ^ 25 → x.significand < 2 ^ 53 := fun hlt ↦ by
    rcases hrec.coarse_or_tenths with ⟨hle, -⟩ | ⟨-, hle⟩
    · exact hle.trans_lt (hlt.trans (by decide))
    · exact hle.trans (by decide)
  have hside : ∀ M E, IsEnd m e M E → v = c * (10 : ℚ) ^ k ∨
      |v - c * (10 : ℚ) ^ k| < |c * (10 : ℚ) ^ k - M * (2 : ℚ) ^ E| := fun M E hend ↦ by
    refine eq_or_abs_sub_lt hm h hend (hexcepted M E hend) ?_ ?_ ?_
    · rwa [← hrec.value_eq]
    · intro hlt
      rw [← hrec.value_eq]
      exact (hexact (hshort hlt)).1
    · intro hlt heq hlo hhi hk
      obtain ⟨hscale, hgrid⟩ := hrec.reads_midpoint hend.lt hlo hhi hk heq hpos
      rw [← hrec.value_eq]
      exact (hexact (hshort hlt)).2 hscale hgrid
  obtain ⟨n, d, hd, hpred, hexp⟩ := hc.exists_pred hm
  have hnearest := h.nearest_eq hm
  have hupper := hc.le_midpoint hnearest
  have hlower := hd.midpoint_le (hnearest.trans hpred.symm)
  rcases hside _ _ (isEnd_upper hc) with heq | hlt
  · rwa [heq]
  rcases hside _ _ (isEnd_lower hd hpred (by omega)) with heq | hlt'
  · rwa [heq]
  -- The value read is nearer to the decimal than both ends, between which the decimal lies.
  rw [← Format.midpoint, abs_of_nonpos (sub_nonpos.mpr hupper), abs_lt] at hlt
  rw [← Format.midpoint, abs_of_nonneg (sub_nonneg.mpr hlower), abs_lt] at hlt'
  exact hc.nearest_eq hd hpred (by linarith) (by linarith)

/-- An excepted midpoint is an end of the intervals of two numbers. -/
theorem IsEnd.eq_of_isExcepted (hend : IsEnd m e M E) (hc : Format.single.Canonical m e)
    (hm : m ≠ 0) (h : IsExcepted M E) :
    (m = 11420669 ∨ m = 11420670) ∧ (e = -107 ∨ e = -106) := by
  obtain ⟨rfl, hE⟩ := h
  have hcanonical : ∀ {N : ℕ}, N = 11420669 ∨ N = 11420670 →
      Format.single.Canonical N (E + 1) := by
    rintro N (rfl | rfl) <;> rcases hE with rfl | rfl <;> decide
  have hvalue : (m : ℚ) * (2 : ℚ) ^ e = (11420669 : ℕ) * (2 : ℚ) ^ (E + 1) ∨
      (m : ℚ) * (2 : ℚ) ^ e = (11420670 : ℕ) * (2 : ℚ) ^ (E + 1) := by
    rw [zpow_add_one₀ two_ne_zero]
    push_cast
    rcases (abs_eq (zpow_two_pos E).le).mp hend.abs_sub_eq with habs | habs
    · left
      push_cast at habs
      linarith
    · right
      push_cast at habs
      linarith
  rcases hvalue with heq | heq
  · obtain ⟨rfl, rfl⟩ := hc.unique (hcanonical (Or.inl rfl)) hm (by decide) heq
    omega
  · obtain ⟨rfl, rfl⟩ := hc.unique (hcanonical (Or.inr rfl)) hm (by decide) heq
    omega

/-! ## The way through JSON -/

namespace Json

private theorem single?_ofBinary_excepted (s : Bool) : ∀ m ∈ [11420669, 11420670],
    ∀ e ∈ [-107, -106], ∀ hc : Format.single.Canonical m e,
      (ofBinary (finite s m e hc : Single)).single? = some (finite s m e hc) := by
  cases s <;> decide +kernel

/-- **Numbers through JSON.** Every finite number is read as it was written, the sign of a zero
included. -/
theorem single?_ofBinary {x : Single} (hx : x.isFinite = true) :
    (ofBinary x).single? = some x := by
  obtain ⟨s, m, e, hc, rfl⟩ := exists_eq_finite hx
  rw [ofBinary, if_pos hx]
  rcases eq_or_ne m 0 with rfl | hm
  · obtain rfl : e = -149 := hc.2.2.2.resolve_left (by decide)
    cases s <;> decide +kernel +revert
  by_cases hexcepted : (m = 11420669 ∨ m = 11420670) ∧ (e = -107 ∨ e = -106)
  · have := single?_ofBinary_excepted s m (by simpa using hexcepted.1) e
      (by simpa using hexcepted.2) hc
    rwa [ofBinary, if_pos hx] at this
  obtain ⟨c, k, hchoice, hk, hsign, hplain, hrec⟩ :=
    Numeral.exists_ofBinary_data hc hm s
  obtain ⟨hlo, hhi⟩ := nearest_size hc hm (hchoice.nearest_eq hm)
  obtain ⟨hpos, hlt, hscale⟩ := hrec.bounds (hchoice.le_ten_pow hm hk) hlo hhi
  obtain ⟨y, v, hy, hdenotes, hread, hexact⟩ := Amount.exists_real?_eq hpos hlt hscale
  have hnearest := nearest_eq_of_reads hm hchoice hrec
    (fun M E hend h ↦ hexcepted (hend.eq_of_isExcepted hc hm h)) hpos hread hexact
  have hne : (m : ℚ) * (2 : ℚ) ^ e ≠ 0 :=
    mul_ne_zero (Nat.cast_ne_zero.mpr hm) (zpow_two_pos e).ne'
  have hfin : |Format.single.nearest v| < Format.single.threshold := by
    rw [hnearest]
    exact hc.holds.1
  rw [single?, Amount.of?_eq hplain, hy, hsign, Option.map_some, Option.map_some,
    Option.some.injEq, Amount.toSingle]
  cases s with
  | false =>
    have hnarrow : y.narrow.Denotes (m * (2 : ℚ) ^ e) := by
      rw [← hnearest]
      exact hdenotes.convert_nearest hfin
    exact hnarrow.unique (denotes_toRat rfl) hne
  | true =>
    have hnarrow : (-y).narrow.Denotes (-(m * (2 : ℚ) ^ e)) := by
      rw [← hnearest, ← Format.nearest_neg]
      exact hdenotes.neg.convert_nearest (by rwa [Format.nearest_neg, abs_neg])
    exact hnarrow.unique (denotes_toRat rfl) (neg_ne_zero.mpr hne)

end Json

end AffineQuant
