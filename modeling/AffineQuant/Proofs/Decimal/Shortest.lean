import AffineQuant.Proofs.Binary.Midpoint
import AffineQuant.Proofs.Decimal.Digits

/-!
# The choice of a shortest decimal

What is known of the decimal that `Decimal.shortest` finds, for either treatment of ties. That no
shorter one exists is not needed for reading it back, and it is not shown.

## The choice

The decimal stands next to the number on its grid and reads back, and of two neighbours that read
back it is the nearer one. `IsChoice` says so about the multiple `c` of `10 ^ k`, before trailing
zeros are dropped. On each grid the search looks at two candidates, the multiples below and above
the number, and the four outcomes are reduced to one statement by counting distances in steps
(`isChoice_of_steps`).

A grid of seventeen digits always has such a decimal, since its steps are less than the distance
within which everything rounds to the number, so the search ends (`exists_shortest_eq`).

## What the choice excludes

That the nearer neighbour is taken has a consequence for the decimals that barely read back. If
one lies near the end of the interval of the number and its grid were not coarser than the distance
to that end, then the neighbour on the other side would lie well within the interval and would have
been taken (`IsChoice.lt_of_far`). So a decimal near an end has few digits, and that is what the
reader is accurate for.
-/

namespace AffineQuant.Decimal

open Binary

variable {f : Format} {x : Binary f} {tie : Tie} {c : ℕ} {k : ℤ} {d : Decimal}

private theorem ten_zpow_pos (k : ℤ) : (0 : ℚ) < (10 : ℚ) ^ k := zpow_pos (by norm_num) k

/-- The multiple `c` of `10 ^ k` is a neighbour of the number that reads back, and no nearer
neighbour does. -/
structure IsChoice (x : Binary f) (c : ℕ) (k : ℤ) : Prop where
  round_eq : round false (c * (10 : ℚ) ^ k) = x
  abs_sub_le : |c * (10 : ℚ) ^ k - x.toRat| ≤ (10 : ℚ) ^ k
  nearest : ∀ n : ℤ, |n * (10 : ℚ) ^ k - x.toRat| < (10 : ℚ) ^ k →
    round false (n * (10 : ℚ) ^ k) = x →
      |c * (10 : ℚ) ^ k - x.toRat| ≤ |n * (10 : ℚ) ^ k - x.toRat|

/-! ## One grid -/

private theorem isChoice_of_steps {q : ℚ} {n : ℤ} (hq : x.toRat = q * (10 : ℚ) ^ k) (hn : 0 ≤ n)
    (hround : round false (n * (10 : ℚ) ^ k) = x) (hle : |n - q| ≤ 1)
    (hnearest : ∀ j : ℤ, |j - q| < 1 → round false (j * (10 : ℚ) ^ k) = x →
      |n - q| ≤ |j - q|) : IsChoice x n.toNat k := by
  have hpos := ten_zpow_pos k
  have hcast : ((n.toNat : ℕ) : ℚ) = n := by exact_mod_cast Int.toNat_of_nonneg hn
  have hdist : ∀ j : ℤ, |j * (10 : ℚ) ^ k - x.toRat| = |j - q| * (10 : ℚ) ^ k := fun j ↦ by
    rw [hq, ← sub_mul, abs_mul, abs_of_pos hpos]
  refine ⟨by rwa [hcast], ?_, fun j hj hjround ↦ ?_⟩
  · rw [hcast, hdist]
    exact mul_le_of_le_one_left hpos.le hle
  · rw [hdist, mul_lt_iff_lt_one_left hpos] at hj
    rw [hcast, hdist, hdist]
    exact mul_le_mul_of_nonneg_right (hnearest j hj hjround) hpos.le

private theorem abs_floor_sub (q : ℚ) : |(q.floor : ℚ) - q| = q - q.floor := by
  rw [abs_sub_comm, abs_of_nonneg (sub_nonneg.mpr (Rat.floor_le q))]

private theorem abs_floor_add_one_sub (q : ℚ) :
    |((q.floor + 1 : ℤ) : ℚ) - q| = q.floor + 1 - q := by
  have hlt := Rat.lt_floor_add_one q
  push_cast at hlt ⊢
  exact abs_of_pos (sub_pos.mpr hlt)

private theorem eq_floor_or_of_abs_sub_lt {q : ℚ} {j : ℤ} (h : |(j : ℚ) - q| < 1) :
    j = q.floor ∨ j = q.floor + 1 := by
  have hlo := Rat.floor_le q
  have hhi : q < q.floor + 1 := by exact_mod_cast Rat.lt_floor_add_one q
  rw [abs_lt] at h
  have hj1 : (q.floor : ℚ) < j + 1 := by linarith
  have hj2 : (j : ℚ) < q.floor + 2 := by linarith
  norm_cast at hj1 hj2
  omega

theorem exists_of_onGrid?_eq_some (hx : 0 ≤ x.toRat) (h : onGrid? tie x k = some d) :
    ∃ c, d = ofScaled c k ∧ IsChoice x c k := by
  have hpos := ten_zpow_pos k
  obtain ⟨q, hq⟩ : ∃ q, x.toRat = q * (10 : ℚ) ^ k :=
    ⟨x.toRat / (10 : ℚ) ^ k, (div_mul_cancel₀ _ hpos.ne').symm⟩
  have hfloor : 0 ≤ q.floor := by
    rw [hq, mul_nonneg_iff_of_pos_right hpos] at hx
    exact Rat.le_floor_iff.mpr (by exact_mod_cast hx)
  have hlo := Rat.floor_le q
  have hhi : q < q.floor + 1 := by exact_mod_cast Rat.lt_floor_add_one q
  have hdown := abs_floor_sub q
  have hup := abs_floor_add_one_sub q
  rw [onGrid?] at h
  simp only [hq, mul_div_cancel_right₀ _ hpos.ne'] at h
  split at h <;> rename_i hreadsDown hreadsUp <;>
    simp only [beq_iff_eq, beq_eq_false_iff_ne] at hreadsDown hreadsUp
  · cases h
  · refine ⟨_, (Option.some.inj h).symm, isChoice_of_steps hq hfloor hreadsDown (by linarith) ?_⟩
    intro j hj hjround
    obtain rfl | rfl := eq_floor_or_of_abs_sub_lt hj
    · exact le_rfl
    · exact absurd hjround hreadsUp
  · refine ⟨_, (Option.some.inj h).symm, isChoice_of_steps hq (by omega) hreadsUp (by linarith) ?_⟩
    intro j hj hjround
    obtain rfl | rfl := eq_floor_or_of_abs_sub_lt hj
    · exact absurd hjround hreadsDown
    · exact le_rfl
  · -- Both neighbours read back, and the nearer one is taken.
    refine ⟨_, (Option.some.inj h).symm, ?_⟩
    split
    · next hle =>
      have : q - q.floor ≤ 1 / 2 := hle.elim le_of_lt fun h ↦ h.1.le
      refine isChoice_of_steps hq hfloor hreadsDown (by linarith) fun j hj _ ↦ ?_
      obtain rfl | rfl := eq_floor_or_of_abs_sub_lt hj
      · exact le_rfl
      · rw [hdown, hup]
        linarith
    · next hle =>
      have : 1 / 2 ≤ q - q.floor := not_lt.mp fun h ↦ hle (Or.inl h)
      refine isChoice_of_steps hq (by omega) hreadsUp (by linarith) fun j hj _ ↦ ?_
      obtain rfl | rfl := eq_floor_or_of_abs_sub_lt hj
      · rw [hdown, hup]
        linarith
      · exact le_rfl

/-- A grid is passed over only if the neighbour below does not read back. -/
theorem onGrid?_ne_none
    (h : round false ((x.toRat / (10 : ℚ) ^ k).floor * (10 : ℚ) ^ k) = x) :
    onGrid? tie x k ≠ none := by
  rw [onGrid?]
  simp only
  split
  · next hdown _ => exact absurd h (by simpa using hdown)
  · exact Option.some_ne_none _
  · exact Option.some_ne_none _
  · exact Option.some_ne_none _

/-! ## The search -/

section Positive

variable {m : ℕ} {e : ℤ} {hc : Format.single.Canonical m e} (hm : m ≠ 0)

include hm

variable (hc) in
private theorem toRat_pos : 0 < (finite false m e hc : Single).toRat :=
  mul_pos (Nat.cast_pos.mpr (Nat.pos_of_ne_zero hm)) (zpow_two_pos e)

private theorem round_eq_of_near {v : ℚ} (h : |v - m * (2 : ℚ) ^ e| < (2 : ℚ) ^ (e - 2)) :
    round false v = (finite false m e hc : Single) :=
  (round_eq_iff (denotes_toRat rfl) (toRat_pos hc hm).ne' false).mpr
    (hc.nearest_eq_of_abs_sub_lt hm h)

private theorem onGrid?_seventeen_ne_none :
    onGrid? tie (finite false m e hc : Single) (decade (finite false m e hc : Single).toRat - 16) ≠
      none := by
  have hdecade := (zpow_decade_le_and_lt (toRat_pos hc hm)).1
  refine onGrid?_ne_none (round_eq_of_near hm ?_)
  set q := (finite false m e hc : Single).toRat with hq
  have hvalue : q = m * (2 : ℚ) ^ e := rfl
  have hpos := ten_zpow_pos (decade q - 16)
  have hlo := (le_div_iff₀ hpos).mp (Rat.floor_le (q / (10 : ℚ) ^ (decade q - 16)))
  have hhi : q < ((q / (10 : ℚ) ^ (decade q - 16)).floor + 1) * (10 : ℚ) ^ (decade q - 16) := by
    rw [← div_lt_iff₀ hpos]
    exact_mod_cast Rat.lt_floor_add_one _
  have hstep : (10 : ℚ) ^ (decade q - 16) < (2 : ℚ) ^ (e - 2) := by
    have hm' : (m : ℚ) < 2 ^ 24 := by exact_mod_cast hc.1
    have htwo := zpow_two_pos e
    have hlt := mul_lt_mul_of_pos_right hm' htwo
    rw [zpow_sub₀ (by norm_num), zpow_sub₀ (by norm_num)]
    norm_num
    linarith
  rw [← hvalue, abs_lt]
  constructor <;> linarith

variable (hc) in
theorem exists_shortest_eq (tie : Tie) : ∃ c k,
    shortest tie (finite false m e hc : Single) = ofScaled c k ∧
      IsChoice (finite false m e hc : Single) c k ∧
        decade (finite false m e hc : Single).toRat - 16 ≤ k := by
  rw [shortest]
  cases hs : (List.range 17).findSome? fun n : ℕ ↦
      onGrid? tie (finite false m e hc : Single)
        (decade (finite false m e hc : Single).toRat - n) with
  | none =>
    -- The last grid of the search is the one of seventeen digits.
    have h := List.findSome?_eq_none_iff.mp hs 16 (by decide)
    exact absurd h (onGrid?_seventeen_ne_none hm)
  | some d =>
    obtain ⟨n, hn, hd⟩ := List.exists_of_findSome?_eq_some hs
    obtain ⟨c, rfl, hchoice⟩ := exists_of_onGrid?_eq_some (toRat_pos hc hm).le hd
    have hlt := List.mem_range.mp hn
    exact ⟨c, _, rfl, hchoice, by omega⟩

/-! ## Consequences of the choice -/

namespace IsChoice

theorem pos (h : IsChoice (finite false m e hc : Single) c k) : 0 < c := by
  refine Nat.pos_of_ne_zero fun hzero ↦ ?_
  have hround := h.round_eq
  rw [hzero, Nat.cast_zero, zero_mul, Binary.round, if_pos rfl] at hround
  have := congrArg toRat hround
  rw [(denotes_zero false).toRat_eq] at this
  exact (toRat_pos hc hm).ne this

theorem nearest_eq (h : IsChoice (finite false m e hc : Single) c k) :
    Format.single.nearest (c * (10 : ℚ) ^ k) = m * (2 : ℚ) ^ e :=
  (round_eq_iff (denotes_toRat rfl) (toRat_pos hc hm).ne' false).mp h.round_eq

theorem le_ten_pow (h : IsChoice (finite false m e hc : Single) c k)
    (hk : decade (finite false m e hc : Single).toRat - 16 ≤ k) : c ≤ 10 ^ 17 := by
  have hpos := ten_zpow_pos k
  have hdecade := (zpow_decade_le_and_lt (toRat_pos hc hm)).2
  have hsub := (abs_le.mp h.abs_sub_le).2
  have hle : (10 : ℚ) ^ (decade (finite false m e hc : Single).toRat + 1) ≤
      (10 : ℚ) ^ 17 * (10 : ℚ) ^ k := by
    rw [← zpow_natCast, ← zpow_add₀ (by norm_num)]
    exact zpow_le_zpow_right₀ (by norm_num) (by push_cast; omega)
  have hlt : (c : ℚ) < 10 ^ 17 + 1 := lt_of_mul_lt_mul_right (by linarith) hpos.le
  exact Nat.lt_succ_iff.mp (by exact_mod_cast hlt)

/-- If the decimal is far from the number for an interval of the given radius, its grid is
coarse. -/
theorem lt_of_far {r : ℚ} (h : IsChoice (finite false m e hc : Single) c k) (hr : 0 < r)
    (hle : r ≤ (2 : ℚ) ^ (e - 1)) (hfar : 31 / 32 * r ≤ |c * (10 : ℚ) ^ k - m * (2 : ℚ) ^ e|) :
    5 * r < 4 * (10 : ℚ) ^ k := by
  by_contra hfine
  rw [not_lt] at hfine
  have hhalf : (2 : ℚ) ^ (e - 1) = 2 * (2 : ℚ) ^ (e - 2) := by
    rw [← zpow_one_add₀ two_ne_zero]
    congr 1
    omega
  have hsub : |c * (10 : ℚ) ^ k - m * (2 : ℚ) ^ e| ≤ (10 : ℚ) ^ k := h.abs_sub_le
  -- The neighbour on the other side reads back and is nearer.
  obtain ⟨n, hn⟩ : ∃ n : ℤ, |n * (10 : ℚ) ^ k - m * (2 : ℚ) ^ e| ≤ 9 / 32 * r := by
    rcases abs_cases (c * (10 : ℚ) ^ k - m * (2 : ℚ) ^ e) with ⟨habs, -⟩ | ⟨habs, -⟩
    · refine ⟨c - 1, ?_⟩
      push_cast
      rw [abs_le]
      constructor <;> linarith
    · refine ⟨c + 1, ?_⟩
      push_cast
      rw [abs_le]
      constructor <;> linarith
  have hnearest := h.nearest n (lt_of_le_of_lt hn (by linarith)) (round_eq_of_near hm (by linarith))
  have hvalue : (finite false m e hc : Single).toRat = m * (2 : ℚ) ^ e := rfl
  rw [hvalue] at hnearest
  linarith

end IsChoice

end Positive

end AffineQuant.Decimal
