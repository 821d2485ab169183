import AffineQuant.Proofs.Json.Number
import AffineQuant.Proofs.Json.RoundTrip

/-!
# Records through JSON

What the readers of fields make of values that were written: texts, integers of a machine word and
32-bit numbers are found again, and all of them are well formed, so that the text of a record is
parsed. A record goes through JSON if its fields do, and the files on tables and settings only have
to say what their fields are.

## What is lost

Only a number that is not finite is lost. It is written as `null`, since there is no other way to
spell it, and a reader that wants a number refuses that (`single?_ofBinary_eq_none`). Writing does
not fail, so the loss shows only when the text is read. The text is well formed all the same: what
is written for a number is either a numeral or `null`, and both may be kept as they are
(`isDefinite_ofBinary`).

## Bounds on integers

Integers are written without a fraction and are read exactly up to 64 bits, the width of the
widest integers that the records have (`word?_ofInt`).
-/

namespace AffineQuant

theorem TextUnit.decode?_map_char (cs : List Char) : decode? (cs.map .char) = some cs := by
  induction cs with
  | nil => rfl
  | cons c cs ih =>
    rw [List.map_cons, decode?, ih]
    rfl

namespace Json

/-! ## Members -/

theorem named?_map_unitsOf (members : List (String × Json)) :
    named? (members.map fun m ↦ (unitsOf m.1, m.2)) = some members := by
  induction members with
  | nil => rfl
  | cons m members ih =>
    rw [named?] at ih ⊢
    rw [List.map_cons, List.mapM_cons, ih, unitsOf, TextUnit.decode?_map_char, Option.map_some,
      String.ofList_toList]
    rfl

theorem isWellFormed_record {members : List (String × Json)}
    (h : ∀ m ∈ members, m.2.IsWellFormed) : (record members).IsWellFormed := by
  rw [record, IsWellFormed]
  induction members with
  | nil => trivial
  | cons m members ih =>
    exact ⟨h m List.mem_cons_self, ih fun m' hm ↦ h m' (List.mem_cons_of_mem m hm)⟩

theorem areItemsWellFormed {items : List Json} (h : ∀ v ∈ items, v.IsWellFormed) :
    AreItemsWellFormed items := by
  induction items with
  | nil => trivial
  | cons v items ih =>
    exact ⟨h v List.mem_cons_self, ih fun v' hv ↦ h v' (List.mem_cons_of_mem v hv)⟩

/-! ## Integers -/

theorem isWellFormed_ofInt (n : ℤ) : (ofInt n).IsWellFormed := Digit.isWellFormed_ofNat _ _ _ _

/-- A word is found again if it is no wider than the integers that are read exactly. -/
theorem word?_ofInt {width n : ℕ} (hwidth : width ≤ 64) (h : n < pow2 width) :
    (ofInt n).word? width = some n := by
  have hlimit : pow2 width ≤ pow2 64 := Nat.pow_le_pow_right two_pos hwidth
  have hsign : ¬((n : ℤ) < 0) := not_lt.mpr (Int.natCast_nonneg n)
  have hamount : Amount.of? ⟨decide ((n : ℤ) < 0), Digit.ofNat (n : ℤ).natAbs, [], none⟩ =
      some (.integer n) := by
    rw [Amount.of?, Int.natAbs_natCast, decide_eq_false hsign]
    simp only [Digit.value_ofNat, Bool.false_eq_true, if_false]
    exact if_pos ⟨rfl, rfl, h.trans_le hlimit⟩
  have hrange : (0 : ℤ) ≤ n ∧ (n : ℤ) ≤ (pow2 width - 1 : ℕ) := by omega
  rw [word?, ofInt, int?, hamount]
  simp only [if_pos hrange, Option.map_some, Int.toNat_natCast]

/-! ## Numbers -/

theorem isWellFormed_ofBinary (x : Single) : (ofBinary x).IsWellFormed := by
  rw [ofBinary]
  split
  · next hx =>
    obtain ⟨s, m, e, hc, rfl⟩ := Binary.exists_eq_finite hx
    rcases eq_or_ne m 0 with rfl | hm
    · rw [Numeral.ofBinary_data_zero]
      exact ⟨List.cons_ne_nil _ _, fun _ ↦ rfl⟩
    · obtain ⟨c, k, -, -, -, hplain, -⟩ := Numeral.exists_ofBinary_data hc hm s
      exact hplain.toIsWellFormed
  · trivial

theorem single?_ofBinary_eq_none {x : Single} (hx : ¬x.isFinite = true) :
    (ofBinary x).single? = none := by
  rw [ofBinary, if_neg hx]
  rfl

/-- Whatever is written for a number may be kept. -/
theorem isDefinite_ofBinary (x : Single) : (ofBinary x).isDefinite = true := by
  by_cases hx : x.isFinite = true
  · have h := single?_ofBinary hx
    rw [ofBinary, if_pos hx] at h ⊢
    obtain ⟨a, ha, -⟩ := Option.map_eq_some_iff.mp h
    rw [isDefinite, ha]
    rfl
  · rw [ofBinary, if_neg hx]
    rfl

theorem depth_ofBinary (x : Single) : (ofBinary x).depth = 0 := by
  rw [ofBinary]
  split <;> rfl

end Json

end AffineQuant
