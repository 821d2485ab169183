import AffineQuant.Proofs.AffineCode.Derive
import AffineQuant.Proofs.Store.History

/-!
# The scale

The scale is the number of codes per unit, so it falls when bounds get wider and rises with the
number of bits. That this survives four roundings needs no estimate: each stage between the bounds
and the scale is monotone in its own argument, the widening to zero, the floor of the span and
every rounding, down to the subnormal numbers and up to the widest bounds (`scaleValue_mono`).

## Bounds within others

`Bounds.IsWithin` compares ends as numbers, so it excludes NaN and nothing else. The bounds may be
infinite and they may be upside down; if the outer ones have a code then so do the inner ones
(`IsWithin.isCodable`), which is why the statements have no hypothesis about the inner bounds.

## Stores that grow

A store only ever gains on what it knows of a tensor. `Store.Grows` lists the operations that
record, in any order and number; clearing is not among them. Each joins something to the content
of the store (`Grows.content_le`), and the order of contents, in which an end that is NaN is the
least of all, is turned into `IsWithin` where the first bounds had no NaN in them. Hence the scale
of a tensor never rises again while samples are recorded, and recording gives no code to a tensor
that had bounds and no code.
-/

namespace AffineQuant

open Binary

/-! ## Wider bounds -/

namespace Bounds

variable {a b : Bounds} {lo hi lo' hi' : ℚ}

/-- The bounds lie within others. No end is NaN then, since NaN is comparable with nothing. -/
structure IsWithin (a b : Bounds) : Prop where
  min : b.min ≤ a.min
  max : a.max ≤ b.max

/-- Among ends that are not NaN, zero is one more sample. -/
theorem includingZero_eq_union (hmin : b.min.isNaN = false) (hmax : b.max.isNaN = false) :
    b.includingZero = b.union (point 0) := by
  rw [includingZero, union, least, greatest, if_neg (Bool.eq_false_iff.mp hmin),
    if_neg (Bool.eq_false_iff.mp hmax)]
  rfl

theorem IsWithin.isCodable (h : a.IsWithin b) (hb : b.IsCodable) : a.IsCodable := by
  obtain ⟨-, -, hmin, hmax⟩ := hb
  refine ⟨(isNaN_of_le h.min).2, (isNaN_of_le h.max).1, ?_, ?_⟩
  · intro hinf
    exact hmin (eq_inf_of_le_inf (hinf ▸ h.min))
  · intro hinf
    exact hmax (eq_inf_of_inf_le (hinf ▸ h.max))

theorem IsWithin.widened (h : a.IsWithin b) (ha : a.Widened lo hi) (hb : b.Widened lo' hi') :
    lo' ≤ lo ∧ hi ≤ hi' := by
  obtain ⟨hbmin, hamin⟩ := isNaN_of_le h.min
  obtain ⟨hamax, hbmax⟩ := isNaN_of_le h.max
  have hlow := (le_iff_lowPlace_le hbmin hamin).mp h.min
  have hhigh := (le_iff_highPlace_le hamax hbmax).mp h.max
  constructor
  · rw [← hb.min.le_iff ha.min, le_iff_lowPlace_le hb.min.isNaN_eq ha.min.isNaN_eq,
      includingZero_eq_union hbmin hbmax, includingZero_eq_union hamin hamax, union, union,
      lowPlace_least, lowPlace_least]
    exact inf_le_inf_right _ hlow
  · rw [← ha.max.le_iff hb.max, le_iff_highPlace_le ha.max.isNaN_eq hb.max.isNaN_eq,
      includingZero_eq_union hbmin hbmax, includingZero_eq_union hamin hamax, union, union,
      highPlace_greatest, highPlace_greatest]
    exact sup_le_sup_right hhigh _

end Bounds

/-! ## The scale of bounds -/

namespace AffineCode

variable {a b : Bounds} {c c' : AffineCode} {lo hi lo' hi' : ℚ} {bits bits' : ℕ}

theorem spanValue_mono (h : hi - lo ≤ hi' - lo') : spanValue lo hi ≤ spanValue lo' hi' :=
  max_le_max (Format.nearest_mono h) le_rfl

theorem scaleValue_mono (hspan : hi - lo ≤ hi' - lo') (hbits : bits ≤ bits') :
    scaleValue lo' hi' bits ≤ scaleValue lo hi bits' := by
  have htop : (topCode bits : ℚ) ≤ topCode bits' := by exact_mod_cast topCode_mono hbits
  refine Format.nearest_mono (Format.nearest_mono ?_)
  exact div_le_div₀ (Nat.cast_nonneg _) htop (spanValue_pos lo hi) (spanValue_mono hspan)

theorem exists_derive_of_isWithin (h : a.IsWithin b) (hb : derive b bits = .ok c') :
    ∃ c, derive a bits = .ok c ∧ c'.scale ≤ c.scale := by
  obtain ⟨hbits, hcodable⟩ := isCodable_of_derive_eq_ok hb
  obtain ⟨lo', hi', hwide', hscale', -⟩ := of_derive_eq_ok hb
  obtain ⟨lo, hi, hwide⟩ := (h.isCodable hcodable).exists_widened
  obtain ⟨c, hc, hscale, -⟩ := derive_eq_ok hwide hbits
  obtain ⟨hlo, hhi⟩ := h.widened hwide hwide'
  refine ⟨c, hc, (hscale'.le_iff hscale).mpr (scaleValue_mono ?_ le_rfl)⟩
  exact sub_le_sub hhi hlo

theorem scale_le_of_bits_le (h : bits ≤ bits') (hc : derive b bits = .ok c)
    (hc' : derive b bits' = .ok c') : c.scale ≤ c'.scale := by
  have hbits' := (isCodable_of_derive_eq_ok hc').1
  obtain ⟨lo, hi, hwide, hscale, -⟩ := of_derive_eq_ok hc
  obtain ⟨d, hd, hscale', -⟩ := derive_eq_ok hwide hbits'
  obtain rfl := Except.ok.inj (hd.symm.trans hc')
  exact (hscale.le_iff hscale').mpr (scaleValue_mono le_rfl h)

end AffineCode

/-! ## Stores that grow -/

namespace Store

variable {s t : Store} {id : TensorId} {a : Bounds} {c' : AffineCode} {bits : ℕ}

/-- More was recorded in a store: bounds, samples, passes or other stores, any number of times. -/
inductive Grows (s : Store) : Store → Prop
  | refl : Grows s s
  | record {t : Store} (h : Grows s t) (id : TensorId) (b : Bounds) : Grows s (t.record id b)
  | recordSamples {t : Store} (h : Grows s t) (id : TensorId) (samples : List Single) :
      Grows s (t.afterSamples id samples)
  | calibrate {t : Store} (h : Grows s t) (batches : List Batch) :
      Grows s (calibrate t batches).1
  | calibrateParallel {t : Store} (h : Grows s t) (schedule : Schedule) (batches : List Batch) :
      Grows s (calibrateParallel schedule t batches).1
  | merge {t : Store} (h : Grows s t) (u : Store) : Grows s (t.merge u)

/-- Every operation joins something to what is known. -/
theorem Grows.content_le (h : s.Grows t) : s.content ≤ t.content := by
  induction h with
  | refl => exact le_rfl
  | record _ id b ih => exact ih.trans (by rw [content_record]; exact le_sup_left)
  | recordSamples _ id samples ih =>
    exact ih.trans (by rw [afterSamples_eq, content_recordAll]; exact le_sup_left)
  | calibrate _ batches ih => exact ih.trans (by rw [content_calibrate]; exact le_sup_left)
  | calibrateParallel _ schedule batches ih =>
    exact ih.trans (by rw [content_calibrateParallel]; exact le_sup_left)
  | merge _ u ih => exact ih.trans (by rw [content_merge]; exact le_sup_left)

theorem Grows.exists_isWithin (h : s.Grows t) (ha : s.find? id = some a)
    (hmin : a.min.isNaN = false) (hmax : a.max.isNaN = false) :
    ∃ b, t.find? id = some b ∧ a.IsWithin b := by
  obtain ⟨b, hb, hlow, hhigh⟩ := encloses_of_content_le h.content_le id a ha
  exact ⟨b, hb, hlow hmin, hhigh hmax⟩

theorem Grows.exists_code (h : s.Grows t) (ha : s.find? id = some a)
    (hmin : a.min.isNaN = false) (hmax : a.max.isNaN = false) (hc' : t.code id bits = .ok c') :
    ∃ c, s.code id bits = .ok c ∧ c'.scale ≤ c.scale := by
  obtain ⟨b, hb, hwithin⟩ := h.exists_isWithin ha hmin hmax
  rw [code_eq hb] at hc'
  rw [code_eq ha]
  exact AffineCode.exists_derive_of_isWithin hwithin hc'

end Store

namespace AffineCode

/-- **The scale is monotone.** Bounds within others have a code if those have one, and their scale
is at least as great; so recording more never raises the scale of a tensor, nor does it give a code
to one that had bounds and no code. With the same bounds, more bits never have the lesser scale. -/
theorem scale_monotone (bits : ℕ) :
    (∀ a b : Bounds, b.min ≤ a.min → a.max ≤ b.max → ∀ c', derive b bits = .ok c' →
      ∃ c, derive a bits = .ok c ∧ c'.scale ≤ c.scale) ∧
    (∀ s t : Store, s.Grows t → ∀ id a, s.find? id = some a →
      a.min.isNaN = false → a.max.isNaN = false → ∀ c', t.code id bits = .ok c' →
        ∃ c, s.code id bits = .ok c ∧ c'.scale ≤ c.scale) ∧
    ∀ b bits' c c', bits ≤ bits' → derive b bits = .ok c → derive b bits' = .ok c' →
      c.scale ≤ c'.scale := by
  refine ⟨?_, ?_, ?_⟩
  · intro a b hmin hmax c' hc'
    exact exists_derive_of_isWithin ⟨hmin, hmax⟩ hc'
  · intro s t hgrows id a ha hmin hmax c' hc'
    exact hgrows.exists_code ha hmin hmax hc'
  · intro b bits' c c' hbits hc hc'
    exact scale_le_of_bits_le hbits hc hc'

/-- An interval that is upside down lies within the widest bounds, whose scale with one bit is a
subnormal number; and a tensor that has seen `-1` and `1` had the greater scale before it saw `-2`
and `3`. -/
theorem scale_monotone_upsideDown :
    (∃ c, derive ⟨.inf false, .inf true⟩ 1 = .ok c ∧ ofBits 0x00100000 ≤ c.scale) ∧
      (∃ c, ((∅ : Store).afterSamples ⟨1⟩ [-1, 1]).code ⟨1⟩ 8 = .ok c ∧ 51 ≤ c.scale) ∧
      (51 : Single) ≤ ofBits 0x464ccc00 := by
  have hwidest : derive ⟨ofBits 0xff7fffff, ofBits 0x7f7fffff⟩ 1 = .ok ⟨0, ofBits 0x00100000⟩ := by
    decide +kernel
  have hbefore : ((∅ : Store).afterSamples ⟨1⟩ [-1, 1]).find? ⟨1⟩ = some ⟨-1, 1⟩ := by
    decide +kernel
  have hafter : (((∅ : Store).afterSamples ⟨1⟩ [-1, 1]).afterSamples ⟨1⟩ [3, -2]).code ⟨1⟩ 8 =
      .ok ⟨102, 51⟩ := by decide +kernel
  have height : derive ⟨-2, 3⟩ 8 = .ok ⟨102, 51⟩ := by decide +kernel
  have hsixteen : derive ⟨-2, 3⟩ 16 = .ok ⟨26214, ofBits 0x464ccc00⟩ := by decide +kernel
  obtain ⟨hwithin, -, -⟩ := scale_monotone 1
  obtain ⟨-, hgrows, hbits⟩ := scale_monotone 8
  exact ⟨hwithin _ _ (by decide +kernel) (by decide +kernel) _ hwidest,
    hgrows _ _ (Store.Grows.refl.recordSamples _ _) _ _ hbefore (by decide +kernel)
      (by decide +kernel) _ hafter,
    hbits _ 16 _ _ (by decide) height hsixteen⟩

end AffineCode

end AffineQuant
