import AffineQuant.Proofs.Settings.Overlay

/-!
# Settings through YAML

A document that lists every field leaves nothing to the standard settings, so what is written of
checked settings is read back and accepted. The case of a full document is not proved apart from
that of a partial one: the written sections pick all fields of the settings
(`Settings.isPickedBy_toFields`), and an overlay by all fields is the settings themselves.

## Targets

A target comes back as it was, whatever its name is made of (`Target.parse_toYaml`). Names are the
only texts among the values of the settings. The writer has four styles for them, and which it takes
depends on the characters; the checks refuse a name of nothing but blanks, and no other condition is
needed.

## Sampling

A sampling comes back unless its mean or its deviation has one particular magnitude, of which the
reader, rounding twice, makes the number next to it (`Settings.parse_toYaml_outcome`). The settings
are accepted in either case, since the number that is read is finite, and positive where the one
that was written is.
-/

namespace AffineQuant

open Yaml

variable {root : Node}

/-! ## Records -/

theorem Target.ofNode?_recordNode (t : Target) :
    Target.ofNode? root (recordNode t.toFields) = some t := by
  rw [ofNode?_eq_overlay (entries?_recordNode t.toFields root)
    (lists_of_picks (Picks.refl t.nodup_toFields) root), map_fst_pairsOf]
  rfl

/-! ## Documents -/

theorem Target.isKey_of_mem_toFields (t : Target) :
    ∀ f ∈ t.toFields, Lexer.isKey f.1.toList = true := by
  simp only [toFields, List.forall_mem_cons]
  decide

theorem Sampling.isKey_of_mem_toFields (s : Sampling) :
    ∀ f ∈ s.toFields, Lexer.isKey f.1.toList = true := by
  simp only [toFields, List.forall_mem_cons]
  decide

/-- **Targets through YAML.** Every target that passes its check is read as it was written, whatever
characters its name is made of. -/
theorem Target.parse_toYaml {t : Target} (h : t.check = .ok ()) : parse t.toYaml = .ok t := by
  refine parse_eq_ok_iff.mpr ⟨?_, h⟩
  rw [toYaml, parse?_writeFields (by simp [toFields]) t.isKey_of_mem_toFields, Option.bind_some,
    ofNode?_recordNode]

/-- A name that only double quotes can hold. -/
def Target.awkward : Target :=
  ⟨" 'a': \x22b\x22 #\n\n\t\x00\x5c\u0085\u2028\ufeff😀: ", 31, 1, 127⟩

/-- It is read again. -/
theorem Target.parse_toYaml_awkward :
    Target.awkward.check = .ok () ∧ parse Target.awkward.toYaml = .ok .awkward := by
  have hcheck : Target.awkward.check = .ok () := by decide
  exact ⟨hcheck, parse_toYaml hcheck⟩

namespace Settings

variable {s : Settings}

private theorem isSection (s : Settings) :
    ∀ e ∈ [("target", s.target.toFields), ("calibration", s.calibration.toFields)],
      IsSection e := by
  have htarget : Lexer.isKey "target".toList = true := by decide
  have hcalibration : Lexer.isKey "calibration".toList = true := by decide
  simp only [List.forall_mem_cons]
  exact ⟨⟨htarget, by simp [Target.toFields], s.target.isKey_of_mem_toFields⟩,
    ⟨hcalibration, by simp [Sampling.toFields], s.calibration.isKey_of_mem_toFields⟩, by simp⟩

theorem isPickedBy_toFields (s : Settings) :
    s.IsPickedBy [("target", s.target.toFields), ("calibration", s.calibration.toFields)] where
  isSection := s.isSection
  count_target := by simp
  count_calibration := by simp
  target := Picks.refl s.target.nodup_toFields
  calibration := Picks.refl s.calibration.nodup_toFields

theorem parse_toYaml_eq (h : s.check = .ok ()) :
    parse s.toYaml = .ok ⟨s.target, s.calibration.reread⟩ :=
  parse_writeSections h s.isPickedBy_toFields

/-- **Settings through YAML.** Settings that pass their check are always read and accepted again,
and they are the same again exactly if neither mean nor deviation has the magnitude of the one
number that is misread. -/
theorem parse_toYaml_outcome (h : s.check = .ok ()) :
    parse s.toYaml = .ok ⟨s.target, s.calibration.reread⟩ ∧
      (parse s.toYaml = .ok s ↔
        s.calibration.mean.abs ≠ misread ∧ s.calibration.std.abs ≠ misread) := by
  refine ⟨parse_toYaml_eq h, ?_⟩
  rw [parse_toYaml_eq h, ← Sampling.reread_eq_iff]
  obtain ⟨target, calibration⟩ := s
  simp only [Except.ok.injEq, mk.injEq, true_and]

/-- The greatest size of batches, a mean of negative zero and the least deviation. -/
def extremes : Settings := ⟨.int8, ⟨0xFFFFFFFFFFFFFFFF, .ofBits 0x80000000, .ofBits 1, true⟩⟩

theorem parse_toYaml_extremes :
    extremes.check = .ok () ∧ parse extremes.toYaml = .ok extremes := by
  have hcheck : extremes.check = .ok () := by decide +kernel
  exact ⟨hcheck, (parse_toYaml_outcome hcheck).2.mpr (by decide +kernel)⟩

/-- A deviation of `7.038531e-26` is accepted and written, but the number next to it is read. -/
theorem parse_toYaml_misread :
    misread = .ofBits 0x15ae43fd ∧ check ⟨.int8, ⟨1, 0, misread, false⟩⟩ = .ok () ∧
      parse (toYaml ⟨.int8, ⟨1, 0, misread, false⟩⟩) =
        .ok ⟨.int8, ⟨1, 0, .ofBits 0x15ae43fe, false⟩⟩ ∧
      misread ≠ .ofBits 0x15ae43fe := by
  have hcheck : check ⟨.int8, ⟨1, 0, misread, false⟩⟩ = .ok () := by decide +kernel
  refine ⟨by decide +kernel, hcheck, (parse_toYaml_eq hcheck).trans ?_, by decide +kernel⟩
  decide +kernel

end Settings

end AffineQuant
