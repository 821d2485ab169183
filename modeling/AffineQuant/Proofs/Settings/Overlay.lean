import AffineQuant.Proofs.Settings.Agreement
import AffineQuant.Proofs.Yaml.Scalar

/-!
# Documents that leave something out

A document need not list every field of the settings. Those that it lists are taken from it, in
whatever order and among whatever other keys they stand, and all others are those of the standard
settings (`Settings.parse_overlay`).

## What is listed

`Yaml.Lists` relates the pairs of a section to the fields of a record: each field occurs at most
once, and a text under its key denotes its value. It says nothing of keys that are not fields and
nothing of order, and it does not ask that a field occurs. So it is satisfied by every document
that the statement is about, and each field of a record is read by one argument
(`Lists.exists_member?`).

## Two places for defaults

Defaults are kept for the fields that a section does not list, and for sections that are left out
as a whole. Read over the preset, a section gets the defaults of its fields
(`Target.ofNode?_eq_overlay`), so the two have to be the same. That a mixture of two settings passes
its check is because every check looks at one field and at nothing else (`Target.check_overlay`).

## What is written

What a text denotes is up to the reader of scalars. That a document may list any fields of any
settings is therefore stated also for the texts that are written of them
(`Settings.parse_writeSections`). One number is read otherwise than it was written.
-/

namespace AffineQuant

open Yaml

/-! ## What a document lists -/

namespace Yaml

/-- The pairs of a section that occurs at most once; a section that does not occur has none. -/
def Node.section? (root : Node) (name : String) : Option (List (String × Node)) := do
  match ← member? name (← root.entries? root) with
  | none => some []
  | some node => node.entries? root

/-- The text of the node denotes the value. -/
def Value.IsReadFrom (root node : Node) : Value → Prop
  | .text s => node.text? root = some s
  | .word n => node.word? 64 root = some n
  | .number x => node.single? root = some x
  | .bool b => node.bool? root = some b

instance (root node : Node) : (v : Value) → Decidable (v.IsReadFrom root node)
  | .text s => inferInstanceAs (Decidable (node.text? root = some s))
  | .word n => inferInstanceAs (Decidable (node.word? 64 root = some n))
  | .number x => inferInstanceAs (Decidable (node.single? root = some x))
  | .bool b => inferInstanceAs (Decidable (node.bool? root = some b))

/-- Of the fields of a record the pairs list some, each of them once and with a text that denotes
its value. Nothing is said about other keys. -/
structure Lists (root : Node) (pairs : List (String × Node)) (record : List (String × Value)) :
    Prop where
  count_le_one : ∀ f ∈ record, (pairs.map Prod.fst).count f.1 ≤ 1
  isReadFrom : ∀ f ∈ record, ∀ p ∈ pairs, p.1 = f.1 → f.2.IsReadFrom root p.2

section Fields

variable {root node : Node} {pairs : List (String × Node)} {record : List (String × Value)}
  {key : String} {value : Value} {n width : ℕ}

/-- **A field that may be left out.** What is read under its key is its value if the key is listed,
and otherwise the default. -/
theorem Lists.exists_member? {α : Type} {read : Node → Option α} {a : α}
    (h : Lists root pairs record) (hfield : (key, value) ∈ record) (default : α)
    (hread : ∀ node, value.IsReadFrom root node → read node = some a) :
    ∃ o, Node.member? key pairs = some o ∧
      Node.orElse default read o = some (if key ∈ pairs.map Prod.fst then a else default) := by
  rcases member?_of_count_le_one (h.count_le_one _ hfield) with
    ⟨hkey, hnone⟩ | ⟨node, hnode, hsome⟩
  · refine ⟨none, hnone, ?_⟩
    rw [if_neg hkey]
    rfl
  · refine ⟨some node, hsome, ?_⟩
    rw [if_pos (List.mem_map_of_mem hnode)]
    exact hread node (h.isReadFrom _ hfield _ hnode rfl)

theorem Value.IsReadFrom.word? (h : (Value.word n).IsReadFrom root node) (hn : n < pow2 width) :
    node.word? width root = some n := by
  obtain ⟨s, hs, hword⟩ := Option.bind_eq_some_iff.mp h
  simp only [Scalar.word?, Option.bind_eq_bind, Option.bind_eq_some_iff] at hword
  obtain ⟨cs, hcs, m, hm, hword⟩ := hword
  split at hword
  · obtain rfl := Option.some.inj hword
    simp only [Node.word?, hs, Scalar.word?, hcs, hm, Option.bind_eq_bind, Option.bind_some,
      if_pos hn]
  · cases hword

/-- **A section that may be left out.** What is read of it is the default if it has no pairs. -/
theorem Node.exists_section {α : Type} {read : Node → Option α} {a : α} {name : String}
    {sections : List (String × Node)} (hsections : root.entries? root = some sections)
    (h : root.section? name = some pairs) (default : α) (hnil : pairs = [] → a = default)
    (hread : ∀ node, node.entries? root = some pairs → read node = some a) :
    ∃ o, member? name sections = some o ∧ orElse default read o = some a := by
  rw [section?, hsections, Option.bind_eq_bind, Option.bind_some] at h
  obtain ⟨o, ho, h⟩ := Option.bind_eq_some_iff.mp h
  refine ⟨o, ho, ?_⟩
  cases o with
  | none => rw [hnil (Option.some.inj h).symm, orElse]
  | some node => exact hread node h

end Fields

/-! ## What is written of fields -/

/-- What is read of a value that was written. -/
def Value.reread : Value → Value
  | .number x => .number (Yaml.reread x)
  | v => v

/-- A word of at most 64 bits, a finite number, or any text or truth value. -/
def Value.IsWritable : Value → Prop
  | .word n => n < pow2 64
  | .number x => x.isFinite = true
  | _ => True

theorem Value.IsWritable.isReadFrom {v : Value} (h : v.IsWritable) (root : Node) :
    v.reread.IsReadFrom root v.node := by
  cases v with
  | text s => exact text?_node s
  | word n => exact word?_node h
  | number x => exact single?_node h
  | bool b => exact bool?_node b

section Writing

variable {fields record : List (String × Value)} {name : String}
  {sections : List (String × List (String × Value))}

/-- Of the fields of a record these are some, each of them once. Nothing is said about fields of
other names. -/
structure Picks (fields record : List (String × Value)) : Prop where
  count_le_one : ∀ f ∈ record, (fields.map Prod.fst).count f.1 ≤ 1
  eq_of_mem : ∀ f ∈ record, ∀ g ∈ fields, g.1 = f.1 → g.2 = f.2

theorem Picks.refl (h : (record.map Prod.fst).Nodup) : Picks record record where
  count_le_one f _ := List.nodup_iff_count_le_one.mp h f.1
  eq_of_mem _ hf _ hg hkey := congrArg Prod.snd (List.inj_on_of_nodup_map h hg hf hkey)

/-- The fields of the sections of a name. -/
def fieldsIn (name : String) (sections : List (String × List (String × Value))) :
    List (String × Value) :=
  (sections.filter fun e ↦ e.1 == name).flatMap Prod.snd

/-- The pairs of the mapping of a record. -/
def pairsOf (fields : List (String × Value)) : List (String × Node) :=
  fields.map fun f ↦ (f.1, f.2.node)

theorem map_fst_pairsOf (fields : List (String × Value)) :
    (pairsOf fields).map Prod.fst = fields.map Prod.fst := by
  rw [pairsOf, List.map_map]
  rfl

theorem Picks.lists (h : Picks fields record) (hwritable : ∀ f ∈ record, f.2.IsWritable)
    (root : Node) :
    Lists root (pairsOf fields) (record.map fun f ↦ (f.1, f.2.reread)) where
  count_le_one _ hf := by
    obtain ⟨f, hrecord, rfl⟩ := List.mem_map.mp hf
    rw [map_fst_pairsOf]
    exact h.count_le_one f hrecord
  isReadFrom _ hf _ hp hkey := by
    obtain ⟨f, hrecord, rfl⟩ := List.mem_map.mp hf
    obtain ⟨g, hg, rfl⟩ := List.mem_map.mp hp
    have hvalue : g.2 = f.2 := h.eq_of_mem f hrecord g hg hkey
    rw [hvalue]
    exact (hwritable f hrecord).isReadFrom root

theorem entries?_recordNode (fields : List (String × Value)) (root : Node) :
    (recordNode fields).entries? root = some (pairsOf fields) := by
  have hentries := entries?_mapping (pairsOf fields) root
  rwa [pairsOf, List.map_map] at hentries

theorem section?_sectionsNode (hcount : (sections.map Prod.fst).count name ≤ 1) :
    (sectionsNode sections).section? name = some (pairsOf (fieldsIn name sections)) := by
  have hsections : (sectionsNode sections).entries? (sectionsNode sections) =
      some (sections.map fun s ↦ (s.1, recordNode s.2)) := by
    have hentries := entries?_mapping (sections.map fun s ↦ (s.1, recordNode s.2))
      (sectionsNode sections)
    rwa [List.map_map] at hentries
  have hmap : (sections.map fun s ↦ (s.1, recordNode s.2)).filter (fun p ↦ p.1 == name) =
      (sections.filter fun e ↦ e.1 == name).map fun s ↦ (s.1, recordNode s.2) := List.filter_map
  rw [← length_filter_fst] at hcount
  rw [Node.section?, hsections, Option.bind_eq_bind, Option.bind_some, Node.member?, hmap, fieldsIn]
  generalize sections.filter (fun e ↦ e.1 == name) = found at hcount
  rcases found with _ | ⟨e, _ | ⟨e', rest⟩⟩
  · rfl
  · rw [List.flatMap_singleton]
    exact entries?_recordNode e.2 _
  · rw [List.length_cons, List.length_cons] at hcount
    omega

theorem exists_parse?_writeSections (h : ∀ e ∈ sections, IsSection e) :
    ∃ root, parse? (String.ofList (writeSections sections)) = some root ∧
      ∀ name, (sections.map Prod.fst).count name ≤ 1 →
        root.section? name = some (pairsOf (fieldsIn name sections)) := by
  rcases eq_or_ne sections [] with rfl | hne
  · exact ⟨.absent, rfl, fun _ _ ↦ rfl⟩
  · exact ⟨_, parse?_writeSections hne h, fun _ ↦ section?_sectionsNode⟩

end Writing

end Yaml

/-! ## Sections -/

variable {root node : Node} {pairs : List (String × Node)}

namespace Target

variable {t base : Target}

/-- The target that has the listed fields of one target and the other fields of another. -/
def overlay (t base : Target) (keys : List String) : Target where
  name := if "name" ∈ keys then t.name else base.name
  activationBits := if "activation_bits" ∈ keys then t.activationBits else base.activationBits
  mulBits := if "mul_bits" ∈ keys then t.mulBits else base.mulBits
  maxShift := if "max_shift" ∈ keys then t.maxShift else base.maxShift

theorem overlay_nil (t base : Target) : t.overlay base [] = base := rfl

theorem check_overlay (ht : t.check = .ok ()) (hbase : base.check = .ok ()) (keys : List String) :
    (t.overlay base keys).check = .ok () := by
  obtain ⟨hname, hactivation, hmul, hshift⟩ := check_eq_ok_iff.mp ht
  obtain ⟨hname', hactivation', hmul', hshift'⟩ := check_eq_ok_iff.mp hbase
  refine check_eq_ok_iff.mpr ⟨?_, ?_, ?_, ?_⟩
  · exact iteInduction (motive := fun n : String ↦ n.toList.all isWhiteSpace = false)
      (fun _ ↦ hname) fun _ ↦ hname'
  · exact iteInduction (motive := fun n : UInt32 ↦ 1 ≤ n.toNat ∧ n.toNat ≤ 31)
      (fun _ ↦ hactivation) fun _ ↦ hactivation'
  · exact iteInduction (motive := fun n : UInt32 ↦ 1 ≤ n.toNat ∧ n.toNat ≤ 32)
      (fun _ ↦ hmul) fun _ ↦ hmul'
  · exact iteInduction (motive := fun n : UInt8 ↦ n.toNat ≤ 127) (fun _ ↦ hshift) fun _ ↦ hshift'

/-- What a section says of a target is read over the preset. -/
theorem ofNode?_eq_overlay (hentries : node.entries? root = some pairs)
    (h : Lists root pairs t.toFields) :
    ofNode? root node = some (t.overlay int8 (pairs.map Prod.fst)) := by
  obtain ⟨name, hname, hname'⟩ := h.exists_member?
    (show ("name", Value.text t.name) ∈ _ by simp [toFields]) defaultName
    fun node (hread : node.text? root = some t.name) ↦ hread
  obtain ⟨activation, hactivation, hactivation'⟩ := h.exists_member?
    (show ("activation_bits", Value.word t.activationBits.toNat) ∈ _ by simp [toFields])
    defaultActivationBits.toNat
    fun node hread ↦ (hread.word? t.activationBits.toNat_lt : node.word? 32 root = _)
  obtain ⟨mul, hmul, hmul'⟩ := h.exists_member?
    (show ("mul_bits", Value.word t.mulBits.toNat) ∈ _ by simp [toFields])
    defaultMulBits.toNat
    fun node hread ↦ (hread.word? t.mulBits.toNat_lt : node.word? 32 root = _)
  obtain ⟨shift, hshift, hshift'⟩ := h.exists_member?
    (show ("max_shift", Value.word t.maxShift.toNat) ∈ _ by simp [toFields])
    defaultMaxShift.toNat
    fun node hread ↦ (hread.word? t.maxShift.toNat_lt : node.word? 8 root = _)
  simp only [ofNode?, Node.fields?_eq hentries, List.mapM_cons, List.mapM_nil, hname, hactivation,
    hmul, hshift, Option.bind_eq_bind, Option.bind_some, Option.pure_def, hname', hactivation',
    hmul', hshift', apply_ite UInt32.ofNat, apply_ite UInt8.ofNat, UInt32.ofNat_toNat,
    UInt8.ofNat_toNat]
  rfl

theorem nodup_toFields (t : Target) : (t.toFields.map Prod.fst).Nodup := by
  simp [toFields]

theorem isWritable_of_mem_toFields (t : Target) : ∀ f ∈ t.toFields, f.2.IsWritable := by
  simp only [toFields, List.forall_mem_cons]
  refine ⟨trivial, ?_, ?_, ?_, by simp⟩
  · exact t.activationBits.toNat_lt.trans (by decide)
  · exact t.mulBits.toNat_lt.trans (by decide)
  · exact t.maxShift.toNat_lt.trans (by decide)

/-- What is written of a target is read as it was. -/
theorem lists_of_picks {fields : List (String × Value)} (h : Picks fields t.toFields)
    (root : Node) : Lists root (pairsOf fields) t.toFields :=
  h.lists t.isWritable_of_mem_toFields root

end Target

namespace Sampling

variable {s base : Sampling}

/-- The sampling that has the listed fields of one sampling and the other fields of another. -/
def overlay (s base : Sampling) (keys : List String) : Sampling where
  batchSize := if "batch_size" ∈ keys then s.batchSize else base.batchSize
  mean := if "mean" ∈ keys then s.mean else base.mean
  std := if "std" ∈ keys then s.std else base.std
  parallel := if "parallel" ∈ keys then s.parallel else base.parallel

theorem overlay_nil (s base : Sampling) : s.overlay base [] = base := rfl

theorem check_overlay (hs : s.check = .ok ()) (hbase : base.check = .ok ()) (keys : List String) :
    (s.overlay base keys).check = .ok () := by
  obtain ⟨hsize, hmean, hstd, hpos⟩ := check_eq_ok_iff.mp hs
  obtain ⟨hsize', hmean', hstd', hpos'⟩ := check_eq_ok_iff.mp hbase
  refine check_eq_ok_iff.mpr ⟨?_, ?_, ?_, ?_⟩
  · exact iteInduction (motive := fun n : UInt64 ↦ 0 < n.toNat) (fun _ ↦ hsize) fun _ ↦ hsize'
  · exact iteInduction (motive := fun x : Single ↦ x.isFinite = true) (fun _ ↦ hmean)
      fun _ ↦ hmean'
  · exact iteInduction (motive := fun x : Single ↦ x.isFinite = true) (fun _ ↦ hstd) fun _ ↦ hstd'
  · exact iteInduction (motive := fun x : Single ↦ 0 < x) (fun _ ↦ hpos) fun _ ↦ hpos'

/-- What a section says of a sampling is read over the standard one. -/
theorem ofNode?_eq_overlay (hentries : node.entries? root = some pairs)
    (h : Lists root pairs s.toFields) :
    ofNode? root node = some (s.overlay standard (pairs.map Prod.fst)) := by
  obtain ⟨size, hsize, hsize'⟩ := h.exists_member?
    (show ("batch_size", Value.word s.batchSize.toNat) ∈ _ by simp [toFields])
    defaultBatchSize.toNat fun node hread ↦ (hread : node.word? 64 root = _)
  obtain ⟨mean, hmean, hmean'⟩ := h.exists_member?
    (show ("mean", Value.number s.mean) ∈ _ by simp [toFields]) defaultMean
    fun node (hread : node.single? root = some s.mean) ↦ hread
  obtain ⟨std, hstd, hstd'⟩ := h.exists_member?
    (show ("std", Value.number s.std) ∈ _ by simp [toFields]) defaultStd
    fun node (hread : node.single? root = some s.std) ↦ hread
  obtain ⟨parallel, hparallel, hparallel'⟩ := h.exists_member?
    (show ("parallel", Value.bool s.parallel) ∈ _ by simp [toFields]) defaultParallel
    fun node (hread : node.bool? root = some s.parallel) ↦ hread
  simp only [ofNode?, Node.fields?_eq hentries, List.mapM_cons, List.mapM_nil, hsize, hmean, hstd,
    hparallel, Option.bind_eq_bind, Option.bind_some, Option.pure_def, hsize', hmean', hstd',
    hparallel', apply_ite UInt64.ofNat, UInt64.ofNat_toNat]
  rfl

/-- What is read of a sampling that was written. -/
def reread (s : Sampling) : Sampling :=
  { s with mean := Yaml.reread s.mean, std := Yaml.reread s.std }

theorem reread_eq_iff : s.reread = s ↔ s.mean.abs ≠ misread ∧ s.std.abs ≠ misread := by
  rw [← Yaml.reread_eq_iff, ← Yaml.reread_eq_iff, reread]
  obtain ⟨size, mean, std, parallel⟩ := s
  simp only [mk.injEq, true_and, and_true]

theorem check_reread (h : s.check = .ok ()) : s.reread.check = .ok () := by
  obtain ⟨hsize, hmean, hstd, hpos⟩ := check_eq_ok_iff.mp h
  exact check_eq_ok_iff.mpr ⟨hsize, isFinite_reread hmean, isFinite_reread hstd, reread_pos hpos⟩

theorem nodup_toFields (s : Sampling) : (s.toFields.map Prod.fst).Nodup := by
  simp [toFields]

/-- What is written of a sampling is read as it was, but for one number. -/
theorem lists_of_picks {fields : List (String × Value)} (hcheck : s.check = .ok ())
    (h : Picks fields s.toFields) (root : Node) :
    Lists root (pairsOf fields) s.reread.toFields := by
  obtain ⟨-, hmean, hstd, -⟩ := check_eq_ok_iff.mp hcheck
  refine h.lists ?_ root
  simp only [toFields, List.forall_mem_cons]
  exact ⟨s.batchSize.toNat_lt, hmean, hstd, trivial, by simp⟩

end Sampling

/-! ## Documents -/

namespace Settings

variable {s base : Settings}

/-- The settings that have the listed fields of some settings and the other fields of others. -/
def overlay (s base : Settings) (targetKeys calibrationKeys : List String) : Settings :=
  ⟨s.target.overlay base.target targetKeys, s.calibration.overlay base.calibration calibrationKeys⟩

theorem check_eq_ok_iff :
    s.check = .ok () ↔ s.target.check = .ok () ∧ s.calibration.check = .ok () := by
  refine ⟨of_check_eq_ok, ?_⟩
  rintro ⟨htarget, hcalibration⟩
  rw [check, htarget]
  exact hcalibration

theorem check_overlay (hs : s.check = .ok ()) (hbase : base.check = .ok ())
    (targetKeys calibrationKeys : List String) :
    (s.overlay base targetKeys calibrationKeys).check = .ok () := by
  obtain ⟨htarget, hcalibration⟩ := check_eq_ok_iff.mp hs
  obtain ⟨htarget', hcalibration'⟩ := check_eq_ok_iff.mp hbase
  exact check_eq_ok_iff.mpr ⟨Target.check_overlay htarget htarget' targetKeys,
    Sampling.check_overlay hcalibration hcalibration' calibrationKeys⟩

theorem check_standard : standard.check = .ok () := by decide +kernel

/-- The document lists fields of the settings. A section that it leaves out, or leaves empty, is one
without pairs. -/
structure IsListedBy (s : Settings) (root : Node) (target calibration : List (String × Node)) :
    Prop where
  target_eq : root.section? "target" = some target
  calibration_eq : root.section? "calibration" = some calibration
  target : Lists root target s.target.toFields
  calibration : Lists root calibration s.calibration.toFields

theorem ofNode?_eq_overlay {target calibration : List (String × Node)}
    (h : s.IsListedBy root target calibration) :
    ofNode? root root =
      some (s.overlay standard (target.map Prod.fst) (calibration.map Prod.fst)) := by
  obtain ⟨sections, hsections, -⟩ := Option.bind_eq_some_iff.mp h.target_eq
  obtain ⟨o, ho, ho'⟩ := Node.exists_section hsections h.target_eq Target.int8
    (fun hnil ↦ by rw [hnil]; exact Target.overlay_nil s.target .int8)
    fun node hnode ↦ Target.ofNode?_eq_overlay hnode h.target
  obtain ⟨o', hp, hp'⟩ := Node.exists_section hsections h.calibration_eq .standard
    (fun hnil ↦ by rw [hnil]; exact Sampling.overlay_nil s.calibration .standard)
    fun node hnode ↦ Sampling.ofNode?_eq_overlay hnode h.calibration
  simp only [ofNode?, Node.fields?_eq hsections, List.mapM_cons, List.mapM_nil, ho, hp,
    Option.bind_eq_bind, Option.bind_some, Option.pure_def, ho', hp']
  rfl

/-- **Some fields among others.** Settings that pass their check lend the fields that a document
lists of them to the standard settings, and the mixture is accepted. -/
theorem parse_eq_overlay {text : String} {target calibration : List (String × Node)}
    (h : s.check = .ok ()) (hroot : Yaml.parse? text = some root)
    (hlisted : s.IsListedBy root target calibration) :
    parse text = .ok (s.overlay standard (target.map Prod.fst) (calibration.map Prod.fst)) := by
  refine parse_eq_ok_iff.mpr ⟨?_, check_overlay h check_standard _ _⟩
  rw [hroot, Option.bind_some]
  exact ofNode?_eq_overlay hlisted

/-- The sections hold fields of the settings, in any order and among others. -/
structure IsPickedBy (s : Settings) (sections : List (String × List (String × Value))) : Prop where
  isSection : ∀ e ∈ sections, IsSection e
  count_target : (sections.map Prod.fst).count "target" ≤ 1
  count_calibration : (sections.map Prod.fst).count "calibration" ≤ 1
  target : Picks (fieldsIn "target" sections) s.target.toFields
  calibration : Picks (fieldsIn "calibration" sections) s.calibration.toFields

/-- **What is written of some fields** is read over the standard settings, and accepted. -/
theorem parse_writeSections {sections : List (String × List (String × Value))}
    (h : s.check = .ok ()) (hpicked : s.IsPickedBy sections) :
    parse (String.ofList (writeSections sections)) =
      .ok (overlay ⟨s.target, s.calibration.reread⟩ standard
        ((fieldsIn "target" sections).map Prod.fst)
        ((fieldsIn "calibration" sections).map Prod.fst)) := by
  obtain ⟨htarget, hcalibration⟩ := check_eq_ok_iff.mp h
  obtain ⟨root, hroot, hsections⟩ := exists_parse?_writeSections hpicked.isSection
  rw [← map_fst_pairsOf, ← map_fst_pairsOf]
  exact parse_eq_overlay (check_eq_ok_iff.mpr ⟨htarget, Sampling.check_reread hcalibration⟩) hroot
    { target_eq := hsections _ hpicked.count_target
      calibration_eq := hsections _ hpicked.count_calibration
      target := Target.lists_of_picks hpicked.target root
      calibration := Sampling.lists_of_picks hcalibration hpicked.calibration root }

/-- **Partial documents.** A document that lists some fields of settings that pass their check is
accepted. It is read as the settings that have those fields, and all others from the standard ones,
whatever else it lists and in whatever order. So is what is written of such fields, if neither mean
nor deviation is the number that is misread. -/
theorem parse_overlay (h : s.check = .ok ()) :
    (∀ text root target calibration, Yaml.parse? text = some root →
      s.IsListedBy root target calibration →
      parse text = .ok (s.overlay standard (target.map Prod.fst) (calibration.map Prod.fst))) ∧
    ∀ sections, s.IsPickedBy sections →
      s.calibration.mean.abs ≠ misread → s.calibration.std.abs ≠ misread →
      parse (String.ofList (writeSections sections)) =
        .ok (s.overlay standard ((fieldsIn "target" sections).map Prod.fst)
          ((fieldsIn "calibration" sections).map Prod.fst)) := by
  refine ⟨fun text root target calibration ↦ parse_eq_overlay h, ?_⟩
  intro sections hpicked hmean hstd
  rw [parse_writeSections h hpicked, Sampling.reread_eq_iff.mpr ⟨hmean, hstd⟩]

example : parse "" = .ok standard := by decide +kernel

/-- Settings without a default among their fields. -/
def npu : Settings := ⟨⟨"npu", 31, 24, 15⟩, ⟨16, .ofBits 0x3f000000, .ofBits 0x3e800000, true⟩⟩

/-- A document with two fields of the sampling, one of them in hexadecimal, and an empty target. -/
def sparseText : String :=
  "calibration: \x7bstd: .25, seed: 7, batch_size: 0x10\x7d\nowner: [me]\ntarget:\n"

private def word (text : String) : Token := .scalar .plain text.toList

/-- The tokens of that document. -/
def sparseTokens : List Token :=
  [.blockMapping, .key, word "calibration", .value,
    .flowMapping, .key, word "std", .value, word ".25", .comma, .key, word "seed", .value, word "7",
    .comma, .key, word "batch_size", .value, word "0x10", .flowMappingEnd,
    .key, word "owner", .value, .flowSequence, word "me", .flowSequenceEnd,
    .key, word "target", .value, .blockEnd]

private def plainNode (text : String) : Node := .scalar none ⟨.plain, text.toList, none⟩

/-- The pairs of its sampling. -/
def sparsePairs : List (String × Node) :=
  [("std", plainNode ".25"), ("seed", plainNode "7"), ("batch_size", plainNode "0x10")]

/-- Its root. -/
def sparseRoot : Node :=
  .mapping none [(plainNode "calibration",
      .mapping none (sparsePairs.map fun p ↦ (plainNode p.1, p.2))),
    (plainNode "owner", .sequence none [plainNode "me"]), (plainNode "target", .absent)]

/-- Two fields of the target among others, and no sampling. A name that stands elsewhere is none. -/
def sparseSections : List (String × List (String × Value)) :=
  [("notes", [("name", .bool true)]),
    ("target", [("max_shift", .word 15), ("color", .text "red"), ("name", .text "npu")])]

theorem isListedBy_sparse : npu.IsListedBy sparseRoot [] sparsePairs where
  target_eq := rfl
  calibration_eq := rfl
  target := ⟨by decide, by decide⟩
  calibration := ⟨by decide, by decide +kernel⟩

theorem isPickedBy_sparse : npu.IsPickedBy sparseSections where
  isSection := by
    simp only [sparseSections, List.forall_mem_cons]
    exact ⟨⟨by decide, by decide, by decide⟩, ⟨by decide, by decide, by decide⟩, by simp⟩
  count_target := by decide
  count_calibration := by decide
  target := ⟨by decide, by decide⟩
  calibration := ⟨by decide, by decide⟩

/-- Both documents are read over the standard settings. -/
theorem parse_overlay_sparse :
    npu.check = .ok () ∧ npu.IsListedBy sparseRoot [] sparsePairs ∧
      parse sparseText = .ok ⟨.int8, ⟨16, 0, .ofBits 0x3e800000, false⟩⟩ ∧
      npu.IsPickedBy sparseSections ∧
      parse (String.ofList (writeSections sparseSections)) =
        .ok ⟨⟨"npu", 8, 32, 15⟩, .standard⟩ := by
  have hcheck : npu.check = .ok () := by decide +kernel
  have htokens : tokens? sparseText.toList = some sparseTokens := by decide
  have hroot : Yaml.parse? sparseText = some sparseRoot := by
    rw [Yaml.parse?, htokens]
    rfl
  obtain ⟨hlisted, hpicked⟩ := parse_overlay hcheck
  refine ⟨hcheck, isListedBy_sparse, (hlisted _ _ _ _ hroot isListedBy_sparse).trans ?_,
    isPickedBy_sparse, (hpicked _ isPickedBy_sparse ?_ ?_).trans ?_⟩
  · decide
  · decide
  · decide
  · decide +kernel

end Settings

end AffineQuant
