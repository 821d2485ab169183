import AffineQuant.Proofs.Yaml.Record
import AffineQuant.Yaml.Field

/-!
# The nodes of a record

The tokens of a record are read as the mapping of its fields, and the fields of that mapping are
found under their names. From here on it no longer matters that the mapping came from a text.

## From tokens to nodes

Tokens that begin with a node are said to read as it (`Reads`), whatever follows them, in any number
of steps from a bound on. The bound is a parameter, since the grammar is read by mutual recursion
and a mapping calls the reader of nodes with fewer steps than it was called with. The numbers of
steps of the values of a mapping need not be the same, so a common bound is kept (`Reads.mono`).

`Reads` also says that the tokens do not look like the end of a left-out node. The reader asks that
before it reads a value, and an empty scalar would otherwise be possible in its place.

## Fields

A record knows the pairs of its mapping by the texts of their keys. `Node.entries?` collects them
once, and what the record asks for are lookups in this list (`Node.fields?_eq`). A key that occurs
at most once leads to its node (`member?_of_count_le_one`), and nothing has to be known of the other
keys, of their order, or of how the values were written.
-/

namespace AffineQuant.Yaml

/-- A value as a node. -/
def Value.node (v : Value) : Node := .scalar none v.scalar

/-- A key as a node. -/
def keyNode (name : List Char) : Node := .scalar none ⟨.plain, name, none⟩

/-! ## From tokens to nodes -/

/-- The tokens, whatever follows, are read as the node in any number of steps from a bound on, and
they do not look like the end of a left-out node. -/
structure Reads (steps : ℕ) (ts : List Token) (v : Node) : Prop where
  read_eq : ∀ handles inMapping n rest anchors, steps ≤ n →
    Node.read handles inMapping n ⟨ts ++ rest, anchors⟩ = some (v, ⟨rest, anchors⟩)
  endsNode_eq : ∀ rest, endsNode [.key, .value, .blockEnd] (ts ++ rest) = false

variable {steps n : ℕ} {ts rest : List Token} {v : Node} {handles : TagHandles}
  {anchors : List (List Char × ℕ)}

theorem Reads.mono {m : ℕ} (h : Reads steps ts v) (hm : steps ≤ m) : Reads m ts v where
  read_eq handles inMapping n rest anchors hn :=
    h.read_eq handles inMapping n rest anchors (Nat.le_trans hm hn)
  endsNode_eq := h.endsNode_eq

theorem reads_scalar (style : ScalarStyle) (text : List Char) :
    Reads 1 [.scalar style text] (.scalar none ⟨style, text, none⟩) where
  read_eq handles inMapping n rest anchors hn := by
    obtain ⟨n, rfl⟩ := Nat.exists_eq_add_one.mpr (Nat.lt_of_lt_of_le Nat.one_pos hn)
    rfl
  endsNode_eq rest := by simp [endsNode]

theorem reads_value (v : Value) : Reads 1 [v.token] v.node := by
  cases v <;> exact reads_scalar _ _

private theorem Reads.readOr (handles : TagHandles) (rest : List Token)
    (anchors : List (List Char × ℕ)) (h : Reads steps ts v) (hn : steps < n) :
    Node.readOr handles true [.key, .value, .blockEnd] n ⟨ts ++ rest, anchors⟩ =
      some (v, ⟨rest, anchors⟩) := by
  obtain ⟨n, rfl⟩ := Nat.exists_eq_add_one.mpr (Nat.zero_lt_of_lt hn)
  rw [Node.readOr, h.endsNode_eq, if_neg Bool.false_ne_true]
  exact h.read_eq _ _ _ _ _ (Nat.le_of_lt_succ hn)

/-- The tokens of a pair of a block mapping. -/
def pairTokens (e : List Char × List Token) : List Token :=
  .key :: .scalar .plain e.1 :: .value :: e.2

private theorem readPairs_cons {name : List Char} (h : Reads steps ts v) (hsteps : 0 < steps)
    (hn : steps < n) :
    Node.readPairs handles (n + 1) ⟨pairTokens (name, ts) ++ rest, anchors⟩ =
      (Node.readPairs handles n ⟨rest, anchors⟩).map fun r ↦ ((keyNode name, v) :: r.1, r.2) := by
  have hkey := (reads_scalar .plain name).readOr (n := n) handles (.value :: (ts ++ rest)) anchors
    (show 1 < n by omega)
  have hvalue := h.readOr (n := n) handles rest anchors hn
  rw [List.singleton_append] at hkey
  simp only [pairTokens, List.cons_append, Node.readPairs, Feed.after, Option.bind_eq_bind, hkey,
    hvalue, Option.bind_some]
  cases Node.readPairs handles n ⟨rest, anchors⟩ <;> rfl

private theorem readPairs_eq {pairs : List (List Char × List Token × Node)}
    (handles : TagHandles) (rest : List Token) (anchors : List (List Char × ℕ))
    (h : ∀ e ∈ pairs, Reads steps e.2.1 e.2.2) (hsteps : 0 < steps)
    (hn : pairs.length + steps < n) :
    Node.readPairs handles n
        ⟨pairs.flatMap (fun e ↦ pairTokens (e.1, e.2.1)) ++ .blockEnd :: rest, anchors⟩ =
      some (pairs.map fun e ↦ (keyNode e.1, e.2.2), ⟨rest, anchors⟩) := by
  induction pairs generalizing n with
  | nil =>
    obtain ⟨n, rfl⟩ := Nat.exists_eq_add_one.mpr (Nat.zero_lt_of_lt hn)
    rfl
  | cons e pairs ih =>
    obtain ⟨he, hpairs⟩ := List.forall_mem_cons.mp h
    obtain ⟨n, rfl⟩ := Nat.exists_eq_add_one.mpr (Nat.zero_lt_of_lt hn)
    rw [List.length_cons] at hn
    rw [List.flatMap_cons, List.append_assoc, readPairs_cons he hsteps (by omega),
      ih hpairs (by omega)]
    rfl

theorem reads_mapping (pairs : List (List Char × List Token × Node))
    (h : ∀ e ∈ pairs, Reads steps e.2.1 e.2.2) (hsteps : 0 < steps) :
    Reads (pairs.length + steps + 2)
      (.blockMapping :: (pairs.flatMap (fun e ↦ pairTokens (e.1, e.2.1)) ++ [.blockEnd]))
      (.mapping none (pairs.map fun e ↦ (keyNode e.1, e.2.2))) where
  read_eq handles inMapping n rest anchors hn := by
    obtain ⟨n, rfl⟩ := Nat.exists_eq_add_one.mpr (Nat.lt_of_lt_of_le (Nat.succ_pos _) hn)
    have hpairs := readPairs_eq (n := n) handles rest anchors h hsteps (by omega)
    simp [Node.read, Properties.read, Feed.bind?, Feed.after, hpairs]
  endsNode_eq rest := by simp [endsNode]

/-! ## Documents -/

/-- The mapping of a record. -/
def recordNode (fields : List (String × Value)) : Node :=
  .mapping none (fields.map fun f ↦ (keyNode f.1.toList, f.2.node))

/-- The mapping of named records. -/
def sectionsNode (sections : List (String × List (String × Value))) : Node :=
  .mapping none (sections.map fun s ↦ (keyNode s.1.toList, recordNode s.2))

theorem reads_record (fields : List (String × Value)) :
    Reads (fields.length + 3) (recordTokens fields) (recordNode fields) := by
  have hreads := reads_mapping (fields.map fun f ↦ (f.1.toList, [f.2.token], f.2.node)) (by
    intro e he
    obtain ⟨f, -, rfl⟩ := List.mem_map.mp he
    exact reads_value f.2) Nat.one_pos
  rw [List.flatMap_map, List.map_map, List.length_map] at hreads
  exact hreads

private theorem parse?_eq {cs : List Char} (htokens : tokens? cs = some (.blockMapping :: ts))
    (h : Reads steps (.blockMapping :: ts) v) (hsteps : steps ≤ 2 * (ts.length + 1) + 2) :
    parse? (String.ofList cs) = some v := by
  have hread := h.read_eq standardHandles false _ [] [] hsteps
  rw [List.append_nil] at hread
  simp only [parse?, String.toList_ofList, htokens, Option.bind_eq_bind, Option.bind_some,
    List.isEmpty_cons, Bool.false_eq_true, if_false, readDocument, List.length_cons, hread]
  rfl

private theorem length_le_flatMap {α : Type} (xs : List α) (f : α → List Token)
    (h : ∀ x, 0 < (f x).length) : xs.length ≤ (xs.flatMap f).length := by
  induction xs with
  | nil => exact Nat.le_refl 0
  | cons x xs ih =>
    have := h x
    rw [List.flatMap_cons, List.length_append, List.length_cons]
    omega

/-- **A record is read back as the mapping of its fields.** -/
theorem parse?_writeFields {fields : List (String × Value)} (hne : fields ≠ [])
    (hkeys : ∀ f ∈ fields, Lexer.isKey f.1.toList = true) :
    parse? (String.ofList (writeFields 0 fields)) = some (recordNode fields) := by
  refine parse?_eq (tokens?_writeFields hne hkeys) (reads_record fields) ?_
  have := length_le_flatMap fields fieldTokens fun f ↦ Nat.succ_pos _
  rw [List.length_append]
  omega

/-- **A document of sections is read back as the mapping of their records.** -/
theorem parse?_writeSections {sections : List (String × List (String × Value))}
    (hne : sections ≠ []) (h : ∀ s ∈ sections, IsSection s) :
    parse? (String.ofList (writeSections sections)) = some (sectionsNode sections) := by
  set total := (sections.flatMap sectionTokens).length with htotal
  have hle : ∀ s ∈ sections, s.2.length + 3 ≤ total := by
    intro s hs
    have hmem : (sectionTokens s).length ≤ total := by
      rw [htotal, List.flatMap_def]
      exact (List.sublist_flatten_of_mem (List.mem_map_of_mem hs)).length_le
    have hfields := length_le_flatMap s.2 fieldTokens fun f ↦ Nat.succ_pos _
    simp only [sectionTokens, openTokens, List.length_append, List.length_cons] at hmem
    omega
  have hpos : 0 < total := by
    obtain ⟨s, hs⟩ := List.exists_mem_of_ne_nil sections hne
    exact Nat.lt_of_lt_of_le (Nat.succ_pos _) (hle s hs)
  have hrecords : ∀ e ∈ sections.map fun s ↦ (s.1.toList, recordTokens s.2, recordNode s.2),
      Reads total e.2.1 e.2.2 := by
    intro e he
    obtain ⟨s, hs, rfl⟩ := List.mem_map.mp he
    exact (reads_record s.2).mono (hle s hs)
  have hreads := reads_mapping _ hrecords hpos
  rw [List.flatMap_map, List.map_map, List.length_map] at hreads
  refine parse?_eq (tokens?_writeSections hne h) hreads ?_
  have := length_le_flatMap sections sectionTokens fun s ↦ Nat.succ_pos _
  rw [List.length_append, ← htotal]
  omega

/-! ## Fields -/

/-- The pairs of a mapping by the texts of their keys; a node that is left out has none. -/
def Node.entries? (node root : Node) : Option (List (String × Node)) :=
  match node.target? root with
  | some (.mapping _ pairs) => pairs.mapM fun p ↦ (p.1.text? root).map fun key ↦ (key, p.2)
  | some (.scalar _ s) => if s.style = .plain ∧ s.text.isEmpty then some [] else none
  | _ => none

section Fields

variable {pairs : List (String × Node)} {node root : Node} {key : String}

theorem text?_keyNode (name : String) : (keyNode name.toList).text? root = some name :=
  congrArg some String.ofList_toList

theorem text?_node (s : String) : (Value.text s).node.text? root = some s :=
  congrArg some String.ofList_toList

private theorem mapM_eq_some_map {α β : Type} {f : α → Option β} {g : α → β} {xs : List α}
    (hf : ∀ x ∈ xs, f x = some (g x)) : xs.mapM f = some (xs.map g) := by
  induction xs with
  | nil => rfl
  | cons x xs ih =>
    obtain ⟨hx, hxs⟩ := List.forall_mem_cons.mp hf
    rw [List.mapM_cons, hx, ih hxs]
    rfl

/-- The fields of a record are members of its pairs. -/
theorem Node.fields?_eq (h : node.entries? root = some pairs) (names : List String) :
    node.fields? names root = names.mapM (member? · pairs) := by
  rw [entries?] at h
  rw [fields?]
  split at h
  · next anchor nodes htarget => simp only [htarget, h, Option.bind_eq_bind, Option.bind_some]
  · next anchor s htarget =>
    split at h
    · next hleft =>
      obtain rfl := Option.some.inj h
      have hnone : names.mapM (member? · []) = some (names.map fun _ ↦ none) :=
        mapM_eq_some_map fun _ _ ↦ rfl
      simp only [htarget, Option.bind_eq_bind, Option.bind_some, if_pos hleft, hnone]
    · cases h
  · cases h

theorem entries?_mapping (pairs : List (String × Node)) (root : Node) :
    (Node.mapping none (pairs.map fun e ↦ (keyNode e.1.toList, e.2))).entries? root =
      some pairs := by
  have hpairs : (pairs.map fun e ↦ (keyNode e.1.toList, e.2)).mapM
      (fun p ↦ (p.1.text? root).map fun key ↦ (key, p.2)) = some pairs := by
    rw [List.mapM_map]
    refine (mapM_eq_some_map (g := id) fun e _ ↦ ?_).trans (by rw [List.map_id])
    rw [Function.comp_apply, text?_keyNode]
    rfl
  exact hpairs

theorem length_filter_fst {α : Type} (key : String) (xs : List (String × α)) :
    (xs.filter fun e ↦ e.1 == key).length = (xs.map Prod.fst).count key := by
  rw [← List.countP_eq_length_filter, ← Function.comp_def (· == key) Prod.fst, ← List.countP_map]
  rfl

/-- A key that occurs at most once leads to its node, if it occurs. -/
theorem member?_of_count_le_one (h : (pairs.map Prod.fst).count key ≤ 1) :
    (key ∉ pairs.map Prod.fst ∧ Node.member? key pairs = some none) ∨
      ∃ node, (key, node) ∈ pairs ∧ Node.member? key pairs = some (some node) := by
  rw [← length_filter_fst] at h
  rw [Node.member?]
  rcases hfilter : pairs.filter fun p ↦ p.1 == key with _ | ⟨p, _ | ⟨q, rest⟩⟩
  · refine Or.inl ⟨fun hkey ↦ ?_, by rw [hfilter]⟩
    obtain ⟨p, hp, rfl⟩ := List.mem_map.mp hkey
    exact List.filter_eq_nil_iff.mp hfilter p hp (beq_self_eq_true _)
  · have hp : p ∈ pairs.filter fun p ↦ p.1 == key := hfilter ▸ List.mem_singleton_self p
    obtain ⟨hmem, hkey⟩ := List.mem_filter.mp hp
    obtain rfl := beq_iff_eq.mp hkey
    exact Or.inr ⟨p.2, hmem, by rw [hfilter]⟩
  · rw [hfilter, List.length_cons, List.length_cons] at h
    omega

end Fields

end AffineQuant.Yaml
