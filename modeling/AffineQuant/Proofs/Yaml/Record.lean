import AffineQuant.Proofs.Decimal.Spelling
import AffineQuant.Proofs.Yaml.Lexer

/-!
# The tokens of a record

A record that was written is read as the tokens of its fields (`tokens?_writeFields`), and a
document of sections as those of its records (`tokens?_writeSections`). Both are walks of the lexer
from one line to the next.

## One step for a value

A value takes one step in each style that it may be written in (`run_value`). The four styles differ
in what the lexer reads and in where it stops; stated with the spaces of the next line after the
value, and at rest on either side, they all say the same, and the styles are not seen from outside.
That a style is chosen for a text only if the text can be read back in it is `styleOf_cases`.
Numbers, integers and truth values are always plain.

## The walk

A field takes three steps (`run_field`), two for the key and one for the value, and the fields and
sections follow by induction. What carries the induction is that a field ends at the beginning of a
line, where the lexer is at rest again and one level deeper at most: the first field of a record
begins its mapping, and the others find it begun. The end of a record is not seen until the next
line turns out to be less deep, so a section leaves its mapping open (`openTokens`), and the next
one, or the end of the text, closes it.

## Enough steps

A document may be read in as many steps as it has characters. A field takes three steps, and it has
a key, a colon and a space (`length_le_writeFields`).
-/

namespace AffineQuant.Yaml

open Lexer

/-! ## Scalars as values -/

section Scalars

variable {p : Place} {c : Char} {cs ds tail : List Char} {k n column : ℕ} {outer : List ℤ}
  {tokens : List Token} {s : List Glyph}

private theorem afterMarker?_of_column_pos {m : Char} {g : Glyph} {rest : List Glyph}
    (h : 0 < g.column) : afterMarker? m (g :: rest) = none :=
  afterMarker?_eq_none fun g' hg ↦ .inl (by
    rw [List.head?_cons, Option.mem_some_iff] at hg
    rwa [← hg])

/-- The step at the first character of a scalar in a mapping that it stands deeper than. -/
private theorem run_scalar (hblank : isBlank c = false) (hbreak : isBreak c = false)
    (hhash : c ≠ '#') (hcolumn : column < p.column) :
    run (n + 1) (resting false (p.glyphs (c :: ds)) column outer tokens) =
      ((resting false (p.glyphs (c :: ds)) column outer tokens).next (p.glyph c)
        ((p.next c).glyphs ds)).bind (run n) := by
  have hskip : skipGap false false false (p.glyphs (c :: ds)) =
      (false, p.glyph c :: (p.next c).glyphs ds) := by
    rw [skipGap_stop hblank hbreak hhash fun _ ↦ Nat.zero_lt_of_lt hcolumn, Place.glyphs_cons]
  rw [run_resting hskip (Int.ofNat_le.mpr (Nat.le_of_lt hcolumn)), Place.glyphs_cons]

/-- What is passed over after a scalar that does not end its line. -/
private theorem run_lineEnd :
    run n (resting false (p.glyphs ('\n' :: (spaces k ++ tail))) column outer tokens) =
      run n (resting true ((p.after ('\n' :: spaces k)).glyphs tail) column outer tokens) := by
  refine run_congr ?_
  rw [skipGap_lineFeed, skipGap_spaces]
  rfl

private theorem readPlain_value {g : Glyph} {rest more : List Glyph} {text : List Char}
    {crossed : Bool} {indent : ℤ}
    (hscan : scanPlain false (indent + 1) .empty (g :: rest) = some (text, crossed, more)) :
    (resting false s indent outer tokens).readPlain g rest =
      some (resting crossed more indent outer (.scalar .plain text :: tokens)) := by
  simp [readPlain, saveKey, resting, inFlow, hscan, emit]

theorem run_plain (h : IsPlain cs) (hcolumn : column < p.column) (hk : k ≤ column)
    (htail : BeginsKey tail) :
    run (n + 1) (resting false
        (p.glyphs (cs ++ ['\n'] ++ (spaces k ++ tail))) column outer tokens) =
      run n (resting true ((p.after (cs ++ ['\n'] ++ spaces k)).glyphs tail) column outer
        (.scalar .plain cs :: tokens)) := by
  rw [List.append_assoc, List.append_assoc, List.singleton_append, List.singleton_append]
  have hpos : 0 < p.column := Nat.zero_lt_of_lt hcolumn
  have hscan := scanPlain_value (p := p) h.toIsPlainBody
    (by obtain ⟨c, rest, rfl, -⟩ := h.begins; exact List.cons_ne_nil c rest)
    (show (column : ℤ) + 1 ≤ p.column + 1 by omega) htail.beginsLine
    (show (k : ℤ) < column + 1 by omega)
  obtain ⟨c, rest, rfl, hspace, hbegins⟩ := h.begins
  have hblank := isBlank_eq_false hspace (h.noTab c List.mem_cons_self)
  have hbreak := h.oneLine c List.mem_cons_self
  have hhash : c ≠ '#' := by
    rintro rfl
    rcases hbegins with h | ⟨h | h | h, -⟩
    · exact absurd h (by decide)
    all_goals exact absurd h (by decide)
  have hbegins' : indicators.contains c = false ∨ (c = '-' ∨ c = '?' ∨ c = ':') ∧
      atGap ((p.next c).glyphs (rest ++ '\n' :: (spaces k ++ tail))) = false := by
    refine hbegins.imp_right fun ⟨hc, d, more, hrest, hd⟩ ↦ ⟨hc, ?_⟩
    rw [hrest, List.cons_append, atGap_glyphs_cons, (isGap_eq_false hd).1, (isGap_eq_false hd).2]
    rfl
  rw [List.cons_append] at hscan ⊢
  rw [run_scalar hblank hbreak hhash hcolumn,
    next_eq_readPlain rfl (afterMarker?_of_column_pos hpos) (afterMarker?_of_column_pos hpos)
      hblank hbreak hbegins',
    readPlain_value (by rwa [← Place.glyphs_cons]), Option.bind_some]

private theorem next_single {text : List Char} {rest : List Glyph} {indent : ℤ}
    (hpos : 0 < p.column)
    (hscan : scanSingle .empty ((p.next '\x27').glyphs ds) = some (text, rest)) :
    (resting false s indent outer tokens).next (p.glyph '\x27') ((p.next '\x27').glyphs ds) =
      some (resting false rest indent outer (.scalar .single text :: tokens)) := by
  have hmarker : ∀ m, afterMarker? m (p.glyph '\x27' :: (p.next '\x27').glyphs ds) = none :=
    fun m ↦ afterMarker?_of_column_pos hpos
  simp [next, hmarker, readWord, saveKey, resting, hscan, emit]

theorem run_single (h : IsSingle cs) (hcolumn : column < p.column) :
    run (n + 1) (resting false
        (p.glyphs (writeSingle (column + 2) cs ++ ['\n'] ++ (spaces k ++ tail))) column outer
        tokens) =
      run n (resting true
        ((p.after (writeSingle (column + 2) cs ++ ['\n'] ++ spaces k)).glyphs tail) column outer
        (.scalar .single cs :: tokens)) := by
  rw [List.append_assoc, List.append_assoc, List.singleton_append, List.singleton_append]
  have hnext : 0 < (p.next '\x27').column := by
    rw [Place.column_next rfl]
    omega
  have hscan := scanSingle_write ('\n' :: (spaces k ++ tail)) (Nat.succ_pos (column + 1)) h hnext
    (by simp)
  rw [writeSingle, List.cons_append, run_scalar rfl rfl (by decide) hcolumn,
    next_single (Nat.zero_lt_of_lt hcolumn) hscan, Option.bind_some, run_lineEnd]
  simp

private theorem next_double {text : List Char} {rest : List Glyph} {indent : ℤ}
    (hpos : 0 < p.column)
    (hscan : scanDouble (.text .empty) ((p.next '\x22').glyphs ds) = some (text, rest)) :
    (resting false s indent outer tokens).next (p.glyph '\x22') ((p.next '\x22').glyphs ds) =
      some (resting false rest indent outer (.scalar .double text :: tokens)) := by
  have hmarker : ∀ m, afterMarker? m (p.glyph '\x22' :: (p.next '\x22').glyphs ds) = none :=
    fun m ↦ afterMarker?_of_column_pos hpos
  simp [next, hmarker, readWord, saveKey, resting, hscan, emit]

theorem run_double (hcolumn : column < p.column) :
    run (n + 1) (resting false
        (p.glyphs (writeDouble cs ++ ['\n'] ++ (spaces k ++ tail))) column outer tokens) =
      run n (resting true
        ((p.after (writeDouble cs ++ ['\n'] ++ spaces k)).glyphs tail) column outer
        (.scalar .double cs :: tokens)) := by
  rw [List.append_assoc, List.append_assoc, List.singleton_append, List.singleton_append]
  have hnext : 0 < (p.next '\x22').column := by
    rw [Place.column_next rfl]
    omega
  have hscan : scanDouble (.text .empty) ((p.next '\x22').glyphs (cs.flatMap showChar ++ '\x22' ::
      '\n' :: (spaces k ++ tail))) = some (cs, _) := scanDouble_append hnext
  rw [writeDouble_eq, List.cons_append, List.append_assoc, List.singleton_append,
    run_scalar rfl rfl (by decide) hcolumn,
    next_double (Nat.zero_lt_of_lt hcolumn) hscan, Option.bind_some, run_lineEnd]
  simp

private theorem next_literal {text : List Char} {rest : List Glyph} {indent : ℤ}
    (hpos : 0 < p.column)
    (hscan : scanBlock true indent ((p.next '|').glyphs ds) = some (text, rest)) :
    (resting false s indent outer tokens).next (p.glyph '|') ((p.next '|').glyphs ds) =
      some (resting true rest indent outer (.scalar .literal text :: tokens)) := by
  have hmarker : ∀ m, afterMarker? m (p.glyph '|' :: (p.next '|').glyphs ds) = none :=
    fun m ↦ afterMarker?_of_column_pos hpos
  simp [next, hmarker, readBlock, dropKey, inFlow, resting, hscan, emit]

theorem run_literal (hne : cs ≠ []) (hprint : ∀ c ∈ cs, isPrintable c = true)
    (hcolumn : column < p.column) (hk : k ≤ column) (htail : BeginsKey tail) :
    run (n + 1) (resting false
        (p.glyphs (writeLiteral (column + 2) cs ++ (spaces k ++ tail))) column outer tokens) =
      run n (resting true
        ((p.after (writeLiteral (column + 2) cs ++ spaces k)).glyphs tail) column outer
        (.scalar .literal cs :: tokens)) := by
  have hscan := scanBlock_write (p := p.next '|') hk hne hprint htail.beginsLine
  simp only [List.append_assoc, List.cons_append] at hscan
  rw [writeLiteral_eq, List.cons_append, List.append_assoc, List.cons_append,
    run_scalar rfl rfl (by decide) hcolumn, next_literal (Nat.zero_lt_of_lt hcolumn) hscan,
    Option.bind_some]
  simp

end Scalars

/-! ## Values -/

/-- The scalar as which a value is written. -/
def Value.scalar : Value → Scalar
  | .text s => ⟨styleOf s.toList, s.toList, none⟩
  | .word n => ⟨.plain, writeInt n, none⟩
  | .number x => ⟨.plain, writeNumber x, none⟩
  | .bool b => ⟨.plain, (if b then "true" else "false").toList, none⟩

def Value.token (v : Value) : Token := .scalar v.scalar.style v.scalar.text

private theorem isSimple_toChar (d : Digit) : isSimple d.toChar = true := by
  revert d
  decide

private theorem isSimple_digits {ds : List Digit} :
    ∀ c ∈ ds.map Digit.toChar, isSimple c = true := by
  intro c hc
  obtain ⟨d, -, rfl⟩ := List.mem_map.mp hc
  exact isSimple_toChar d

private theorem isSimple_sign {q : Prop} [Decidable q] :
    ∀ c ∈ (if q then ['-'] else []), isSimple c = true := by
  split_ifs <;> exact forall_mem_of_all (by decide)

private theorem isSimple_writeInt (n : ℤ) : ∀ c ∈ writeInt n, isSimple c = true :=
  List.forall_mem_append.mpr ⟨isSimple_sign, isSimple_digits⟩

private theorem isPlain_of_digits {ds : List Digit} (sign rest : List Char) (hds : ds ≠ [])
    (hsign : ∀ c ∈ sign, isSimple c = true) (hrest : ∀ c ∈ rest, isSimple c = true) :
    IsPlain (sign ++ (ds.map Digit.toChar ++ rest)) := by
  obtain ⟨d, ds, rfl⟩ := List.exists_cons_of_ne_nil hds
  have hdigit : ∀ d : Digit, d.toChar ≠ '-' := by decide
  refine isPlain_of_isSimple ?_ (by simp) fun h ↦ ?_
  · exact List.forall_mem_append.mpr
      ⟨hsign, List.forall_mem_append.mpr ⟨isSimple_digits, hrest⟩⟩
  · have hmem : d.toChar ∈ ['-'] := by
      rw [← h]
      simp
    exact hdigit d (List.mem_singleton.mp hmem)

theorem isPlain_writeInt (n : ℤ) : IsPlain (writeInt n) := by
  have hplain := isPlain_of_digits (if n < 0 then ['-'] else []) []
    (Digit.ofNat_ne_nil n.natAbs) isSimple_sign (by simp)
  rwa [List.append_nil] at hplain

private theorem isSimple_fraction (x : Numeral) :
    ∀ c ∈ (if x.fraction.isEmpty then [] else '.' :: x.fraction.map Digit.toChar) ++
      (match x.exponent with
      | none => []
      | some e => 'e' :: (if false && 0 ≤ e then ['+'] else []) ++ writeInt e),
      isSimple c = true := by
  refine List.forall_mem_append.mpr ⟨?_, ?_⟩
  · split_ifs
    · simp
    · exact List.forall_mem_cons.mpr ⟨by decide, isSimple_digits⟩
  · cases x.exponent with
    | none => simp
    | some e => exact List.forall_mem_cons.mpr ⟨by decide, isSimple_writeInt e⟩

theorem isPlain_write {x : Numeral} (hx : x.whole ≠ []) : IsPlain (x.write false) := by
  rw [Numeral.write, List.append_assoc, List.append_assoc]
  exact isPlain_of_digits _ _ hx isSimple_sign (isSimple_fraction x)

theorem isPlain_ofBinary_data {x : Single} (hx : x.isFinite = true) :
    (Numeral.ofBinary .data x).IsPlain := by
  obtain ⟨s, m, e, hc, rfl⟩ := Binary.exists_eq_finite hx
  rcases eq_or_ne m 0 with rfl | hm
  · rw [Numeral.ofBinary_data_zero]
    exact ⟨⟨by simp, by simp⟩, by simp⟩
  · obtain ⟨-, -, -, -, -, hplain, -⟩ := Numeral.exists_ofBinary_data hc hm s
    exact hplain

private theorem isSimple_writeNumber (x : Single) : ∀ c ∈ writeNumber x, isSimple c = true := by
  cases x with
  | nan => exact forall_mem_of_all (by decide)
  | inf s => cases s <;> exact forall_mem_of_all (by decide)
  | finite s m e hc =>
    rw [writeNumber, Numeral.write, List.append_assoc, List.append_assoc]
    exact List.forall_mem_append.mpr ⟨isSimple_sign,
      List.forall_mem_append.mpr ⟨isSimple_digits, isSimple_fraction _⟩⟩

theorem isPlain_writeNumber (x : Single) : IsPlain (writeNumber x) := by
  cases x with
  | nan => exact isPlain_of_isSimple (isSimple_writeNumber .nan) (by decide) (by decide)
  | inf s =>
    cases s <;> exact isPlain_of_isSimple (isSimple_writeNumber (.inf _)) (by decide) (by decide)
  | finite s m e hc =>
    exact isPlain_write (isPlain_ofBinary_data (x := .finite s m e hc) rfl).whole_ne_nil

/-! ## Styles -/

section Styles

variable {cs : List Char}

theorem isPrintable_of_isClean (h : isClean cs = true) : ∀ c ∈ cs, isPrintable c = true := by
  rw [isClean, Bool.and_eq_true] at h
  exact List.all_eq_true.mp h.1

theorem styleOf_cases (cs : List Char) :
    (styleOf cs = .literal ∧ cs ≠ [] ∧ ∀ c ∈ cs, isPrintable c = true) ∨
      (styleOf cs = .plain ∧ IsPlain cs ∧ ∀ c ∈ cs, isPrintable c = true) ∨
      (styleOf cs = .single ∧ IsSingle cs) ∨ styleOf cs = .double := by
  rw [styleOf]
  split_ifs with hfeed hliteral hplain hsingle
  · rw [allowsLiteral, Bool.and_eq_true] at hliteral
    refine .inl ⟨rfl, ?_, isPrintable_of_isClean hliteral.1⟩
    rintro rfl
    exact absurd hfeed (by decide)
  · exact .inr (.inr (.inr rfl))
  · rw [Bool.and_eq_true, Bool.not_eq_true'] at hplain
    have hne : cs ≠ [] := by
      rintro rfl
      exact absurd hplain.1 (by decide)
    have hclean : isClean cs = true := by
      have := hplain.2
      simp only [allowsPlain, Bool.and_eq_true] at this
      exact this.1.1.1.1
    exact .inr (.inl ⟨rfl, isPlain_of_allowsPlain hne hplain.2, isPrintable_of_isClean hclean⟩)
  · exact .inr (.inr (.inl ⟨rfl, isSingle_of_allowsSingle hsingle (by simpa using hfeed)⟩))
  · exact .inr (.inr (.inr rfl))

end Styles

/-! ## Fields -/

section Fields

variable {p : Place} {tail : List Char} {k n column : ℕ} {outer : List ℤ} {tokens : List Token}

private theorem run_text (s : List Char) (hcolumn : column < p.column) (hk : k ≤ column)
    (htail : BeginsKey tail) :
    run (n + 1) (resting false
        (p.glyphs (writeText (column + 2) s ++ (spaces k ++ tail))) column outer tokens) =
      run n (resting true ((p.after (writeText (column + 2) s ++ spaces k)).glyphs tail) column
        outer (.scalar (styleOf s) s :: tokens)) := by
  rw [writeText]
  rcases styleOf_cases s with ⟨hs, hne, hprint⟩ | ⟨hs, hplain, -⟩ | ⟨hs, hsingle⟩ | hs
  · rw [hs]
    exact run_literal hne hprint hcolumn hk htail
  · rw [hs]
    exact run_plain hplain hcolumn hk htail
  · rw [hs]
    exact run_single hsingle hcolumn
  · rw [hs]
    exact run_double hcolumn

/-- A value takes one step, and what is left is the next line without its indentation. -/
theorem run_value (v : Value) (hcolumn : column < p.column) (hk : k ≤ column)
    (htail : BeginsKey tail) :
    run (n + 1) (resting false
        (p.glyphs (v.write column ++ (spaces k ++ tail))) column outer tokens) =
      run n (resting true ((p.after (v.write column ++ spaces k)).glyphs tail) column outer
        (v.token :: tokens)) := by
  cases v with
  | text s => exact run_text s.toList hcolumn hk htail
  | word m => exact run_plain (isPlain_writeInt m) hcolumn hk htail
  | number x => exact run_plain (isPlain_writeNumber x) hcolumn hk htail
  | bool b =>
    have hplain : IsPlain (if b then "true" else "false").toList := by
      cases b <;> exact isPlain_of_isSimple (forall_mem_of_all (by decide)) (by decide) (by decide)
    exact run_plain hplain hcolumn hk htail

/-- A field as it is written, without its indentation. -/
def writeField (column : ℕ) (f : String × Value) : List Char :=
  f.1.toList ++ ':' :: ' ' :: f.2.write column

theorem writeFields_cons (f : String × Value) (fields : List (String × Value)) :
    writeFields column (f :: fields) =
      spaces column ++ (writeField column f ++ writeFields column fields) := by
  simp [writeFields, writeField]

/-- The tokens of a field. -/
def fieldTokens (f : String × Value) : List Token :=
  [.key, .scalar .plain f.1.toList, .value, f.2.token]

/-- **A field is read in three steps.** The first one of a record begins its mapping. -/
theorem run_field {f : String × Value} {indent : ℤ} (hkey : isKey f.1.toList = true)
    (hindent : indent ≤ p.column) (hk : k ≤ p.column) (htail : BeginsKey tail) :
    run (n + 3) (resting true
        (p.glyphs (writeField p.column f ++ (spaces k ++ tail))) indent outer tokens) =
      run n (resting true ((p.after (writeField p.column f ++ spaces k)).glyphs tail) p.column
        (if indent < p.column then indent :: outer else outer)
        ((fieldTokens f).reverse ++
          if indent < p.column then .blockMapping :: tokens else tokens)) := by
  have hspace : ∀ (q : Place) (s : List Char) (indent : ℤ) (outer : List ℤ) (tokens : List Token),
      run (n + 1) (resting false (q.glyphs (' ' :: s)) indent outer tokens) =
        run (n + 1) (resting false ((q.next ' ').glyphs s) indent outer tokens) :=
    fun q s indent outer tokens ↦ run_congr (skipGap_spaces (k := 1))
  have hcolumn : p.column < (((p.after f.1.toList).next ':').next ' ').column := by
    rw [Place.column_next rfl, Place.column_next rfl,
      Place.column_after (isBreak_of_isKey hkey)]
    omega
  rw [writeField, List.append_assoc, List.cons_append, List.cons_append,
    run_key hkey atGap_glyphs_cons hindent, hspace, run_value f.2 hcolumn hk htail]
  simp [fieldTokens]

private theorem column_after_writeText (s : List Char) :
    (p.after (writeText column s)).column = 0 := by
  rw [writeText]
  rcases styleOf_cases s with ⟨hs, -, hprint⟩ | ⟨hs, -⟩ | ⟨hs, -⟩ | hs
  · rw [hs]
    dsimp only
    rw [writeLiteral_eq, ← List.cons_append, Place.after_append]
    exact column_after_body hprint fun _ ↦ Place.column_next_of_isBreak rfl
  all_goals
    rw [hs]
    exact Place.column_after_line _

theorem column_after_writeField (f : String × Value) :
    (p.after (writeField column f)).column = 0 := by
  rw [writeField, Place.after_append]
  cases f.2 with
  | text s => exact column_after_writeText s.toList
  | word m => exact Place.column_after_line (writeInt m)
  | number x => exact Place.column_after_line (writeNumber x)
  | bool b => exact Place.column_after_line _

theorem beginsKey_of_isKey {cs : List Char} (hkey : isKey cs = true) (s : List Char) :
    BeginsKey (cs ++ s) := by
  simp only [isKey, Bool.and_eq_true] at hkey
  intro c hc
  cases cs with
  | nil => exact absurd hkey.1.2 (by decide)
  | cons d ds =>
    obtain rfl : d = c := by simpa using hc
    exact hkey.1.2

theorem beginsKey_nil : BeginsKey [] := fun _ hc ↦ absurd hc (by simp)

/-- **The fields of a record are read in three steps each.** -/
theorem run_fields {f : String × Value} {fields : List (String × Value)} {indent : ℤ}
    (outer : List ℤ) (tokens : List Token)
    (hkeys : ∀ g ∈ f :: fields, isKey g.1.toList = true) (hindent : indent ≤ p.column)
    (hk : k ≤ p.column) (htail : BeginsKey tail) :
    let text := writeField p.column f ++ writeFields p.column fields
    run (n + 3 * (f :: fields).length)
        (resting true (p.glyphs (text ++ (spaces k ++ tail))) indent outer tokens) =
      run n (resting true ((p.after (text ++ spaces k)).glyphs tail) p.column
        (if indent < p.column then indent :: outer else outer)
        (((f :: fields).flatMap fieldTokens).reverse ++
          if indent < p.column then .blockMapping :: tokens else tokens)) := by
  obtain ⟨hkey, hrest⟩ := List.forall_mem_cons.mp hkeys
  induction fields generalizing p f indent outer tokens with
  | nil =>
    intro text
    rw [show text = writeField p.column f from List.append_nil _]
    exact (run_field hkey hindent hk htail).trans (by simp)
  | cons g gs ih =>
    obtain ⟨hg, hgs⟩ := List.forall_mem_cons.mp hrest
    have hcolumn : (p.after (writeField p.column f ++ spaces p.column)).column = p.column := by
      rw [Place.after_append, column_after_spaces, column_after_writeField, Nat.zero_add]
    have hmore := ih (p := p.after (writeField p.column f ++ spaces p.column))
      (if indent < p.column then indent :: outer else outer)
      ((fieldTokens f).reverse ++ if indent < p.column then .blockMapping :: tokens else tokens)
      hrest (Int.ofNat_le.mpr hcolumn.ge) (by rwa [hcolumn]) hg hgs
    rw [hcolumn, if_neg (Int.lt_irrefl _), if_neg (Int.lt_irrefl _)] at hmore
    intro text
    have htext : text = writeField p.column f ++ (spaces p.column ++
        (writeField p.column g ++ writeFields p.column gs)) := by
      rw [← writeFields_cons]
    have hnext : BeginsKey (writeField p.column g ++ writeFields p.column gs ++
        (spaces k ++ tail)) := by
      rw [List.append_assoc]
      rw [writeField, List.append_assoc]
      exact beginsKey_of_isKey hg _
    rw [htext, List.append_assoc, List.append_assoc,
      show n + 3 * (f :: g :: gs).length = n + 3 * (g :: gs).length + 3 by simp; omega,
      run_field hkey hindent (Nat.le_refl _) hnext, hmore]
    simp

end Fields

/-! ## Printing -/

section Printing

variable {cs : List Char} {column : ℕ}

private theorem isPrintable_of_isSimple {c : Char} (h : isSimple c = true) :
    isPrintable c = true := by
  have hbounds : 0x2D ≤ c.toNat ∧ c.toNat ≤ 0x7A := by
    simp only [isSimple, isWord, Bool.or_eq_true, Bool.and_eq_true, decide_eq_true_eq,
      beq_iff_eq, Char.le_def, UInt32.le_iff_toNat_le] at h
    have hval : c.val.toNat = c.toNat := rfl
    rcases h with ((((⟨h, h'⟩ | ⟨h, h'⟩) | ⟨h, h'⟩) | rfl) | rfl) | rfl
    · exact ⟨Nat.le_trans (by decide) h, Nat.le_trans h' (by decide)⟩
    · exact ⟨Nat.le_trans (by decide) h, Nat.le_trans h' (by decide)⟩
    · exact ⟨Nat.le_trans (by decide) h, Nat.le_trans h' (by decide)⟩
    all_goals decide
  simp only [isPrintable, Bool.or_eq_true, Bool.and_eq_true, decide_eq_true_eq]
  omega

theorem isPrintable_writeText (cs : List Char) :
    ∀ c ∈ writeText column cs, isPrintable c = true := by
  rw [writeText]
  rcases styleOf_cases cs with ⟨hs, -, hprint⟩ | ⟨hs, -, hprint⟩ | ⟨hs, hsingle⟩ | hs
  · rw [hs]
    exact isPrintable_writeLiteral hprint
  · rw [hs]
    exact isPrintable_of_mem_line hprint
  · rw [hs]
    exact isPrintable_of_mem_line
      (List.forall_mem_cons.mpr ⟨rfl, isPrintable_of_mem_body hsingle.printable⟩)
  · rw [hs, writeDouble_eq]
    refine isPrintable_of_mem_line (List.forall_mem_cons.mpr
      ⟨rfl, List.forall_mem_append.mpr ⟨?_, List.forall_mem_singleton.mpr rfl⟩⟩)
    intro c hc
    obtain ⟨d, -, hd⟩ := List.mem_flatMap.mp hc
    exact (isInline_showChar d c hd).1

theorem isPrintable_write (v : Value) : ∀ c ∈ v.write column, isPrintable c = true := by
  have hline : ∀ {t : List Char}, (∀ c ∈ t, isSimple c = true) →
      ∀ c ∈ t ++ ['\n'], isPrintable c = true := fun ht ↦
    isPrintable_of_mem_line fun c hc ↦ isPrintable_of_isSimple (ht c hc)
  cases v with
  | text s => exact isPrintable_writeText s.toList
  | word m => exact hline (isSimple_writeInt m)
  | number x => exact hline (isSimple_writeNumber x)
  | bool b => cases b <;> exact hline (forall_mem_of_all (by decide))

theorem isPrintable_writeFields {fields : List (String × Value)}
    (hkeys : ∀ f ∈ fields, isKey f.1.toList = true) :
    ∀ c ∈ writeFields column fields, isPrintable c = true := by
  intro c hc
  obtain ⟨f, hf, hc⟩ := List.mem_flatMap.mp hc
  have hkey : ∀ c ∈ f.1.toList, isPrintable c = true := fun c hc ↦
    isPrintable_of_isSimple (isSimple_of_isKey (hkeys f hf) c hc)
  exact List.forall_mem_append.mpr ⟨List.forall_mem_append.mpr ⟨List.forall_mem_append.mpr
    ⟨isPrintable_of_mem_spaces, hkey⟩, forall_mem_of_all (by decide)⟩, isPrintable_write f.2⟩ c hc

end Printing

/-! ## Documents -/

section Documents

variable {p : Place} {n : ℕ}

/-- The tokens of a record. -/
def recordTokens (fields : List (String × Value)) : List Token :=
  .blockMapping :: (fields.flatMap fieldTokens ++ [.blockEnd])

/-- The tokens of a named record but the one that shows its end, which is the next line. -/
def openTokens (s : String × List (String × Value)) : List Token :=
  .key :: .scalar .plain s.1.toList :: .value :: .blockMapping :: s.2.flatMap fieldTokens

/-- The tokens of a named record. -/
def sectionTokens (s : String × List (String × Value)) : List Token :=
  openTokens s ++ [.blockEnd]

private theorem length_le_writeFields (column : ℕ) {fields : List (String × Value)}
    (hkeys : ∀ f ∈ fields, isKey f.1.toList = true) :
    3 * fields.length ≤ (writeFields column fields).length := by
  induction fields with
  | nil => exact Nat.zero_le _
  | cons f fields ih =>
    obtain ⟨hkey, hrest⟩ := List.forall_mem_cons.mp hkeys
    have hpos : 0 < f.1.toList.length := by
      rw [List.length_pos_iff]
      rintro h
      rw [h] at hkey
      exact absurd hkey (by decide)
    have := ih hrest
    simp only [writeFields_cons, writeField, List.length_append, List.length_cons]
    omega

/-- The lexer begins at rest. -/
private theorem tokens?_eq {cs : List Char} (hprint : ∀ c ∈ cs, isPrintable c = true)
    {ts : List Token} {m : ℕ} (hm : m ≤ cs.length + 1)
    (hrun : run m (resting true (Place.start.glyphs cs) (-1) [] []) = some ts) :
    tokens? cs = some ts := by
  rw [tokens?, glyphs?_of_isPrintable hprint]
  refine run_mono hrun ?_
  rwa [Place.length_glyphs]

/-- **The tokens of a record are those of its fields.** -/
theorem tokens?_writeFields {fields : List (String × Value)} (hne : fields ≠ [])
    (hkeys : ∀ f ∈ fields, isKey f.1.toList = true) :
    tokens? (writeFields 0 fields) = some (recordTokens fields) := by
  obtain ⟨f, fields, rfl⟩ := List.exists_cons_of_ne_nil hne
  refine tokens?_eq (isPrintable_writeFields hkeys)
    (m := 1 + 3 * (f :: fields).length) (by have := length_le_writeFields 0 hkeys; omega) ?_
  have hfields := run_fields (p := Place.start) (k := 0) (n := 1) [] [] hkeys
    (show (-1 : ℤ) ≤ Place.start.column by decide) (Nat.zero_le _) beginsKey_nil
  simp only [show spaces 0 = [] from rfl, List.append_nil] at hfields
  rw [writeFields_cons]
  refine hfields.trans ?_
  rw [if_pos (by decide), if_pos (by decide)]
  refine (run_end (show closing (-1) 0 [-1] = (1, -1, []) from rfl)).trans ?_
  simp [recordTokens]

/-! ## Sections -/

variable {s : String × List (String × Value)} {sections : List (String × List (String × Value))}
  {tail : List Char} {indent : ℤ} {outer : List ℤ} {tokens : List Token}

/-- What a section needs to be read back: keys, and a field at least. -/
structure IsSection (s : String × List (String × Value)) : Prop where
  isKey : isKey s.1.toList = true
  ne_nil : s.2 ≠ []
  isKey_fields : ∀ f ∈ s.2, Lexer.isKey f.1.toList = true

/-- A section as it is written. -/
def writeSection (s : String × List (String × Value)) : List Char :=
  s.1.toList ++ ':' :: '\n' :: writeFields 2 s.2

theorem writeSections_cons : writeSections (s :: sections) =
    writeSection s ++ writeSections sections := by
  simp [writeSections, writeSection]

/-- The number of steps that a section takes. -/
def sectionSteps (s : String × List (String × Value)) : ℕ := 2 + 3 * s.2.length

/-- **A section is read in two steps and three for each field.** The first one begins the mapping
of the sections. -/
private theorem run_section (h : IsSection s) (hcolumn : p.column = 0) (hindent : indent ≤ 0)
    (htail : BeginsKey tail) :
    run (n + sectionSteps s) (resting true
        (p.glyphs (writeSection s ++ tail)) indent outer tokens) =
      run n (resting true ((p.after (writeSection s)).glyphs tail) 2
        (0 :: if indent < 0 then indent :: outer else outer)
        ((openTokens s).reverse ++
          if indent < 0 then .blockMapping :: tokens else tokens)) := by
  obtain ⟨name, fields⟩ := s
  obtain ⟨hkey, hne, hkeys⟩ := h
  obtain ⟨f, fields, rfl⟩ := List.exists_cons_of_ne_nil hne
  set q := ((p.after name.toList).next ':').after ('\n' :: spaces 2) with hq
  have hqcolumn : q.column = 2 := by
    rw [hq, Place.after_cons, column_after_spaces, Place.column_next_of_isBreak rfl]
  have hfields := run_fields (p := q) (k := 0) (n := n)
    (if indent < p.column then indent :: outer else outer)
    (.value :: .scalar .plain name.toList :: .key ::
      if indent < p.column then .blockMapping :: tokens else tokens) hkeys
    (show (p.column : ℤ) ≤ q.column by omega) (Nat.zero_le _) htail
  rw [hqcolumn] at hfields
  simp only [hcolumn, show spaces 0 = [] from rfl, List.append_nil, List.nil_append] at hfields
  have htext : writeSection (name, f :: fields) ++ tail = name.toList ++ ':' :: ('\n' ::
      (spaces 2 ++ (writeField 2 f ++ writeFields 2 fields ++ tail))) := by
    simp [writeSection, writeFields_cons]
  have hplace : p.after (writeSection (name, f :: fields)) =
      q.after (writeField 2 f ++ writeFields 2 fields) := by
    simp [writeSection, writeFields_cons, hq]
  rw [htext, show n + sectionSteps (name, f :: fields) = n + 3 * (f :: fields).length + 2 by
    simp only [sectionSteps]; omega,
    run_key hkey atGap_glyphs_cons (by omega), run_lineEnd, ← hq, hcolumn, hfields, hplace]
  simp [openTokens]

private theorem column_after_writeFields {fields : List (String × Value)} (hp : p.column = 0)
    (column : ℕ) : (p.after (writeFields column fields)).column = 0 := by
  induction fields generalizing p with
  | nil => exact hp
  | cons f fields ih =>
    rw [writeFields_cons, Place.after_append, Place.after_append]
    exact ih (column_after_writeField f)

private theorem column_after_writeSection : (p.after (writeSection s)).column = 0 := by
  rw [writeSection, Place.after_append, Place.after_cons, Place.after_cons]
  exact column_after_writeFields (Place.column_next_of_isBreak rfl) 2

private theorem beginsKey_writeSections (h : ∀ s ∈ sections, IsSection s) :
    BeginsKey (writeSections sections) := by
  cases sections with
  | nil => exact beginsKey_nil
  | cons s sections =>
    rw [writeSections_cons, writeSection, List.append_assoc]
    exact beginsKey_of_isKey (h s List.mem_cons_self).isKey _

/-- The sections after the first one, with which the record of the one before ends. -/
private theorem run_sections (h : ∀ s ∈ sections, IsSection s) (hcolumn : p.column = 0) :
    run (n + 1 + (sections.map sectionSteps).sum)
        (resting true (p.glyphs (writeSections sections)) 2 [0, -1] tokens) =
      some (tokens.reverse ++ .blockEnd :: (sections.flatMap sectionTokens ++ [.blockEnd])) := by
  induction sections generalizing p tokens with
  | nil =>
    refine (run_end (show closing (-1) 2 [0, -1] = (2, -1, []) from rfl)).trans ?_
    rfl
  | cons s sections ih =>
    obtain ⟨hs, hsections⟩ := List.forall_mem_cons.mp h
    have hbegins := beginsKey_writeSections h
    have hclosing : closing p.column 2 [0, -1] = (1, 0, [-1]) := by
      rw [hcolumn]
      rfl
    have hsteps : n + 1 + ((s :: sections).map sectionSteps).sum =
        n + (sectionSteps s + (sections.map sectionSteps).sum) + 1 := by
      rw [List.map_cons, List.sum_cons]
      omega
    have hsteps' : n + (sectionSteps s + (sections.map sectionSteps).sum) + 1 =
        n + 1 + (sections.map sectionSteps).sum + sectionSteps s := by omega
    have hne : writeSections (s :: sections) ≠ [] := by
      simp [writeSections_cons, writeSection]
    rw [hsteps, run_closing hbegins hne hclosing (by omega), hsteps', writeSections_cons,
      run_section hs hcolumn (Int.le_refl 0) (beginsKey_writeSections hsections),
      if_neg (Int.lt_irrefl 0), if_neg (Int.lt_irrefl 0),
      ih hsections column_after_writeSection]
    simp [sectionTokens]

private theorem sectionSteps_le (h : IsSection s) : sectionSteps s ≤ (writeSection s).length := by
  have := length_le_writeFields 2 h.isKey_fields
  simp only [sectionSteps, writeSection, List.length_append, List.length_cons]
  omega

private theorem sum_sectionSteps_le (h : ∀ s ∈ sections, IsSection s) :
    (sections.map sectionSteps).sum ≤ (writeSections sections).length := by
  induction sections with
  | nil => exact Nat.le_refl 0
  | cons s sections ih =>
    obtain ⟨hs, hsections⟩ := List.forall_mem_cons.mp h
    have hfirst := sectionSteps_le hs
    have hrest := ih hsections
    rw [List.map_cons, List.sum_cons, writeSections_cons, List.length_append]
    omega

private theorem isPrintable_writeSections (h : ∀ s ∈ sections, IsSection s) :
    ∀ c ∈ writeSections sections, isPrintable c = true := by
  intro c hc
  obtain ⟨s, hs, hc⟩ := List.mem_flatMap.mp hc
  have hkey : ∀ c ∈ s.1.toList, isPrintable c = true := fun c hc ↦
    isPrintable_of_isSimple (isSimple_of_isKey (h s hs).isKey c hc)
  exact List.forall_mem_append.mpr
    ⟨List.forall_mem_append.mpr ⟨hkey, forall_mem_of_all (by decide)⟩,
      isPrintable_writeFields (h s hs).isKey_fields⟩ c hc

/-- **The tokens of a document of sections are those of its records.** -/
theorem tokens?_writeSections (hne : sections ≠ []) (h : ∀ s ∈ sections, IsSection s) :
    tokens? (writeSections sections) =
      some (.blockMapping :: (sections.flatMap sectionTokens ++ [.blockEnd])) := by
  have hbound := sum_sectionSteps_le h
  have hprint := isPrintable_writeSections h
  obtain ⟨s, sections, rfl⟩ := List.exists_cons_of_ne_nil hne
  obtain ⟨hs, hsections⟩ := List.forall_mem_cons.mp h
  refine tokens?_eq hprint (m := 0 + 1 + (sections.map sectionSteps).sum + sectionSteps s)
    (by rw [List.map_cons, List.sum_cons] at hbound; omega) ?_
  rw [writeSections_cons, run_section hs rfl (by decide) (beginsKey_writeSections hsections),
    if_pos (by decide), if_pos (by decide), run_sections hsections column_after_writeSection]
  simp [sectionTokens]

end Documents

end AffineQuant.Yaml
