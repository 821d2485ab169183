import AffineQuant.Proofs.Yaml.Place
import AffineQuant.Yaml.Token.FlowScalar
import Mathlib.Algebra.Group.Nat.Defs

/-!
# Quoted scalars as texts

The readers of quoted scalars take back what the writer put between quotes. Unlike plain scalars
these end with a mark of their own, so of what follows nothing has to be known, except that a
single quote is not followed by another one.

## Double quotes

In double quotes everything stands in one line and each character is itself or an escape. An escape
by number is a row of hexadecimal digits of fixed width, which is read as any such row is
(`foldl_hexDigits`); that the width is enough for the character is the only thing to check. The
induction is on the characters, each of which is read by itself but for the spaces, which the
reader holds back until it knows what comes after them (`scanDouble_append`).

## Single quotes

In single quotes a line break is kept as it is, since it is none of those that folding turns into
spaces; the indentation after it is dropped with the other blanks of the line. What must not
happen is that a blank of the text meets a break of the text, because it would be dropped with the
indentation. That is what `allowsSingle` asks for (`IsSingle`).

The reader is after breaks or after spaces, never after both. `IsWithin` is this invariant, with
what each of the two excludes for the character that comes next, and there is one lemma for each
kind of character that the text may go on with.
-/

namespace AffineQuant.Yaml

/-! ## Double quotes -/

/-- A character as it stands in double quotes. -/
def showChar (c : Char) : List Char :=
  if !isPrintable c || endsLine c || c == '\x22' || c == '\x5c' then escapeChar c else [c]

theorem writeDouble_eq (cs : List Char) :
    writeDouble cs = '\x22' :: (cs.flatMap showChar ++ ['\x22']) := rfl

/-- The digits of a number below `16 ^ width`, the first one first. -/
def hexDigits (width n : ℕ) : List ℕ :=
  (List.range width).map fun i ↦ n / pow2 (4 * (width - 1 - i)) % 16

theorem hexDigits_succ (width n : ℕ) :
    hexDigits (width + 1) n = hexDigits width (n / 16) ++ [n % 16] := by
  have hlast : n / pow2 (4 * (width + 1 - 1 - width)) % 16 = n % 16 := by
    simp [pow2]
  rw [hexDigits, List.range_succ, List.map_append, List.map_singleton, hlast, hexDigits]
  congr 1
  refine List.map_congr_left fun i hi ↦ ?_
  have hi := List.mem_range.mp hi
  have hshift : pow2 (4 * (width + 1 - 1 - i)) = 16 * pow2 (4 * (width - 1 - i)) := by
    rw [show 4 * (width + 1 - 1 - i) = 4 + 4 * (width - 1 - i) by omega]
    simp [pow2, Nat.pow_add]
  rw [hshift, Nat.div_div_eq_div_mul]

theorem foldl_hexDigits (width n : ℕ) :
    (hexDigits width n).foldl (fun v d ↦ 16 * v + d) 0 = n % 16 ^ width := by
  induction width generalizing n with
  | zero => rw [Nat.pow_zero, Nat.mod_one]; rfl
  | succ width ih =>
    rw [hexDigits_succ, List.foldl_append, ih, List.foldl_cons, List.foldl_nil, Nat.pow_succ',
      Nat.mod_mul]
    omega

theorem map_hexDigits (width n : ℕ) : (hexDigits width n).map hexDigitUpper =
    (List.range width).map fun i ↦ hexDigitUpper (n / pow2 (4 * (width - 1 - i)) % 16) :=
  List.map_map

theorem lt_of_mem_hexDigits {width n d : ℕ} (h : d ∈ hexDigits width n) : d < 16 := by
  obtain ⟨i, -, rfl⟩ := List.mem_map.mp h
  exact Nat.mod_lt _ (by decide)

private theorem toNat_lt (c : Char) : c.toNat < 16 ^ 8 := by
  rcases c.valid with h | ⟨-, h⟩
  · exact Nat.lt_trans h (by decide)
  · exact Nat.lt_trans h (by decide)

section Double

variable {p : Place} {c : Char} {cs tail : List Char}

/-- The digits of an escape by number are read as the character with that number. -/
theorem scanDouble_digits {ds : List ℕ} {v : ℕ} (p : Place) (tail : List Char)
    (hds : ∀ d ∈ ds, d < 16) (hne : ds ≠ []) (hc : ds.foldl (fun v d ↦ 16 * v + d) v = c.toNat) :
    scanDouble (.digits ds.length v) (p.glyphs (ds.map hexDigitUpper ++ tail)) =
      (scanDouble (.text .empty) ((p.after (ds.map hexDigitUpper)).glyphs tail)).map fun r ↦
        (c :: r.1, r.2) := by
  induction ds generalizing p v with
  | nil => exact absurd rfl hne
  | cons d ds ih =>
    have hdigit := hexDigit?_hexDigitUpper d (hds d List.mem_cons_self)
    rw [List.map_cons, List.cons_append, Place.glyphs_cons, scanDouble, Place.glyph_char, hdigit,
      Place.after_cons, List.length_cons]
    cases ds with
    | nil =>
      have hvalid : (16 * v + d).isValidChar := by
        rw [show 16 * v + d = c.toNat from hc]
        exact c.valid
      have hchar : Char.ofNat (16 * v + d) = c := (congrArg Char.ofNat hc).trans c.ofNat_toNat
      simp only [List.length_nil, Nat.lt_irrefl, if_false, if_pos hvalid, hchar]
      rfl
    | cons e es =>
      have hrest := ih (v := 16 * v + d) (p.next (hexDigitUpper d))
        (fun b hb ↦ hds b (List.mem_cons_of_mem _ hb)) (List.cons_ne_nil e es) hc
      rw [List.length_cons] at hrest ⊢
      simp only [show 1 < es.length + 1 + 1 by omega, if_true, Nat.add_sub_cancel, hrest]

private theorem scanDouble_number (mark : Char) (width : ℕ) (hmark : isBreak mark = false)
    (hletter : escaped? mark = none) (hwidth : escapeWidth? mark = some (width + 1))
    (hc : c.toNat < 16 ^ (width + 1)) :
    let code := mark :: (hexDigits (width + 1) c.toNat).map hexDigitUpper
    scanDouble .escape (p.glyphs (code ++ tail)) =
      (scanDouble (.text .empty) ((p.after code).glyphs tail)).map fun r ↦ (c :: r.1, r.2) := by
  have hlength : (hexDigits (width + 1) c.toNat).length = width + 1 := by
    rw [hexDigits, List.length_map, List.length_range]
  have hvalue := (foldl_hexDigits (width + 1) c.toNat).trans (Nat.mod_eq_of_lt hc)
  have hdigits := scanDouble_digits (p.next mark) tail
    (fun d hd ↦ lt_of_mem_hexDigits hd)
    (List.ne_nil_of_length_eq_add_one hlength) hvalue
  rw [hlength] at hdigits
  simp only [List.cons_append, Place.glyphs_cons, scanDouble, Place.glyph_char, hmark,
    Bool.false_eq_true, if_false, hletter, hwidth, Place.after_cons, hdigits]

theorem scanDouble_escapeChar :
    scanDouble .escape (p.glyphs ((escapeChar c).tail ++ tail)) =
      (scanDouble (.text .empty) ((p.after (escapeChar c).tail).glyphs tail)).map fun r ↦
        (c :: r.1, r.2) := by
  unfold escapeChar
  split
  case h_16 =>
    simp only [List.tail_cons, ← map_hexDigits]
    split_ifs with hx hu
    · exact scanDouble_number 'x' 1 (by decide) rfl rfl (by omega)
    · exact scanDouble_number 'u' 3 (by decide) rfl rfl (by omega)
    · exact scanDouble_number 'U' 7 (by decide) rfl rfl (toNat_lt c)
  all_goals rfl

/-- What the writer puts between double quotes is printable and stays in the line. -/
def IsInline (cs : List Char) : Prop := ∀ c ∈ cs, isPrintable c = true ∧ isBreak c = false

private theorem isInline_hexDigitUpper :
    ∀ n < 16, isPrintable (hexDigitUpper n) = true ∧ isBreak (hexDigitUpper n) = false := by
  decide

private theorem isInline_number {mark : Char} {width n : ℕ}
    (hmark : isPrintable mark = true ∧ isBreak mark = false) :
    IsInline ('\x5c' :: mark :: (hexDigits width n).map hexDigitUpper) := by
  intro d hd
  rcases List.mem_cons.mp hd with rfl | hd
  · decide
  rcases List.mem_cons.mp hd with rfl | hd
  · exact hmark
  · obtain ⟨m, hm, rfl⟩ := List.mem_map.mp hd
    exact isInline_hexDigitUpper m (lt_of_mem_hexDigits hm)

theorem isInline_escapeChar (c : Char) : IsInline (escapeChar c) := by
  unfold escapeChar
  split
  case h_16 =>
    simp only [← map_hexDigits]
    split_ifs <;> exact isInline_number (by decide)
  all_goals
    exact forall_mem_of_all (by decide)

theorem isInline_showChar (c : Char) : IsInline (showChar c) := by
  rw [showChar]
  split_ifs with h
  · exact isInline_escapeChar c
  · intro d hd
    rw [List.mem_singleton.mp hd]
    simp only [Bool.or_eq_true, not_or, Bool.not_eq_true, Bool.not_eq_false'] at h
    obtain ⟨⟨⟨hprint, hline⟩, -⟩, -⟩ := h
    exact ⟨hprint, by rw [← endsLine_of_isPrintable hprint, hline]⟩

private theorem scanDouble_space (gap : List Char) :
    scanDouble (.text ⟨gap, [], false⟩) (p.glyphs (' ' :: tail)) =
      scanDouble (.text ⟨gap ++ [' '], [], false⟩) ((p.next ' ').glyphs tail) := by
  rw [Place.glyphs_cons, scanDouble, Place.glyph_char, if_pos (by rfl)]
  rfl

/-- What a character that is no gap means between double quotes. -/
private theorem scanDouble_char (gap : Gap) (hblank : isBlank c = false)
    (hbreak : isBreak c = false) (hcolumn : 0 < p.column) :
    scanDouble (.text gap) (p.glyphs (c :: tail)) =
      if c = '\x22' then some (gap.text, (p.next c).glyphs tail)
      else if c = '\x5c' then
        (scanDouble .escape ((p.next c).glyphs tail)).map fun r ↦ (gap.text ++ r.1, r.2)
      else
        (scanDouble (.text .empty) ((p.next c).glyphs tail)).map fun r ↦
          (gap.text ++ c :: r.1, r.2) := by
  have hmarker : atMarker (p.glyphs (c :: tail)) = false := atMarker_of_column_pos hcolumn
  rw [Place.glyphs_cons] at hmarker ⊢
  rw [scanDouble, Place.glyph_char, if_neg (by simp [hblank]), if_neg (by simp [hbreak]),
    if_neg (by simp [hmarker])]

theorem scanDouble_append {gap : List Char} (hcolumn : 0 < p.column) :
    scanDouble (.text ⟨gap, [], false⟩) (p.glyphs (cs.flatMap showChar ++ '\x22' :: tail)) =
      some (gap ++ cs, ((p.after (cs.flatMap showChar)).next '\x22').glyphs tail) := by
  induction cs generalizing p gap with
  | nil =>
    rw [List.flatMap_nil, List.nil_append, scanDouble_char _ rfl rfl hcolumn, if_pos rfl,
      List.append_nil]
    rfl
  | cons c cs ih =>
    have hshow : 0 < (p.after (showChar c)).column := by
      rw [Place.column_after fun d hd ↦ (isInline_showChar c d hd).2]
      omega
    have hrest : scanDouble (.text .empty) ((p.after (showChar c)).glyphs _) = some (cs, _) :=
      ih hshow
    rw [List.flatMap_cons, List.append_assoc, Place.after_append]
    by_cases hspace : c = ' '
    · subst hspace
      rw [show showChar ' ' = [' '] from by decide, Place.after_cons, Place.after_nil,
        List.singleton_append, scanDouble_space, ih (by rw [Place.column_next rfl]; omega),
        List.append_assoc]
      rfl
    · by_cases hescape : (!isPrintable c || endsLine c || c == '\x22' || c == '\x5c') = true
      · have hcode : escapeChar c = '\x5c' :: (escapeChar c).tail := rfl
        rw [showChar, if_pos hescape] at hrest ⊢
        rw [hcode, Place.after_cons] at hrest ⊢
        rw [List.cons_append, scanDouble_char _ rfl rfl hcolumn, if_neg (by decide), if_pos rfl,
          scanDouble_escapeChar]
        rw [hrest]
        rfl
      · rw [showChar, if_neg hescape, Place.after_cons, Place.after_nil] at hrest ⊢
        simp only [Bool.or_eq_true, not_or, Bool.not_eq_true, Bool.not_eq_false', beq_iff_eq]
          at hescape
        obtain ⟨⟨⟨hprint, hline⟩, hquote⟩, hslash⟩ := hescape
        rw [endsLine_of_isPrintable hprint] at hline
        have hblank : isBlank c = false := by
          rw [isBlank_of_isPrintable hprint, beq_false_of_ne hspace]
        rw [List.singleton_append, scanDouble_char _ hblank hline hcolumn, if_neg hquote,
          if_neg hslash]
        rw [hrest]
        rfl

end Double

/-! ## Single quotes -/

section Single

variable {p : Place} {c : Char} {cs tail : List Char} {indent : ℕ}

/-- What was read since the last word where only one kind of gap occurs: line breaks, or spaces
within a line. -/
def gapOf (broken : Bool) (gap : List Char) : Gap :=
  if broken then ⟨[], gap, false⟩ else ⟨gap, [], false⟩

/-- Breaks that are no line feeds are kept. -/
private theorem text_gapOf {broken : Bool} {gap : List Char}
    (h : broken = true → ∀ c ∈ gap, c ≠ '\n') : (gapOf broken gap).text = gap := by
  cases broken with
  | false => rfl
  | true =>
    cases gap with
    | nil => rfl
    | cons c gap =>
      have hc := h rfl c List.mem_cons_self
      have hgap : gapOf true (c :: gap) = ⟨[], c :: gap, false⟩ := rfl
      rw [hgap, Gap.text, if_neg Bool.false_ne_true]
      split
      · next hnil => exact absurd hnil (List.cons_ne_nil c gap)
      · next hfeed => exact absurd (List.cons.inj hfeed).1 hc
      · next more _ hfeed => exact absurd (List.cons.inj hfeed).1 hc
      · rfl

private theorem scanSingle_blank {gap : Gap} (h : isBlank c = true) :
    scanSingle gap (p.glyphs (c :: tail)) =
      scanSingle (gap.addBlank c) ((p.next c).glyphs tail) := by
  rw [Place.glyphs_cons, scanSingle.eq_def]
  exact if_pos h

private theorem scanSingle_break {gap : Gap} (hblank : isBlank c = false) (h : isBreak c = true) :
    scanSingle gap (p.glyphs (c :: tail)) =
      scanSingle (gap.addBreak c) ((p.next c).glyphs tail) := by
  rw [Place.glyphs_cons, scanSingle.eq_def]
  exact (if_neg (by simp [hblank])).trans (if_pos h)

/-- A character that is no gap is read with the gap before it; a quote is written twice. -/
private theorem scanSingle_char {gap : Gap} (hblank : isBlank c = false)
    (hbreak : isBreak c = false) (hcolumn : 0 < p.column) :
    let shown := if c = '\x27' then ['\x27', '\x27'] else [c]
    scanSingle gap (p.glyphs (shown ++ tail)) =
      (scanSingle .empty ((p.after shown).glyphs tail)).map fun r ↦
        (gap.text ++ c :: r.1, r.2) := by
  have hmarker : ∀ cs, atMarker (p.glyphs cs) = false := fun cs ↦ atMarker_of_column_pos hcolumn
  split_ifs with hquote
  · have hmarker := hmarker ('\x27' :: '\x27' :: tail)
    simp only [List.cons_append, List.nil_append, Place.glyphs_cons] at hmarker ⊢
    rw [scanSingle.eq_def, hquote]
    simp only [Place.glyph_char, hmarker, show isBlank '\x27' = false from rfl,
      show isBreak '\x27' = false from rfl, Bool.false_eq_true, if_false, if_true]
    rfl
  · have hmarker := hmarker (c :: tail)
    simp only [List.cons_append, List.nil_append, Place.glyphs_cons] at hmarker ⊢
    rw [scanSingle.eq_def]
    simp only [Place.glyph_char, hblank, hbreak, hmarker, hquote, Bool.false_eq_true, if_false]
    rfl

private theorem scanSingle_quote {gap : Gap} (hcolumn : 0 < p.column)
    (h : tail.head? ≠ some '\x27') :
    scanSingle gap (p.glyphs ('\x27' :: tail)) = some (gap.text, (p.next '\x27').glyphs tail) := by
  have hmarker : atMarker (p.glyphs ('\x27' :: tail)) = false := atMarker_of_column_pos hcolumn
  rw [Place.glyphs_cons] at hmarker ⊢
  rw [scanSingle.eq_def]
  simp only [Place.glyph_char, hmarker, show isBlank '\x27' = false from rfl,
      show isBreak '\x27' = false from rfl, Bool.false_eq_true, if_false, if_true]
  cases tail with
  | nil => rfl
  | cons c tail =>
    have hc : c ≠ '\x27' := fun hc ↦ h (by rw [hc]; rfl)
    rw [Place.glyphs_cons]
    exact if_neg hc

private theorem scanSingle_spaces {k : ℕ} {gap : List Char} (hgap : gap ≠ []) :
    scanSingle (gapOf true gap) (p.glyphs (spaces k ++ tail)) =
      scanSingle (gapOf true gap) ((p.after (spaces k)).glyphs tail) := by
  induction k generalizing p with
  | zero => rfl
  | succ k ih =>
    have hcrosses : (gapOf true gap).addBlank ' ' = gapOf true gap := by
      cases gap with
      | nil => exact absurd rfl hgap
      | cons c gap => rfl
    rw [spaces_succ, List.cons_append, scanSingle_blank rfl, hcrosses, ih, Place.after_cons]

/-- What a text in single quotes may be made of: no line feed, which would be folded, and no space
beside a line break, which would be dropped. -/
structure IsSingle (cs : List Char) : Prop where
  printable : ∀ c ∈ cs, isPrintable c = true
  ne_lineFeed : ∀ c ∈ cs, c ≠ '\n'
  noSpaceBefore : hasPair (· == ' ') endsLine cs = false
  noSpaceAfter : hasPair endsLine (· == ' ') cs = false

theorem IsSingle.of_cons (h : IsSingle (c :: cs)) : IsSingle cs where
  printable d hd := h.printable d (List.mem_cons_of_mem _ hd)
  ne_lineFeed d hd := h.ne_lineFeed d (List.mem_cons_of_mem _ hd)
  noSpaceBefore := hasPair_of_cons h.noSpaceBefore
  noSpaceAfter := hasPair_of_cons h.noSpaceAfter

theorem isSingle_of_allowsSingle (h : allowsSingle cs = true) (hfeed : cs.contains '\n' = false) :
    IsSingle cs := by
  simp only [allowsSingle, isClean, Bool.and_eq_true, Bool.not_eq_true'] at h
  obtain ⟨⟨hprint, hbefore⟩, hafter⟩ := h
  refine ⟨List.all_eq_true.mp hprint, ?_, hbefore, hafter⟩
  rintro c hc rfl
  rw [List.contains_iff_mem.mpr hc] at hfeed
  exact Bool.false_ne_true hfeed.symm

/-- Where the reader is in a text in single quotes that goes on with `cs`: after breaks, and no
space follows, or after spaces within a line, and no break follows. -/
structure IsWithin (broken : Bool) (gap cs : List Char) (p : Place) : Prop where
  ofBroken : broken = true → gap ≠ [] ∧ (∀ c ∈ gap, c ≠ '\n') ∧ ∀ c ∈ cs.head?, c ≠ ' '
  ofLine : broken = false → 0 < p.column ∧ (gap ≠ [] → ∀ c ∈ cs.head?, endsLine c = false)

/-- The indentation of a line that goes on with a word. -/
def leadOf (broken : Bool) (indent : ℕ) : List Char := if broken then spaces indent else []

namespace IsWithin

variable {broken : Bool} {gap : List Char}

private theorem text_gapOf (h : IsWithin broken gap cs p) : (gapOf broken gap).text = gap :=
  Yaml.text_gapOf fun hb ↦ (h.ofBroken hb).2.1

private theorem scanSingle_lead (h : IsWithin broken gap cs p) :
    scanSingle (gapOf broken gap) (p.glyphs (leadOf broken indent ++ tail)) =
      scanSingle (gapOf broken gap) ((p.after (leadOf broken indent)).glyphs tail) := by
  cases broken with
  | false => rfl
  | true => exact scanSingle_spaces (h.ofBroken rfl).1

private theorem column_lead (h : IsWithin broken gap cs p) (hindent : 0 < indent) :
    0 < (p.after (leadOf broken indent)).column := by
  cases broken with
  | false => exact (h.ofLine rfl).1
  | true =>
    rw [leadOf, if_pos rfl, column_after_spaces]
    omega

private theorem addBreak (h : IsWithin broken gap (c :: cs) p) (hc : endsLine c = true)
    (hfeed : c ≠ '\n') (hafter : hasPair endsLine (· == ' ') (c :: cs) = false) (q : Place) :
    (gapOf broken gap).addBreak c = gapOf true (gap ++ [c]) ∧
      IsWithin true (gap ++ [c]) cs q := by
  have hnext : ∀ d ∈ cs.head?, d ≠ ' ' := by
    intro d hd
    obtain ⟨ds, rfl⟩ := List.head?_eq_some_iff.mp hd
    have hne := eq_false_of_hasPair (g := (· == ' ')) hafter hc
    exact ne_of_beq_false hne
  cases broken with
  | false =>
    obtain rfl : gap = [] := by
      cases gap with
      | nil => rfl
      | cons d gap =>
        have hline := (h.ofLine rfl).2 (List.cons_ne_nil d gap) c rfl
        exact absurd (hline.symm.trans hc) Bool.false_ne_true
    refine ⟨rfl, fun _ ↦ ⟨List.cons_ne_nil c [], ?_, hnext⟩, fun hb ↦ absurd hb (by decide)⟩
    simpa using hfeed
  | true =>
    obtain ⟨-, hgap, -⟩ := h.ofBroken rfl
    refine ⟨rfl, fun _ ↦ ⟨by simp, fun d hd ↦ ?_, hnext⟩, fun hb ↦ absurd hb (by decide)⟩
    rcases List.mem_append.mp hd with hd | hd
    · exact hgap d hd
    · rw [List.mem_singleton.mp hd]
      exact hfeed

private theorem addSpace (h : IsWithin broken gap (' ' :: cs) p)
    (hbefore : hasPair (· == ' ') endsLine (' ' :: cs) = false) :
    broken = false ∧ IsWithin false (gap ++ [' ']) cs (p.next ' ') := by
  refine ⟨?_, fun hb ↦ absurd hb (by decide), fun _ ↦ ⟨?_, fun _ d hd ↦ ?_⟩⟩
  · cases broken with
    | false => rfl
    | true => exact absurd rfl ((h.ofBroken rfl).2.2 ' ' rfl)
  · rw [Place.column_next rfl]
    omega
  · obtain ⟨ds, rfl⟩ := List.head?_eq_some_iff.mp hd
    exact eq_false_of_hasPair hbefore rfl

/-- After a word the reader is within a line, and no gap has been read. -/
private theorem addWord {ds : List Char} (h : IsWithin broken gap (c :: cs) p)
    (hindent : 0 < indent) (hds : ∀ d ∈ ds, isBreak d = false) :
    IsWithin false [] cs ((p.after (leadOf broken indent)).after ds) := by
  refine ⟨fun hb ↦ absurd hb (by decide), fun _ ↦ ⟨?_, absurd rfl⟩⟩
  have hcolumn := h.column_lead hindent
  rw [Place.column_after hds]
  omega

end IsWithin

private theorem body_break {broken : Bool} (h : endsLine c = true) :
    writeSingle.body indent broken (c :: cs) = c :: writeSingle.body indent true cs :=
  if_pos h

private theorem body_space :
    writeSingle.body indent false (' ' :: cs) = ' ' :: writeSingle.body indent false cs := rfl

private theorem body_word {broken : Bool} (h : ¬endsLine c = true) (hspace : c ≠ ' ') :
    writeSingle.body indent broken (c :: cs) = leadOf broken indent ++
      ((if c = '\x27' then ['\x27', '\x27'] else [c]) ++ writeSingle.body indent false cs) := by
  rw [writeSingle.body, if_neg h, beq_false_of_ne hspace, bne, beq_false_of_ne hspace,
    Bool.not_false, Bool.and_true, Bool.and_false, List.append_assoc]
  rfl

/-- A text is read back from between single quotes, after the gap before it. -/
theorem scanSingle_append {broken : Bool} {gap : List Char} (hindent : 0 < indent)
    (h : IsSingle cs) (hwithin : IsWithin broken gap cs p) (htail : tail.head? ≠ some '\x27') :
    scanSingle (gapOf broken gap) (p.glyphs (writeSingle.body indent broken cs ++ tail)) =
      some (gap ++ cs, (p.after (writeSingle.body indent broken cs)).glyphs tail) := by
  induction cs generalizing p broken gap with
  | nil =>
    have hbody : writeSingle.body indent broken [] = leadOf broken indent ++ ['\x27'] := rfl
    rw [hbody, List.append_assoc, hwithin.scanSingle_lead, List.singleton_append,
      scanSingle_quote (hwithin.column_lead hindent) htail, hwithin.text_gapOf, List.append_nil,
      Place.after_append]
    rfl
  | cons c cs ih =>
    have hprint := h.printable c List.mem_cons_self
    by_cases hline : endsLine c = true
    · have hbreak : isBreak c = true := (endsLine_of_isPrintable hprint).symm.trans hline
      have hblank : isBlank c = false := by
        rw [isBlank_of_isPrintable hprint]
        exact beq_false_of_ne (ne_of_test hline (by decide))
      obtain ⟨hgap, hnext⟩ := hwithin.addBreak hline (h.ne_lineFeed c List.mem_cons_self)
        h.noSpaceAfter (p.next c)
      rw [body_break hline, List.cons_append, scanSingle_break hblank hbreak, hgap,
        ih h.of_cons hnext, Place.after_cons, List.append_assoc]
      rfl
    · have hbreak : isBreak c = false := by
        rw [← endsLine_of_isPrintable hprint, Bool.eq_false_iff.mpr hline]
      by_cases hspace : c = ' '
      · subst hspace
        obtain ⟨rfl, hnext⟩ := hwithin.addSpace h.noSpaceBefore
        have hgap : (gapOf false gap).addBlank ' ' = gapOf false (gap ++ [' ']) := rfl
        rw [body_space, List.cons_append, scanSingle_blank rfl, hgap, ih h.of_cons hnext,
          Place.after_cons, List.append_assoc]
        rfl
      · have hblank : isBlank c = false := by
          rw [isBlank_of_isPrintable hprint, beq_false_of_ne hspace]
        have hword : ∀ d ∈ if c = '\x27' then ['\x27', '\x27'] else [c], isBreak d = false := by
          split_ifs
          · exact forall_mem_of_all (by decide)
          · exact List.forall_mem_singleton.mpr hbreak
        have hrest := ih h.of_cons (hwithin.addWord hindent hword)
        rw [body_word hline hspace, List.append_assoc, hwithin.scanSingle_lead, List.append_assoc,
          scanSingle_char hblank hbreak (hwithin.column_lead hindent), hwithin.text_gapOf,
          Place.after_append, Place.after_append,
          show Gap.empty = gapOf false [] from rfl, hrest]
        rfl

theorem scanSingle_write (tail : List Char) (hindent : 0 < indent) (h : IsSingle cs)
    (hcolumn : 0 < p.column) (htail : tail.head? ≠ some '\x27') :
    scanSingle .empty (p.glyphs (writeSingle.body indent false cs ++ tail)) =
      some (cs, (p.after (writeSingle.body indent false cs)).glyphs tail) := by
  have hwithin : IsWithin false [] cs p :=
    ⟨fun hb ↦ absurd hb (by decide), fun _ ↦ ⟨hcolumn, absurd rfl⟩⟩
  exact scanSingle_append hindent h hwithin htail

theorem isPrintable_of_mem_body {broken : Bool} (h : ∀ c ∈ cs, isPrintable c = true) :
    ∀ c ∈ writeSingle.body indent broken cs, isPrintable c = true := by
  have hspaces : ∀ (b : Bool), ∀ c ∈ (if b then spaces indent else []), isPrintable c = true := by
    intro b c hc
    cases b with
    | false => exact absurd hc List.not_mem_nil
    | true => exact isPrintable_of_mem_spaces c hc
  induction cs generalizing broken with
  | nil => exact List.forall_mem_append.mpr ⟨hspaces _, List.forall_mem_singleton.mpr rfl⟩
  | cons c cs ih =>
    obtain ⟨hc, hcs⟩ := List.forall_mem_cons.mp h
    rw [writeSingle.body]
    by_cases hline : endsLine c = true
    · rw [if_pos hline]
      exact List.forall_mem_cons.mpr ⟨hc, ih hcs⟩
    · rw [if_neg hline]
      refine List.forall_mem_append.mpr ⟨List.forall_mem_append.mpr ⟨hspaces _, ?_⟩, ih hcs⟩
      split_ifs
      · exact forall_mem_of_all (by decide)
      · exact List.forall_mem_singleton.mpr hc

end Single

end AffineQuant.Yaml
