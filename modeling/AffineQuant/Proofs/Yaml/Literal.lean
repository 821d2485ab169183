import AffineQuant.Proofs.Yaml.Plain
import AffineQuant.Yaml.Token.BlockScalar
import Mathlib.Data.List.Basic

/-!
# Literal blocks as texts

In a literal block the lines of a text stand as they are, each of them indented. What is difficult
about it is not the characters but the white space around them: which breaks at the end belong to
the text, and where the indentation ends.

## Lines

A text is breaks followed by lines, each of them with the breaks after it, and only the last one may
lack a break (`exists_lines`). Breaks in a row are kept with the line before them, because neither
the writer nor the reader treats an empty line as a line of its own: it is not indented.

The writer indents each line and gives the last one a break if it has none (`BlockLine.close`). The
reader takes off the indentation and gives the lines back closed.

## The header

The header tells which breaks at the end are part of the text. It is chosen by the last two
characters, and what it says applied to the breaks that are there gives the breaks of the text, in
each of its three settings (`apply_chompingOf`). It also tells how much the lines are indented where
the first line does not show it. A text of breaks alone has no line at all, and is a case of its own
(`scanBlock_breaks`).

## The end

The indentation of what follows the block is passed over with its last breaks, so the reader stops
right at the next key, and the statements have spaces between the block and the rest.
-/

namespace AffineQuant.Yaml

/-! ## Lines -/

namespace BlockLine

variable {l m : BlockLine} {ls : List BlockLine}

/-- A line that is not empty, and breaks after it. -/
structure IsLine (l : BlockLine) : Prop where
  text_ne_nil : l.text ≠ []
  oneLine : ∀ c ∈ l.text, isBreak c = false
  isBreak : ∀ c ∈ l.breaks, isBreak c = true

/-- Lines of which only the last may have no break after it. -/
inductive IsLines : List BlockLine → Prop
  | nil : IsLines []
  | last {l : BlockLine} (h : l.IsLine) : IsLines [l]
  | cons {l m : BlockLine} {ls : List BlockLine} (h : l.IsLine) (hbreaks : l.breaks ≠ [])
      (hrest : IsLines (m :: ls)) : IsLines (l :: m :: ls)

/-- The text of the lines. -/
def textOf (ls : List BlockLine) : List Char := ls.flatMap fun l ↦ l.text ++ l.breaks

/-- The line with a break after it in any case. -/
def close (l : BlockLine) : BlockLine := ⟨l.text, if l.breaks.isEmpty then ['\n'] else l.breaks⟩

theorem IsLines.of_cons (h : IsLines (l :: ls)) : l.IsLine ∧ IsLines ls := by
  cases h with
  | last h => exact ⟨h, .nil⟩
  | cons h _ hrest => exact ⟨h, hrest⟩

private theorem IsLines.cons_char {c : Char} (hc : Yaml.isBreak c = false)
    (h : IsLines (l :: ls)) : IsLines (⟨c :: l.text, l.breaks⟩ :: ls) := by
  have hline : l.IsLine → IsLine ⟨c :: l.text, l.breaks⟩ := fun hl ↦
    ⟨List.cons_ne_nil _ _, List.forall_mem_cons.mpr ⟨hc, hl.oneLine⟩, hl.isBreak⟩
  cases h with
  | last hl => exact .last (hline hl)
  | cons hl hbreaks hrest => exact .cons (hline hl) hbreaks hrest

theorem exists_lines (cs : List Char) : ∃ lead ls, (∀ c ∈ lead, Yaml.isBreak c = true) ∧
    IsLines ls ∧ cs = lead ++ textOf ls := by
  induction cs with
  | nil => exact ⟨[], [], by simp, .nil, rfl⟩
  | cons c cs ih =>
    obtain ⟨lead, ls, hlead, hls, rfl⟩ := ih
    cases hc : Yaml.isBreak c with
    | true => exact ⟨c :: lead, ls, List.forall_mem_cons.mpr ⟨hc, hlead⟩, hls, rfl⟩
    | false =>
      have hline : IsLine ⟨[c], lead⟩ := ⟨List.cons_ne_nil _ _, by simpa using hc, hlead⟩
      refine ⟨[], ?_⟩
      cases ls with
      | nil => exact ⟨[⟨[c], lead⟩], by simp, .last hline, by simp [textOf]⟩
      | cons l ls =>
        cases lead with
        | nil => exact ⟨⟨c :: l.text, l.breaks⟩ :: ls, by simp, hls.cons_char hc, by simp [textOf]⟩
        | cons b lead =>
          exact ⟨⟨[c], b :: lead⟩ :: l :: ls, by simp, .cons hline (List.cons_ne_nil _ _) hls,
            by simp [textOf]⟩

end BlockLine

open BlockLine

/-! ## The writer -/

section Write

variable {indent : ℕ} {cs bs : List Char} {ls : List BlockLine}

/-- The lines as the writer indents them. -/
def writeLines (indent : ℕ) (ls : List BlockLine) : List Char :=
  ls.flatMap fun l ↦ spaces indent ++ (l.text ++ l.close.breaks)

private theorem length_le_writeLines (ls : List BlockLine) (hindent : 0 < indent) :
    ls.length ≤ (writeLines indent ls).length := by
  induction ls with
  | nil => exact Nat.le_refl 0
  | cons l ls ih =>
    have hspaces : (spaces indent).length = indent := List.length_replicate
    rw [writeLines, List.flatMap_cons, ← writeLines, List.length_append, List.length_append,
      List.length_cons]
    omega

private theorem body_breaks (hbs : ∀ c ∈ bs, isBreak c = true) :
    writeLiteral.body indent true (bs ++ cs) = bs ++ writeLiteral.body indent true cs := by
  induction bs with
  | nil => rfl
  | cons b bs ih =>
    obtain ⟨hb, hbs⟩ := List.forall_mem_cons.mp hbs
    have hline : endsLine b = true := by rw [endsLine, hb, Bool.true_or, Bool.true_or]
    rw [List.cons_append, writeLiteral.body, if_pos hline, ih hbs, List.cons_append]

private theorem body_text {text : List Char} (h : ∀ c ∈ text, endsLine c = false) :
    writeLiteral.body indent false (text ++ cs) = text ++ writeLiteral.body indent false cs := by
  induction text with
  | nil => rfl
  | cons c text ih =>
    obtain ⟨hc, htext⟩ := List.forall_mem_cons.mp h
    rw [List.cons_append, writeLiteral.body, if_neg (by simp [hc]), if_neg (by simp),
      List.nil_append, ih htext, List.cons_append]

/-- A line is indented, and closed where the text ends without a break. -/
private theorem body_line {l : BlockLine} (indent : ℕ) (h : l.IsLine)
    (hprint : ∀ c ∈ l.text, isPrintable c = true) (hends : l.breaks ≠ [] ∨ cs = []) :
    writeLiteral.body indent true (l.text ++ l.breaks ++ cs) =
      spaces indent ++ (l.text ++ l.close.breaks) ++ writeLiteral.body indent true cs := by
  have hline : ∀ c ∈ l.text, endsLine c = false := fun c hc ↦ by
    rw [endsLine_of_isPrintable (hprint c hc), h.oneLine c hc]
  have hrest : writeLiteral.body indent false (l.breaks ++ cs) =
      l.close.breaks ++ writeLiteral.body indent true cs := by
    rw [BlockLine.close]
    cases hb : l.breaks with
    | nil =>
      rw [hends.resolve_left (absurd hb)]
      rfl
    | cons b bs =>
      obtain ⟨hb, hbs⟩ := List.forall_mem_cons.mp (hb ▸ h.isBreak)
      have hline : endsLine b = true := by rw [endsLine, hb, Bool.true_or, Bool.true_or]
      rw [List.cons_append, writeLiteral.body, if_pos hline, body_breaks hbs]
      rfl
  obtain ⟨c, text, htext⟩ := List.exists_cons_of_ne_nil h.text_ne_nil
  rw [htext] at hline ⊢
  obtain ⟨hc, htail⟩ := List.forall_mem_cons.mp hline
  rw [List.append_assoc, List.cons_append, writeLiteral.body, if_neg (by simp [hc]), if_pos rfl,
    body_text htail, hrest]
  simp only [List.append_assoc, List.cons_append]

theorem body_textOf (h : IsLines ls) (hprint : ∀ c ∈ textOf ls, isPrintable c = true) :
    writeLiteral.body indent true (textOf ls) = writeLines indent ls := by
  induction h with
  | nil => rfl
  | @last l h =>
    have htext : ∀ c ∈ l.text, isPrintable c = true := fun c hc ↦
      hprint c (by simp [textOf, hc])
    have hline := body_line indent h htext (.inr rfl)
    simpa [textOf, writeLines, writeLiteral.body] using hline
  | @cons l m ls h hbreaks hrest ih =>
    obtain ⟨hline, hmore⟩ := List.forall_mem_append.mp hprint
    rw [textOf, List.flatMap_cons,
      body_line indent h (List.forall_mem_append.mp hline).1 (.inl hbreaks), ← textOf, ih hmore]
    rfl

theorem body_append (h : IsLines ls) (hbs : ∀ c ∈ bs, isBreak c = true)
    (hprint : ∀ c ∈ textOf ls, isPrintable c = true) :
    writeLiteral.body indent true (bs ++ textOf ls) = bs ++ writeLines indent ls := by
  rw [body_breaks hbs, body_textOf h hprint]

end Write

/-! ## The reader -/

section Scan

variable {p : Place} {indent k : ℕ} {bs tail : List Char} {l : BlockLine} {ls : List BlockLine}

private theorem scanBreaks_spaces (deepest : ℕ) (hk : p.column + k ≤ indent) :
    scanBreaks indent deepest (p.glyphs (spaces k ++ tail)) =
      scanBreaks indent deepest ((p.after (spaces k)).glyphs tail) := by
  induction k generalizing p with
  | zero => rfl
  | succ k ih =>
    have hcolumn : (p.next ' ').column = p.column + 1 := Place.column_next rfl
    have houtside : indent = 0 ∨ p.column < indent := .inr (by omega)
    rw [spaces_succ, List.cons_append, Place.glyphs_cons, scanBreaks]
    exact (if_pos ⟨houtside, rfl⟩).trans (ih (by omega))

private theorem scanBreaks_stop (deepest : ℕ)
    (htail : ∀ c ∈ tail.head?, isBreak c = false ∧ (p.column < indent → isBlank c = false))
    (hindent : 0 < indent) :
    ∃ d, scanBreaks indent deepest (p.glyphs tail) = some ([], d, p.glyphs tail) := by
  cases tail with
  | nil => exact ⟨deepest, rfl⟩
  | cons c tail =>
    obtain ⟨hbreak, hblank⟩ := htail c rfl
    have hin : ∀ d, isBlank d = true →
        ¬((indent = 0 ∨ p.column < indent) ∧ c = d) := by
      rintro d hd ⟨h0 | hlt, rfl⟩
      · omega
      · exact Bool.false_ne_true ((hblank hlt).symm.trans hd)
    refine ⟨max deepest p.column, ?_⟩
    rw [Place.glyphs_cons, scanBreaks]
    exact (if_neg (hin ' ' rfl)).trans ((if_neg (hin '\t' rfl)).trans
      (if_neg (by simp [hbreak])))

private theorem scanBreaks_append (deepest : ℕ) (hbs : ∀ c ∈ bs, isBreak c = true)
    (hcolumn : p.column = 0) (hindent : 0 < indent) (hk : k ≤ indent)
    (htail : ∀ c ∈ tail.head?, isBreak c = false ∧ (k < indent → isBlank c = false)) :
    ∃ d, scanBreaks indent deepest (p.glyphs (bs ++ (spaces k ++ tail))) =
      some (bs, d, (p.after (bs ++ spaces k)).glyphs tail) := by
  induction bs generalizing p deepest with
  | nil =>
    have hstop := scanBreaks_stop (p := p.after (spaces k)) deepest
      (by rwa [column_after_spaces, hcolumn, Nat.zero_add]) hindent
    rwa [List.nil_append, List.nil_append, scanBreaks_spaces deepest (by omega)]
  | cons b bs ih =>
    obtain ⟨hb, hbs⟩ := List.forall_mem_cons.mp hbs
    have hne : ∀ d, isBreak d = false → b ≠ d := fun d hd ↦ ne_of_test hb hd
    obtain ⟨d, hd⟩ := ih (max deepest p.column) hbs (Place.column_next_of_isBreak hb)
    refine ⟨d, ?_⟩
    rw [List.cons_append, Place.glyphs_cons, scanBreaks]
    refine (if_neg fun h ↦ hne ' ' rfl h.2).trans ((if_neg fun h ↦ hne '\t' rfl h.2).trans
      ((if_pos hb).trans ?_))
    rw [Place.glyph_column, hd]
    rfl

/-- While the indentation is unknown, the first line that is not empty shows it. -/
private theorem scanBreaks_unknown {c : Char} (p : Place) (k : ℕ) (tail : List Char)
    (hblank : isBlank c = false) (hbreak : isBreak c = false) :
    scanBreaks 0 0 (p.glyphs (spaces k ++ c :: tail)) =
      some ([], p.column + k, (p.after (spaces k)).glyphs (c :: tail)) := by
  induction k generalizing p with
  | zero =>
    have hne : ∀ d, isBlank d = true → c ≠ d := fun d hd hc ↦ by simp [← hc, hblank] at hd
    rw [spaces, List.replicate_zero, List.nil_append, Place.glyphs_cons, scanBreaks]
    refine (if_neg fun h ↦ hne ' ' rfl h.2).trans ((if_neg fun h ↦ hne '\t' rfl h.2).trans
      ((if_neg (by simp [hbreak])).trans ?_))
    rw [Place.glyph_column, Nat.zero_max, Place.after_nil, Place.glyphs_cons, Nat.add_zero]
  | succ k ih =>
    have hcolumn : (p.next ' ').column = p.column + 1 := Place.column_next rfl
    rw [spaces_succ, List.cons_append, Place.glyphs_cons, scanBreaks, Place.glyph_char]
    refine (if_pos ⟨.inl rfl, rfl⟩).trans ?_
    rw [ih, hcolumn, Place.after_cons]
    congr 3
    omega

private theorem spanChars_line {b : Char} (p : Place) (tail : List Char)
    (h : ∀ c ∈ bs, isBreak c = false) (hb : isBreak b = true) :
    spanChars (fun c ↦ !isBreak c) (p.glyphs (bs ++ b :: tail)) =
      (bs, (p.after bs).glyph b :: ((p.after bs).next b).glyphs tail) := by
  induction bs generalizing p with
  | nil => simp [spanChars, hb]
  | cons c bs ih =>
    obtain ⟨hc, hbs⟩ := List.forall_mem_cons.mp h
    have hrest := ih (p.next c) hbs
    simp only [spanChars, Prod.mk.injEq] at hrest
    simp only [spanChars, List.cons_append, Place.glyphs_cons, Place.after_cons, Prod.mk.injEq]
    rw [List.takeWhile_cons_of_pos (by simp [hc]), List.dropWhile_cons_of_pos (by simp [hc]),
      List.map_cons, hrest.1, hrest.2]
    exact ⟨rfl, rfl⟩

private theorem scanLines_stop {steps : ℕ} (h : p.column ≠ indent) :
    scanLines indent steps (p.glyphs tail) = some ([], p.glyphs tail) := by
  cases steps with
  | zero => rfl
  | succ steps =>
    cases tail with
    | nil => rfl
    | cons c tail =>
      rw [Place.glyphs_cons, scanLines]
      exact if_pos h

private theorem close_breaks (h : l.IsLine) :
    ∃ b bs, l.close.breaks = b :: bs ∧ isBreak b = true ∧ ∀ c ∈ bs, isBreak c = true := by
  rw [BlockLine.close]
  cases hl : l.breaks with
  | nil => exact ⟨'\n', [], rfl, rfl, by simp⟩
  | cons b bs =>
    obtain ⟨hb, hbs⟩ := List.forall_mem_cons.mp (hl ▸ h.isBreak)
    exact ⟨b, bs, rfl, hb, hbs⟩

private theorem column_after_close (h : l.IsLine) :
    (p.after (l.text ++ (l.close.breaks ++ spaces k))).column = k := by
  obtain ⟨b, bs, hbreaks, hb, hbs⟩ := close_breaks h
  have hzero := Place.column_after_of_isBreak hbs
    (Place.column_next_of_isBreak (p := p.after l.text) hb)
  rw [Place.after_append, Place.after_append, hbreaks, Place.after_cons, column_after_spaces,
    hzero, Nat.zero_add]

private theorem scanLines_line {steps : ℕ} (h : l.IsLine) (hcolumn : p.column = indent)
    (hindent : 0 < indent) (hk : k ≤ indent)
    (htail : ∀ c ∈ tail.head?, isBreak c = false ∧ (k < indent → isBlank c = false)) :
    scanLines indent (steps + 1)
        (p.glyphs (l.text ++ (l.close.breaks ++ (spaces k ++ tail)))) =
      (scanLines indent steps
        ((p.after (l.text ++ (l.close.breaks ++ spaces k))).glyphs tail)).map fun r ↦
          (l.close :: r.1, r.2) := by
  obtain ⟨b, bs, hbreaks, hb, hbs⟩ := close_breaks h
  obtain ⟨d, hscan⟩ := scanBreaks_append (p := (p.after l.text).next b) 0 hbs
    (Place.column_next_of_isBreak hb) hindent hk htail
  have hclose : l.close = ⟨l.text, b :: bs⟩ := by
    rw [← hbreaks]
    rfl
  have hspan := spanChars_line p (bs ++ (spaces k ++ tail)) h.oneLine hb
  rw [hclose, Place.after_append, List.cons_append, List.cons_append, Place.after_cons]
  obtain ⟨c, text, htext⟩ := List.exists_cons_of_ne_nil h.text_ne_nil
  rw [htext] at hspan hscan ⊢
  rw [List.cons_append, Place.glyphs_cons] at hspan ⊢
  rw [scanLines, Place.glyph_column, if_neg (not_not_intro hcolumn), hspan]
  simp only [Place.glyph_char, hscan, Option.bind_eq_bind, Option.bind_some]
  cases scanLines indent steps _ <;> rfl

/-- The lines are read back, and the indentation of what follows is passed over. -/
private theorem scanLines_append {steps : ℕ} (h : IsLines (l :: ls))
    (hsteps : ls.length < steps) (hcolumn : p.column = indent) (hk : k < indent)
    (htail : BeginsLine tail) :
    let text := l.text ++ (l.close.breaks ++ (writeLines indent ls ++ spaces k))
    scanLines indent steps (p.glyphs (text ++ tail)) =
      some ((l :: ls).map close, (p.after text).glyphs tail) := by
  obtain ⟨steps, rfl⟩ := Nat.exists_eq_add_one.mpr (Nat.zero_lt_of_lt hsteps)
  obtain ⟨hline, hrest⟩ := h.of_cons
  have hindent := Nat.zero_lt_of_lt hk
  induction ls generalizing l p steps with
  | nil =>
    have hstop : (p.after (l.text ++ (l.close.breaks ++ spaces k))).column ≠ indent := by
      rw [column_after_close hline]
      exact Nat.ne_of_lt hk
    intro text
    rw [show text = l.text ++ (l.close.breaks ++ spaces k) from rfl, List.append_assoc,
      List.append_assoc, scanLines_line hline hcolumn hindent (Nat.le_of_lt hk)
        fun c hc ↦ ⟨(htail c hc).2, fun _ ↦ (htail c hc).1⟩, scanLines_stop hstop]
    rfl
  | cons m ls ih =>
    obtain ⟨hm, hms⟩ := hrest.of_cons
    obtain ⟨steps, rfl⟩ := Nat.exists_eq_add_one.mpr
      (Nat.zero_lt_of_lt (Nat.lt_of_succ_lt_succ hsteps))
    have hmore := ih hrest (column_after_close (p := p) hline) steps
      (Nat.lt_of_succ_lt_succ hsteps) hm hms
    have hhead : ∀ c ∈ (m.text ++ (m.close.breaks ++ (writeLines indent ls ++ spaces k)) ++
        tail).head?, isBreak c = false ∧ (indent < indent → isBlank c = false) := by
      obtain ⟨c, text, htext⟩ := List.exists_cons_of_ne_nil hm.text_ne_nil
      rintro d hd
      obtain rfl : c = d := by simpa [htext] using hd
      exact ⟨hm.oneLine c (by simp [htext]), fun h ↦ absurd h (Nat.lt_irrefl _)⟩
    intro text
    have htext : text = l.text ++ (l.close.breaks ++ spaces indent) ++
        (m.text ++ (m.close.breaks ++ (writeLines indent ls ++ spaces k))) := by
      simp [text, writeLines]
    rw [htext, Place.after_append, List.append_assoc, List.append_assoc, List.append_assoc,
      scanLines_line hline hcolumn hindent (Nat.le_refl _) hhead, hmore]
    rfl

end Scan

/-! ## Breaks at the end -/

section Chomp

variable {cs : List Char} {l : BlockLine} {ls : List BlockLine}

theorem chompingOf_append_text (cs : List Char) {c : Char} (hc : endsLine c = false) :
    chompingOf (cs ++ [c]) = .strip := by
  rw [chompingOf, List.reverse_append, List.reverse_singleton, List.singleton_append]
  cases cs.reverse <;> simp [hc]

theorem chompingOf_append_break (cs : List Char) {c b : Char} (hc : endsLine c = false)
    (hb : endsLine b = true) :
    chompingOf (cs ++ [c, b]) = .clip := by
  simp [chompingOf, hc, hb]

theorem chompingOf_append_breaks (cs : List Char) {a b : Char} (ha : endsLine a = true)
    (hb : endsLine b = true) :
    chompingOf (cs ++ [a, b]) = .keep := by
  simp [chompingOf, ha, hb]

private theorem endsLine_of_isBreak {c : Char} (h : isBreak c = true) : endsLine c = true := by
  rw [endsLine, h, Bool.true_or, Bool.true_or]

private theorem chompingOf_breaks (hne : cs ≠ []) (h : ∀ c ∈ cs, isBreak c = true) :
    chompingOf cs = .keep := by
  have hends : ∀ c ∈ cs, endsLine c = true := fun c hc ↦ endsLine_of_isBreak (h c hc)
  rcases List.eq_nil_or_concat' cs with rfl | ⟨bs, b, rfl⟩
  · exact absurd rfl hne
  rcases List.eq_nil_or_concat' bs with rfl | ⟨as, a, rfl⟩
  · simp [chompingOf, hends b (by simp)]
  · rw [List.append_assoc, List.singleton_append]
    exact chompingOf_append_breaks as (hends a (by simp)) (hends b (by simp))

/-- What is left of the breaks after the last line are the breaks of the text. -/
private theorem apply_chompingOf (cs : List Char) (h : l.IsLine)
    (hprint : ∀ c ∈ l.text, isPrintable c = true) :
    (chompingOf (cs ++ (l.text ++ l.breaks))).apply l.close.breaks = l.breaks := by
  obtain ⟨text, c, htext⟩ := (List.eq_nil_or_concat' l.text).resolve_left h.text_ne_nil
  have hc : endsLine c = false := by
    rw [endsLine_of_isPrintable (hprint c (by simp [htext])), h.oneLine c (by simp [htext])]
  have hends : ∀ b ∈ l.breaks, endsLine b = true := fun b hb ↦ endsLine_of_isBreak (h.isBreak b hb)
  rw [BlockLine.close, htext]
  rcases List.eq_nil_or_concat' l.breaks with hl | ⟨bs, b, hl⟩
  · rw [hl, List.append_nil, ← List.append_assoc, chompingOf_append_text _ hc]
    rfl
  rw [hl] at hends ⊢
  rcases List.eq_nil_or_concat' bs with rfl | ⟨as, a, rfl⟩
  · have hclip := chompingOf_append_break (cs ++ text) hc (hends b (by simp))
    rw [show cs ++ (text ++ [c] ++ ([] ++ [b])) = cs ++ text ++ [c, b] by simp, hclip]
    rfl
  · have hkeep := chompingOf_append_breaks (cs ++ (text ++ [c] ++ as)) (hends a (by simp))
      (hends b (by simp))
    rw [show cs ++ (text ++ [c] ++ (as ++ [a] ++ [b])) = cs ++ (text ++ [c] ++ as) ++ [a, b] by
      simp, hkeep, if_neg (by simp)]
    rfl

/-- Lines that were closed join to the text that they came from. -/
private theorem join_close (cs : List Char) (h : IsLines (l :: ls))
    (hprint : ∀ c ∈ textOf (l :: ls), isPrintable c = true) :
    join true (chompingOf (cs ++ textOf (l :: ls))) ((l :: ls).map close) = textOf (l :: ls) := by
  induction ls generalizing l cs with
  | nil =>
    obtain ⟨hline, -⟩ := h.of_cons
    have hchomp := apply_chompingOf cs hline fun c hc ↦ hprint c (by simp [textOf, hc])
    simp only [textOf, List.flatMap_cons, List.flatMap_nil, List.append_nil, List.map_singleton,
      join] at hchomp ⊢
    rw [hchomp]
    rfl
  | cons m ls ih =>
    obtain ⟨hline, hbreaks, hrest⟩ : l.IsLine ∧ l.breaks ≠ [] ∧ IsLines (m :: ls) := by
      cases h with
      | cons h hbreaks hrest => exact ⟨h, hbreaks, hrest⟩
    obtain ⟨-, hmore⟩ := List.forall_mem_append.mp hprint
    have hclose : l.close = l := by
      rw [close, if_neg (by simpa using hbreaks)]
    have hsep : separator true l m.close = l.breaks := by
      rw [separator]
      split
      · next heq => rw [if_pos (.inl rfl), heq]
      · rfl
    have hcons : textOf (l :: m :: ls) = l.text ++ l.breaks ++ textOf (m :: ls) := rfl
    have hjoin : join true (chompingOf (cs ++ (l.text ++ l.breaks) ++ textOf (m :: ls)))
        ((m :: ls).map close) = textOf (m :: ls) := ih _ hrest hmore
    rw [List.append_assoc, ← hcons] at hjoin
    rw [List.map_cons, List.map_cons, join, hclose, hsep, ← List.map_cons, hjoin, hcons]

end Chomp

/-! ## Blocks -/

section Block

variable {p : Place} {cs tail : List Char}

/-- The first line does not show the indentation. -/
def needsIndent (cs : List Char) : Bool := cs.head?.any fun c ↦ c == ' ' || endsLine c

/-- The header of a block after its bar. -/
def headerOf (indicated : Bool) (chomping : Chomping) : List Char :=
  (if indicated then ['2'] else []) ++
    match chomping with
    | .strip => ['-']
    | .clip => []
    | .keep => ['+']

theorem writeLiteral_eq (indent : ℕ) (cs : List Char) :
    writeLiteral indent cs =
      '|' :: (headerOf (needsIndent cs) (chompingOf cs) ++ '\n' ::
        writeLiteral.body indent true cs) := rfl

theorem scanHeader_headerOf (indicated : Bool) (chomping : Chomping) :
    scanHeader (p.glyphs (headerOf indicated chomping ++ '\n' :: tail)) =
      some (chomping, if indicated then 2 else 0,
        (p.after (headerOf indicated chomping)).glyphs ('\n' :: tail)) := by
  cases indicated <;> cases chomping <;> rfl

theorem afterLine?_lineFeed :
    afterLine? (p.glyphs ('\n' :: tail)) = some ((p.next '\n').glyphs tail) := by
  rw [Place.glyphs_cons]
  rfl

/-- A block is read by its header, the breaks before its first line, and its lines. -/
private theorem scanBlock_headerOf {indicated : Bool} {chomping : Chomping} {column deepest : ℕ}
    {lead : List Char} {lines : List BlockLine} {s s' : List Glyph}
    (hbreaks : scanBreaks (if indicated then column + 2 else 0) 0
      (((p.after (headerOf indicated chomping)).next '\n').glyphs tail) = some (lead, deepest, s))
    (hdeepest : indicated = false → deepest = column + 2)
    (hlines : scanLines (column + 2) s.length s = some (lines, s')) :
    scanBlock true column (p.glyphs (headerOf indicated chomping ++ '\n' :: tail)) =
      if lines.isEmpty then some (if chomping = .keep then lead else [], s')
      else some (lead ++ BlockLine.join true chomping lines, s') := by
  have hgiven : (if (if indicated then 2 else 0) = 0 then 0
      else (max (column : ℤ) 0).toNat + (if indicated then 2 else 0)) =
        if indicated then column + 2 else 0 := by
    cases indicated
    · rfl
    · simp
  have hindent : (if (if indicated then column + 2 else 0) = 0 then
      max deepest (max ((column : ℤ) + 1) 1).toNat else if indicated then column + 2 else 0) =
        column + 2 := by
    cases indicated
    · have := hdeepest rfl
      simp only [Bool.false_eq_true, if_false, if_true]
      omega
    · simp
  simp only [scanBlock, scanHeader_headerOf, afterLine?_lineFeed, Option.bind_eq_bind,
    Option.bind_some, hgiven, hbreaks, hindent, hlines]

private theorem needsIndent_of_isBreak {b : Char} {ds : List Char} (h : isBreak b = true) :
    needsIndent (b :: ds) = true := by
  rw [needsIndent, List.head?_cons, Option.any_some, endsLine_of_isBreak h, Bool.or_true]

/-- The breaks before the first line are read with its indentation, which is known from the header
or shows. -/
private theorem scanBreaks_lead {n : ℕ} {l : BlockLine} {lead : List Char} (hn : 0 < n)
    (hlead : ∀ c ∈ lead, isBreak c = true) (hline : l.IsLine)
    (hprint : ∀ c ∈ l.text, isPrintable c = true) (hcolumn : p.column = 0)
    (ds tail : List Char) :
    ∃ d, scanBreaks (if needsIndent (lead ++ (l.text ++ ds)) then n else 0) 0
        (p.glyphs (lead ++ (spaces n ++ (l.text ++ tail)))) =
        some (lead, d, (p.after (lead ++ spaces n)).glyphs (l.text ++ tail)) ∧
      (needsIndent (lead ++ (l.text ++ ds)) = false → d = n) := by
  obtain ⟨c, text, htext⟩ := List.exists_cons_of_ne_nil hline.text_ne_nil
  have hbreak := hline.oneLine c (by simp [htext])
  cases hneeds : needsIndent (lead ++ (l.text ++ ds)) with
  | true =>
    have hhead : ∀ b ∈ (l.text ++ tail).head?, isBreak b = false ∧ (n < n → isBlank b = false) := by
      intro b hb
      obtain rfl : c = b := by simpa [htext] using hb
      exact ⟨hbreak, fun h ↦ absurd h (Nat.lt_irrefl n)⟩
    obtain ⟨d, hd⟩ := scanBreaks_append 0 hlead hcolumn hn (Nat.le_refl n) hhead
    exact ⟨d, hd, fun h ↦ absurd h (by decide)⟩
  | false =>
    cases lead with
    | cons b lead =>
      rw [List.cons_append, needsIndent_of_isBreak (hlead b List.mem_cons_self)] at hneeds
      exact absurd hneeds (by decide)
    | nil =>
      have hblank : isBlank c = false := by
        simp only [needsIndent, htext, List.nil_append, List.cons_append, List.head?_cons,
          Option.any_some, Bool.or_eq_false_iff] at hneeds
        rw [isBlank_of_isPrintable (hprint c (by simp [htext])), hneeds.1]
      have hshow := scanBreaks_unknown p n (text ++ tail) hblank hbreak
      rw [hcolumn, Nat.zero_add] at hshow
      refine ⟨n, ?_, fun _ ↦ rfl⟩
      simpa [htext] using hshow

theorem isPrintable_writeLiteral {indent : ℕ} (hprint : ∀ c ∈ cs, isPrintable c = true) :
    ∀ c ∈ writeLiteral indent cs, isPrintable c = true := by
  have hbody : ∀ b, ∀ c ∈ writeLiteral.body indent b cs, isPrintable c = true := by
    induction cs with
    | nil =>
      intro b
      cases b with
      | false => exact List.forall_mem_cons.mpr ⟨by decide, by simp⟩
      | true => exact fun c hc ↦ absurd hc List.not_mem_nil
    | cons c cs ih =>
      obtain ⟨hc, hcs⟩ := List.forall_mem_cons.mp hprint
      intro b
      rw [writeLiteral.body]
      split_ifs
      · exact List.forall_mem_cons.mpr ⟨hc, ih hcs true⟩
      · exact List.forall_mem_append.mpr
          ⟨isPrintable_of_mem_spaces, List.forall_mem_cons.mpr ⟨hc, ih hcs false⟩⟩
      · exact List.forall_mem_cons.mpr ⟨hc, ih hcs false⟩
  have hheader : ∀ indicated chomping, ∀ c ∈ headerOf indicated chomping, isPrintable c = true := by
    intro indicated chomping
    cases indicated <;> cases chomping <;> exact forall_mem_of_all (by decide)
  rw [writeLiteral_eq]
  exact List.forall_mem_cons.mpr ⟨by decide, List.forall_mem_append.mpr
    ⟨hheader _ _, List.forall_mem_cons.mpr ⟨by decide, hbody true⟩⟩⟩

theorem column_after_body {indent : ℕ} {broken : Bool} (hprint : ∀ c ∈ cs, isPrintable c = true)
    (hp : broken = true → p.column = 0) :
    (p.after (writeLiteral.body indent broken cs)).column = 0 := by
  induction cs generalizing p broken with
  | nil =>
    cases broken with
    | false => exact Place.column_after_line []
    | true => exact hp rfl
  | cons c cs ih =>
    obtain ⟨hc, hcs⟩ := List.forall_mem_cons.mp hprint
    rw [writeLiteral.body]
    split_ifs with hline hb
    · rw [endsLine_of_isPrintable hc] at hline
      exact ih hcs fun _ ↦ Place.column_next_of_isBreak hline
    · rw [Place.after_append]
      exact ih hcs fun h ↦ absurd h (by decide)
    · exact ih hcs fun h ↦ absurd h (by decide)

private theorem column_after_header (p : Place) (header : List Char) :
    ((p.after header).next '\n').column = 0 :=
  Place.column_next_of_isBreak rfl

private theorem scanBlock_breaks {column k : ℕ} (hk : k ≤ column) (hne : cs ≠ [])
    (hcs : ∀ c ∈ cs, isBreak c = true) (htail : BeginsLine tail) :
    let header := headerOf (needsIndent cs) (chompingOf cs)
    scanBlock true column (p.glyphs (header ++ '\n' :: (cs ++ (spaces k ++ tail)))) =
      some (cs, (((p.after header).next '\n').after (cs ++ spaces k)).glyphs tail) := by
  have hcolumn := column_after_header p (headerOf (needsIndent cs) (chompingOf cs))
  have hneeds : needsIndent cs = true := by
    obtain ⟨b, bs, rfl⟩ := List.exists_cons_of_ne_nil hne
    exact needsIndent_of_isBreak (hcs b List.mem_cons_self)
  obtain ⟨d, hbreaks⟩ := scanBreaks_append (k := k) 0 hcs hcolumn (show 0 < column + 2 by omega)
    (by omega) fun c hc ↦ ⟨(htail c hc).2, fun _ ↦ (htail c hc).1⟩
  rw [show column + 2 = if needsIndent cs then column + 2 else 0 from (if_pos hneeds).symm]
    at hbreaks
  have hstop : (((p.after (headerOf (needsIndent cs) (chompingOf cs))).next '\n').after
      (cs ++ spaces k)).column ≠ column + 2 := by
    rw [Place.after_append, column_after_spaces, Place.column_after_of_isBreak hcs hcolumn]
    omega
  have hblock := scanBlock_headerOf hbreaks
    (fun h ↦ absurd (hneeds.symm.trans h) (by decide)) (scanLines_stop hstop)
  rw [chompingOf_breaks hne hcs] at hblock ⊢
  simpa using hblock

private theorem scanBlock_lines {column k : ℕ} {lead : List Char} {l : BlockLine}
    {ls : List BlockLine} (hk : k ≤ column) (hcs : cs = lead ++ textOf (l :: ls))
    (hlead : ∀ c ∈ lead, isBreak c = true) (hls : IsLines (l :: ls))
    (hprint : ∀ c ∈ textOf (l :: ls), isPrintable c = true) (htail : BeginsLine tail) :
    let header := headerOf (needsIndent cs) (chompingOf cs)
    let body := lead ++ writeLines (column + 2) (l :: ls)
    scanBlock true column (p.glyphs (header ++ '\n' :: (body ++ (spaces k ++ tail)))) =
      some (cs, (((p.after header).next '\n').after (body ++ spaces k)).glyphs tail) := by
  have hpos : 0 < column + 2 := Nat.succ_pos _
  have hcolumn := column_after_header p (headerOf (needsIndent cs) (chompingOf cs))
  obtain ⟨hline, -⟩ := hls.of_cons
  have hcs' : cs = lead ++ (l.text ++ (l.breaks ++ textOf ls)) := by
    rw [hcs, textOf, List.flatMap_cons, List.append_assoc]
    rfl
  obtain ⟨d, hbreaks, hd⟩ := scanBreaks_lead hpos hlead hline
    (fun c hc ↦ hprint c (by simp [textOf, hc])) hcolumn (l.breaks ++ textOf ls)
    (l.close.breaks ++ (writeLines (column + 2) ls ++ (spaces k ++ tail)))
  rw [← hcs'] at hbreaks hd
  set q := ((p.after (headerOf (needsIndent cs) (chompingOf cs))).next '\n').after
    (lead ++ spaces (column + 2)) with hq
  have hstart : q.column = column + 2 := by
    rw [hq, Place.after_append, column_after_spaces, Place.column_after_of_isBreak hlead hcolumn,
      Nat.zero_add]
  have hsteps : ls.length < (q.glyphs (l.text ++ (l.close.breaks ++
      (writeLines (column + 2) ls ++ spaces k)) ++ tail)).length := by
    have hmore := length_le_writeLines ls hpos
    have hfirst := List.length_pos_iff.mpr hline.text_ne_nil
    simp only [Place.length_glyphs, List.length_append]
    omega
  have hlines := scanLines_append hls hsteps hstart (show k < column + 2 by omega) htail
  simp only [List.append_assoc] at hlines
  have hblock := scanBlock_headerOf hbreaks hd hlines
  have hjoin := join_close lead hls hprint
  rw [← hcs] at hjoin
  rw [hjoin, ← hcs] at hblock
  simpa [writeLines, hq] using hblock

/-- A text is read back from its literal block, with the indentation of what follows. -/
theorem scanBlock_write {column k : ℕ} (hk : k ≤ column) (hne : cs ≠ [])
    (hprint : ∀ c ∈ cs, isPrintable c = true) (htail : BeginsLine tail) :
    let text := headerOf (needsIndent cs) (chompingOf cs) ++ '\n' ::
      (writeLiteral.body (column + 2) true cs ++ spaces k)
    scanBlock true column (p.glyphs (text ++ tail)) =
      some (cs, (p.after text).glyphs tail) := by
  obtain ⟨lead, ls, hlead, hls, hcs⟩ := exists_lines cs
  have hlines : ∀ c ∈ textOf ls, isPrintable c = true :=
    (List.forall_mem_append.mp (hcs ▸ hprint)).2
  have hbody : writeLiteral.body (column + 2) true cs = lead ++ writeLines (column + 2) ls := by
    rw [hcs]
    exact body_append hls hlead hlines
  intro text
  simp only [text, hbody, List.append_assoc, List.cons_append, Place.after_append, Place.after_cons]
  cases ls with
  | nil =>
    obtain rfl : cs = lead := hcs.trans (List.append_nil lead)
    have hblock := scanBlock_breaks (p := p) hk hne hlead htail
    simpa [writeLines] using hblock
  | cons l ls =>
    have hblock := scanBlock_lines (p := p) hk hcs hlead hls hlines htail
    simpa using hblock

end Block

end AffineQuant.Yaml
