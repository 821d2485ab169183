import AffineQuant.Proofs.Yaml.Place
import AffineQuant.Yaml.Token.Lexer

/-!
# Plain scalars as texts

A plain scalar has no mark at its end. It ends where its text could not go on: at a colon before a
gap, or across a line break, at a line that is not indented enough. So a statement about reading it
is also one about what stands after it.

## What may stand without quotes

`IsPlain` collects what keeps a scalar from ending earlier, and from being taken for another token
at its first character. The texts that the writer leaves without quotes are of this kind
(`isPlain_of_allowsPlain`), and so are keys and numbers, which have no character that means
anything (`isPlain_of_isSimple`). `IsPlainBody` leaves out the condition on the first character. It
is what is preserved when a character is taken off the front, and the induction runs on it.

## The reader

Between words the reader keeps the spaces that it has seen, since it does not know yet whether they
belong to the scalar. The induction is therefore on the text with a gap in front of it
(`scanPlain_append`), and it ends in the middle of the line; the two ways in which a scalar can end
there are added to it afterwards, the colon of a key (`scanPlain_key`) and the next line
(`scanPlain_value`).
-/

namespace AffineQuant.Yaml

/-- What a plain scalar in one line may be made of. -/
structure IsPlainBody (cs : List Char) : Prop where
  oneLine : ∀ c ∈ cs, isBreak c = false
  noTab : ∀ c ∈ cs, c ≠ '\t'
  getLast_ne : cs.getLast? ≠ some ' '
  noComment : hasPair isGap (· == '#') cs = false
  noValue : hasPair (· == ':') isGap (cs ++ [' ']) = false

/-- A text that may stand as a plain scalar in one line of a block collection. -/
structure IsPlain (cs : List Char) : Prop extends IsPlainBody cs where
  /-- The first character is neither a space nor an indicator, unless it is one of the three that
  indicate something before a gap only, and no gap follows. -/
  begins : ∃ c rest, cs = c :: rest ∧ c ≠ ' ' ∧
    (Lexer.indicators.contains c = false ∨
      (c = '-' ∨ c = '?' ∨ c = ':') ∧ ∃ d more, rest = d :: more ∧ isGap d = false)

theorem isGap_eq_false {c : Char} (h : isGap c = false) :
    isBlank c = false ∧ isBreak c = false := by
  simp only [isGap, endsLine, Bool.or_eq_false_iff] at h
  exact ⟨h.1.1, h.1.2.1.1⟩

theorem isBlank_eq_false {c : Char} (hspace : c ≠ ' ') (htab : c ≠ '\t') : isBlank c = false := by
  rw [isBlank, beq_false_of_ne hspace, beq_false_of_ne htab]
  rfl

namespace IsPlainBody

variable {c d : Char} {cs : List Char}

theorem tail (h : IsPlainBody (c :: cs)) (hne : cs ≠ []) : IsPlainBody cs where
  oneLine d hd := h.oneLine d (List.mem_cons_of_mem _ hd)
  noTab d hd := h.noTab d (List.mem_cons_of_mem _ hd)
  getLast_ne hlast := h.getLast_ne (by rw [List.getLast?_cons_of_ne_nil hne, hlast])
  noComment := hasPair_of_cons h.noComment
  noValue := hasPair_of_cons h.noValue

theorem exists_of_colon (h : IsPlainBody (':' :: cs)) :
    ∃ d more, cs = d :: more ∧ isGap d = false := by
  have hpair := h.noValue
  cases cs with
  | nil => exact absurd hpair (by decide)
  | cons d more => exact ⟨d, more, rfl, eq_false_of_hasPair hpair rfl⟩

end IsPlainBody

/-! ## Texts without quotes -/

private theorem exists_of_gap {cs : List Char} (h : cs.head?.all isGap = false) :
    ∃ d more, cs = d :: more ∧ isGap d = false := by
  cases cs with
  | nil => exact absurd h (by decide)
  | cons d more => exact ⟨d, more, rfl, h⟩

theorem isPlain_of_allowsPlain {cs : List Char} (hne : cs ≠ []) (h : allowsPlain cs = true) :
    IsPlain cs := by
  obtain ⟨c, rest, rfl⟩ := List.exists_cons_of_ne_nil hne
  simp only [allowsPlain, isClean, Bool.and_eq_true, Bool.not_eq_true', bne_iff_ne,
    hasIndicator, Bool.or_eq_false_iff] at h
  obtain ⟨⟨⟨⟨⟨hprint, -⟩, hline⟩, hfirst⟩, hlast⟩, ⟨⟨⟨⟨-, hhead⟩, hdash⟩, hcolon⟩, hhash⟩⟩ := h
  have hbreak : ∀ d ∈ c :: rest, isBreak d = false := by
    intro d hd
    rw [← endsLine_of_isPrintable (List.all_eq_true.mp hprint d hd)]
    exact Bool.eq_false_iff.mpr (List.any_eq_false.mp hline d hd)
  have hbody : IsPlainBody (c :: rest) :=
    { oneLine := hbreak
      noTab := fun d hd ↦ ne_of_test (List.all_eq_true.mp hprint d hd) (by decide)
      getLast_ne := hlast
      noComment := hhash
      noValue := hcolon }
  refine ⟨hbody, c, rest, rfl, fun hc ↦ hfirst (by rw [hc]; rfl), ?_⟩
  -- Of the indicators only these three may begin a text without quotes.
  have hindicator : ∀ d ∈ Lexer.indicators, d = '-' ∨ d = '?' ∨ d = ':' ∨
      ['#', ',', '[', ']', '\x7b', '\x7d', '&', '*', '!', '|', '>', '\x27', '\x22', '%', '@',
        '\x60'].contains d = true := forall_mem_of_all (by decide)
  rcases Bool.eq_false_or_eq_true (Lexer.indicators.contains c) with hin | hout
  · refine .inr ?_
    rcases hindicator c (List.contains_iff_mem.mp hin) with hc | hc | hc | hc
    · exact ⟨.inl hc, exists_of_gap (by rw [hc] at hdash; exact hdash)⟩
    · exact ⟨.inr (.inl hc), exists_of_gap (by rw [hc] at hdash; exact hdash)⟩
    · subst hc
      exact ⟨.inr (.inr rfl), hbody.exists_of_colon⟩
    · exact absurd (hhead.symm.trans hc) Bool.false_ne_true
  · exact .inl hout

/-- The characters that have no meaning in YAML beside other characters. -/
def isSimple (c : Char) : Bool := isWord c || c == '.'

theorem isGap_of_isSimple {c : Char} (h : isSimple c = true) : isGap c = false := by
  have hne : ∀ d, isSimple d = false → (c == d) = false := fun d hd ↦
    beq_false_of_ne (ne_of_test h hd)
  simp only [isGap, isBlank, endsLine, isBreak, Bool.or_eq_false_iff]
  refine ⟨⟨⟨?_, ?_⟩, ⟨⟨⟨?_, ?_⟩, ?_⟩, ?_⟩, ?_⟩, ?_⟩ <;> exact hne _ (by decide)

theorem isPlain_of_isSimple {cs : List Char} (h : ∀ c ∈ cs, isSimple c = true) (hne : cs ≠ [])
    (hdash : cs ≠ ['-']) : IsPlain cs := by
  have hbody : IsPlainBody cs :=
    { oneLine := fun c hc ↦ (isGap_eq_false (isGap_of_isSimple (h c hc))).2
      noTab := fun c hc ↦ ne_of_test (h c hc) (by decide)
      getLast_ne := fun hlast ↦
        absurd (h ' ' (List.mem_of_getLast? hlast)) (by decide)
      noComment := hasPair_eq_false fun c hc ↦ isGap_of_isSimple (h c hc)
      noValue := by
        refine hasPair_eq_false fun c hc ↦ beq_false_of_ne ?_
        rcases List.mem_append.mp hc with hc | hc
        · exact ne_of_test (h c hc) (by decide)
        · rw [List.mem_singleton.mp hc]
          decide }
  obtain ⟨c, rest, rfl⟩ := List.exists_cons_of_ne_nil hne
  have hc := h c List.mem_cons_self
  refine ⟨hbody, c, rest, rfl, ne_of_test hc (by decide), ?_⟩
  by_cases hminus : c = '-'
  · obtain ⟨d, more, rfl⟩ : ∃ d more, rest = d :: more :=
      List.exists_cons_of_ne_nil (by rintro rfl; exact hdash (by rw [hminus]))
    exact .inr ⟨.inl hminus, d, more, rfl, isGap_of_isSimple (h d (by simp))⟩
  · refine .inl (Bool.eq_false_iff.mpr fun hin ↦ ?_)
    have hindicator : ∀ d ∈ Lexer.indicators, d = '-' ∨ isSimple d = false :=
      forall_mem_of_all (by decide)
    rcases hindicator c (List.contains_iff_mem.mp hin) with hc' | hc'
    · exact hminus hc'
    · exact ne_of_test hc hc' rfl

/-! ## The reader -/

section Scan

variable {p : Place} {c : Char} {cs gap tail : List Char} {indent : ℤ} {k : ℕ}

private theorem scanPlain_space :
    scanPlain false indent ⟨gap, [], false⟩ (p.glyphs (' ' :: tail)) =
      scanPlain false indent ⟨gap ++ [' '], [], false⟩ ((p.next ' ').glyphs tail) := by
  rw [Place.glyphs_cons, scanPlain, Place.glyph_char, if_pos (by rfl)]
  exact if_neg fun h ↦ absurd h.2.1 (by decide)

/-- A character that is no gap is read with the spaces before it, unless it ends the scalar. -/
private theorem scanPlain_char (hblank : isBlank c = false) (hbreak : isBreak c = false)
    (hcomment : gap ≠ [] → c ≠ '#') (hindent : gap ≠ [] → indent ≤ p.column ∧ 0 < p.column)
    (hvalue : c = ':' → atGap ((p.next c).glyphs tail) = false) :
    scanPlain false indent ⟨gap, [], false⟩ (p.glyphs (c :: tail)) =
      (scanPlain false indent .empty ((p.next c).glyphs tail)).map fun r ↦
        (gap ++ c :: r.1, r.2) := by
  have hstay : ¬(!(Gap.mk gap [] false).isEmpty ∧
      ((!false ∧ (p.column : ℤ) < indent) ∨ atMarker (p.glyphs (c :: tail)) ∨ c = '#')) := by
    rintro ⟨hgap, hends⟩
    have hne : gap ≠ [] := by
      rintro rfl
      exact absurd hgap (by decide)
    rcases hends with ⟨-, hcolumn⟩ | hmarker | hhash
    · exact absurd (hindent hne).1 (Int.not_le.mpr hcolumn)
    · rw [atMarker_of_column_pos (hindent hne).2] at hmarker
      exact Bool.false_ne_true hmarker
    · exact hcomment hne hhash
  have hgo : ¬((c = ':' ∧ atGap ((p.next c).glyphs tail)) ∨
      (false ∧ flowIndicators.contains c)) := by
    rintro (⟨hcolon, hgap⟩ | ⟨hflow, -⟩)
    · rw [hvalue hcolon] at hgap
      exact Bool.false_ne_true hgap
    · exact Bool.false_ne_true hflow
  rw [Place.glyphs_cons] at hstay ⊢
  rw [scanPlain, Place.glyph_char, Place.glyph_column, if_neg (by simp [hblank]),
    if_neg (by simp [hbreak]), if_neg hstay, if_neg (fun h ↦ Bool.false_ne_true h.1), if_neg hgo]
  rfl

/-- The reader gets past the body of a plain scalar, which is text after the spaces before it. -/
theorem scanPlain_append (h : IsPlainBody cs) (hne : cs ≠ [])
    (hcomment : gap ≠ [] → cs.head? ≠ some '#')
    (hindent : gap ≠ [] → indent ≤ p.column ∧ 0 < p.column) (hnext : indent ≤ p.column + 1) :
    scanPlain false indent ⟨gap, [], false⟩ (p.glyphs (cs ++ tail)) =
      (scanPlain false indent .empty ((p.after cs).glyphs tail)).map fun r ↦
        (gap ++ (cs ++ r.1), r.2) := by
  induction cs generalizing p gap with
  | nil => exact absurd rfl hne
  | cons c cs ih =>
    have hbreak := h.oneLine c List.mem_cons_self
    have hcolumn : (p.next c).column = p.column + 1 := Place.column_next hbreak
    rw [List.cons_append, Place.after_cons]
    by_cases hspace : c = ' '
    · subst hspace
      have hcs : cs ≠ [] := by
        rintro rfl
        exact h.getLast_ne rfl
      have hhash : cs.head? ≠ some '#' := by
        intro hhead
        obtain ⟨ds, rfl⟩ := List.head?_eq_some_iff.mp hhead
        exact absurd (eq_false_of_hasPair h.noComment rfl) (by decide)
      rw [scanPlain_space, ih (h.tail hcs) hcs (fun _ ↦ hhash) (fun _ ↦ by omega) (by omega)]
      simp only [List.append_assoc, List.cons_append, List.nil_append]
    · have hblank : isBlank c = false := isBlank_eq_false hspace (h.noTab c List.mem_cons_self)
      have hhash : gap ≠ [] → c ≠ '#' := fun hgap hc ↦ hcomment hgap (by rw [hc]; rfl)
      have hvalue : c = ':' → atGap ((p.next c).glyphs (cs ++ tail)) = false := by
        rintro rfl
        obtain ⟨d, more, rfl, hd⟩ := h.exists_of_colon
        rw [List.cons_append, atGap_glyphs_cons, (isGap_eq_false hd).1, (isGap_eq_false hd).2]
        rfl
      rw [scanPlain_char hblank hbreak hhash hindent hvalue]
      by_cases hcs : cs = []
      · rw [hcs]
        rfl
      · rw [show Gap.empty = ⟨[], [], false⟩ from rfl,
          ih (h.tail hcs) hcs (absurd rfl) (absurd rfl) (by omega), Option.map_map]
        rfl

theorem scanPlain_colon (h : atGap ((p.next ':').glyphs tail) = true) :
    scanPlain false indent .empty (p.glyphs (':' :: tail)) =
      some ([], false, p.glyphs (':' :: tail)) := by
  rw [Place.glyphs_cons, scanPlain, Place.glyph_char, if_neg (by decide), if_neg (by decide),
    if_neg (fun h ↦ absurd h.1 (by decide)), if_neg (fun h ↦ Bool.false_ne_true h.1),
    if_pos (.inl ⟨rfl, h⟩)]
  rfl

/-- What a line may begin with, after its indentation: nothing or a character that is no gap. -/
def BeginsLine (cs : List Char) : Prop := ∀ c ∈ cs.head?, isBlank c = false ∧ isBreak c = false

private theorem scanPlain_crossed (h : BeginsLine tail) (hk : (p.column + k : ℤ) < indent) :
    scanPlain false indent ⟨[], ['\n'], false⟩ (p.glyphs (spaces k ++ tail)) =
      some ([], true, (p.after (spaces k)).glyphs tail) := by
  induction k generalizing p with
  | zero =>
    cases tail with
    | nil => rfl
    | cons c tail =>
      obtain ⟨hblank, hbreak⟩ := h c rfl
      have hcolumn : (p.column : ℤ) < indent := by omega
      rw [spaces, List.replicate_zero, List.nil_append, Place.after_nil, Place.glyphs_cons,
        scanPlain, Place.glyph_char, Place.glyph_column, if_neg (by simp [hblank]),
        if_neg (by simp [hbreak]), if_pos ⟨rfl, .inl ⟨rfl, hcolumn⟩⟩]
      rfl
  | succ k ih =>
    have hcolumn : (p.next ' ').column = p.column + 1 := Place.column_next rfl
    rw [spaces_succ, List.cons_append, Place.glyphs_cons, scanPlain, Place.glyph_char,
      if_pos (by rfl), if_neg (fun h ↦ absurd h.2.1 (by decide)), Place.after_cons]
    exact ih (by omega)

/-- A plain scalar ends with its line if the next line is indented less than it would have to be. -/
theorem scanPlain_lineEnd (h : BeginsLine tail) (hk : (k : ℤ) < indent) :
    scanPlain false indent .empty (p.glyphs ('\n' :: (spaces k ++ tail))) =
      some ([], true, (p.after ('\n' :: spaces k)).glyphs tail) := by
  rw [Place.glyphs_cons, scanPlain, Place.glyph_char, if_neg (by decide), if_pos (by rfl)]
  refine scanPlain_crossed h ?_
  rw [Place.column_next_of_isBreak rfl]
  omega

theorem scanPlain_key (h : IsPlainBody cs) (hne : cs ≠ []) (hindent : indent ≤ p.column + 1)
    (hgap : atGap (((p.after cs).next ':').glyphs tail) = true) :
    scanPlain false indent .empty (p.glyphs (cs ++ ':' :: tail)) =
      some (cs, false, (p.after cs).glyphs (':' :: tail)) := by
  have happend : scanPlain false indent .empty (p.glyphs (cs ++ ':' :: tail)) = _ :=
    scanPlain_append h hne (absurd rfl) (absurd rfl) hindent
  rw [happend, scanPlain_colon hgap, Option.map_some, List.nil_append, List.append_nil]

theorem scanPlain_value (h : IsPlainBody cs) (hne : cs ≠ []) (hindent : indent ≤ p.column + 1)
    (htail : BeginsLine tail) (hk : (k : ℤ) < indent) :
    scanPlain false indent .empty (p.glyphs (cs ++ '\n' :: (spaces k ++ tail))) =
      some (cs, true, (p.after (cs ++ '\n' :: spaces k)).glyphs tail) := by
  have happend : scanPlain false indent .empty
      (p.glyphs (cs ++ '\n' :: (spaces k ++ tail))) = _ :=
    scanPlain_append h hne (absurd rfl) (absurd rfl) hindent
  rw [happend, scanPlain_lineEnd htail hk, Option.map_some, List.nil_append, List.append_nil,
    Place.after_append]

end Scan

end AffineQuant.Yaml
