import AffineQuant.Proofs.Yaml.Literal
import AffineQuant.Proofs.Yaml.Quoted

/-!
# The lexer along a record

The lexer finds a key only by the colon after it, ends block collections by columns, and reads
scalars by rules that depend on what is around them. Of all its states only a few occur along a
record, and this file goes through them.

## At rest

Between the lines of a record the lexer is at rest: it is in no flow collection, has no key in the
making, and the next token may begin a key (`Lexer.resting`). Statements about the lexer lead from
rest to rest, with the number of steps that they take, so that they can be composed by rewriting.
What is left of the number of steps plays no part in them and is bounded at the end, by the length
of the text (`Lexer.run_mono`).

A scalar after a colon leads back to rest at the next line, however it is written: some scalars are
read up to the next line, and after others the gap is passed over by the next step, which comes to
the same (`Lexer.run_congr`).

## Keys

From rest a key takes the lexer two steps (`Lexer.run_key`). The scalar is read as one that may be a
key, and in between the lexer is in a state of its own (`Lexer.pending`); the colon makes it a key,
and begins a block mapping if the key stands deeper than the mapping around it. Keys begin with a
small letter and have none but simple characters (`Lexer.isKey`), so nothing in them is taken for
another token.
-/

namespace AffineQuant.Yaml

namespace Lexer

/-- A lexer in no flow collection and with no key in the making. -/
def resting (keyAllowed : Bool) (rest : List Glyph) (indent : ℤ) (outer : List ℤ)
    (tokens : List Token) : Lexer :=
  ⟨rest, indent, outer, keyAllowed, none, [], tokens⟩

variable {p : Place} {c : Char} {cs tail : List Char} {k n : ℕ} {keyAllowed allowed : Bool}
  {g : Glyph} {rest more : List Glyph} {indent : ℤ} {outer : List ℤ} {tokens : List Token}

/-! ## Gaps and indentation -/

theorem skipGap_spaces :
    skipGap false keyAllowed false (p.glyphs (spaces k ++ tail)) =
      skipGap false keyAllowed false ((p.after (spaces k)).glyphs tail) := by
  induction k generalizing p with
  | zero => rfl
  | succ k ih =>
    rw [spaces_succ, List.cons_append, Place.glyphs_cons, skipGap, Place.after_cons, ← ih]
    rfl

theorem skipGap_lineFeed :
    skipGap false keyAllowed false (p.glyphs ('\n' :: tail)) =
      skipGap false true false ((p.next '\n').glyphs tail) := by
  rw [Place.glyphs_cons, skipGap, Place.glyph_char, if_pos (by rfl), Bool.not_false, Bool.or_true]

theorem skipGap_stop (hblank : isBlank c = false) (hbreak : isBreak c = false) (hhash : c ≠ '#')
    (hmark : c = byteOrderMark → 0 < p.column) :
    skipGap false keyAllowed false (p.glyphs (c :: tail)) = (keyAllowed, p.glyphs (c :: tail)) := by
  have hne : ∀ d, isBlank d = true → c ≠ d := fun d hd ↦ (ne_of_test hd hblank).symm
  have hplace : ¬(c = byteOrderMark ∧ p.column = 0) := fun h ↦ by
    have := hmark h.1
    omega
  have hskip : ¬(c = ' ' ∨ (c = '\t' ∧ (false ∨ !keyAllowed))) := by
    rintro (h | ⟨h, -⟩)
    · exact hne _ rfl h
    · exact hne _ rfl h
  rw [Place.glyphs_cons, skipGap, Place.glyph_char, Place.glyph_column, if_neg (by simp [hbreak]),
    if_neg Bool.false_ne_true, if_neg hplace, if_neg hskip, if_neg hhash]

/-- No collection ends at a column that is not less than that of the innermost one. -/
theorem closing_of_le {column : ℤ} (h : indent ≤ column) :
    closing column indent outer = (0, indent, outer) := by
  cases outer with
  | nil => rfl
  | cons i outer => exact if_neg (Int.not_lt.mpr h)

/-! ## Steps -/

theorem run_nil {l : Lexer} (h : skipGap l.inFlow l.keyAllowed false l.rest = (allowed, [])) :
    run (n + 1) l =
      (unroll (-1) { l with keyAllowed := allowed, rest := [] }).dropKey.map fun l ↦
        l.tokens.reverse := by
  rw [run, h]

theorem run_cons {l : Lexer}
    (h : skipGap l.inFlow l.keyAllowed false l.rest = (allowed, g :: rest)) :
    run (n + 1) l =
      ((unroll g.column { l with keyAllowed := allowed, rest := g :: rest }).next g rest).bind
        (run n) := by
  rw [run, h]

theorem run_mono {m : ℕ} {l : Lexer} {ts : List Token} (h : run n l = some ts) (hnm : n ≤ m) :
    run m l = some ts := by
  induction n generalizing m l with
  | zero => exact absurd h (by simp [run])
  | succ n ih =>
    obtain ⟨m, rfl⟩ := Nat.exists_eq_add_one.mpr (Nat.lt_of_lt_of_le (Nat.succ_pos n) hnm)
    rcases hs : skipGap l.inFlow l.keyAllowed false l.rest with ⟨allowed, rest⟩
    cases rest with
    | nil => rwa [run_nil hs] at h ⊢
    | cons g rest =>
      rw [run_cons hs] at h ⊢
      obtain ⟨l', hl', hrun⟩ := Option.bind_eq_some_iff.mp h
      exact Option.bind_eq_some_iff.mpr ⟨l', hl', ih hrun (Nat.le_of_succ_le_succ hnm)⟩

/-- What is passed over before the next token makes no difference. -/
theorem run_congr (h : skipGap false keyAllowed false rest = skipGap false allowed false more) :
    run n (resting keyAllowed rest indent outer tokens) =
      run n (resting allowed more indent outer tokens) := by
  cases n with
  | zero => rfl
  | succ n =>
    rcases hs : skipGap false keyAllowed false rest with ⟨a, left⟩
    have hs' := h.symm.trans hs
    cases left with
    | nil => rw [run_nil (l := resting ..) hs, run_nil (l := resting ..) hs']; rfl
    | cons g left => rw [run_cons (l := resting ..) hs, run_cons (l := resting ..) hs']; rfl

theorem run_resting (hskip : skipGap false keyAllowed false rest = (allowed, g :: more))
    (hindent : indent ≤ g.column) :
    run (n + 1) (resting keyAllowed rest indent outer tokens) =
      ((resting allowed (g :: more) indent outer tokens).next g more).bind (run n) := by
  rw [run_cons (l := resting ..) hskip]
  simp only [unroll, resting, inFlow, closing_of_le hindent]
  rfl

private theorem run_unroll {i : ℤ} {is : List ℤ}
    (hskip : skipGap false keyAllowed false rest = (allowed, g :: more))
    (hclosing : closing g.column indent outer = (k, i, is)) (hi : i ≤ g.column) :
    run (n + 1) (resting keyAllowed rest indent outer tokens) =
      run (n + 1) (resting keyAllowed rest i is (List.replicate k .blockEnd ++ tokens)) := by
  rw [run_resting hskip hi, run_cons (l := resting ..) hskip]
  simp only [unroll, resting, inFlow, hclosing]
  rfl

theorem run_end {i : ℤ} {is : List ℤ} (hclosing : closing (-1) indent outer = (k, i, is)) :
    run (n + 1) (resting keyAllowed [] indent outer tokens) =
      some (tokens.reverse ++ List.replicate k .blockEnd) := by
  rw [run_nil (l := resting ..) rfl]
  simp [unroll, resting, inFlow, hclosing, dropKey]

/-! ## Plain scalars -/

private theorem nextIn_of_atGap (h : atGap rest = false) : nextIn [' ', '\t'] rest = false := by
  cases rest with
  | nil => rfl
  | cons g rest =>
    simp only [atGap, isBlank, Bool.or_eq_false_iff] at h
    simp [nextIn, ne_of_beq_false h.1.1, ne_of_beq_false h.1.2]

theorem next_eq_readPlain {l : Lexer} (hflow : l.inFlow = false)
    (hdash : afterMarker? '-' (g :: rest) = none) (hdot : afterMarker? '.' (g :: rest) = none)
    (hblank : isBlank g.char = false) (hbreak : isBreak g.char = false)
    (hbegins : indicators.contains g.char = false ∨
      (g.char = '-' ∨ g.char = '?' ∨ g.char = ':') ∧ atGap rest = false) :
    l.next g rest = l.readPlain g rest := by
  have hne : ∀ d, indicators.contains d = true ∧ d ≠ '-' ∧ d ≠ '?' ∧ d ≠ ':' → g.char ≠ d := by
    rintro d ⟨hd, hdash, hquestion, hcolon⟩ rfl
    rcases hbegins with hbegins | ⟨h | h | h, -⟩
    · exact Bool.false_ne_true (hbegins.symm.trans hd)
    · exact hdash h
    · exact hquestion h
    · exact hcolon h
  have hnext : next g rest l =
      if g.char = '-' ∧ atGap rest then l.readItem g rest
      else if g.char = '?' ∧ (l.inFlow ∨ atGap rest) then l.readKey g rest
      else if g.char = ':' ∧ (l.inFlow ∨ atGap rest) then l.readValue g rest
      else if g.char = '|' ∧ !l.inFlow then l.readBlock true rest
      else if g.char = '>' ∧ !l.inFlow then l.readBlock false rest
      else if beginsPlain l.inFlow g.char rest then l.readPlain g rest
      else none := by
    rw [next, if_neg (fun h ↦ hne '%' (by decide) h.2)]
    simp only [hdash, hdot, Option.isSome_none, Bool.false_eq_true, if_false]
    split
    all_goals first
      | rfl
      | (next h => exact absurd h (hne _ (by decide)))
  have hplain : beginsPlain l.inFlow g.char rest = true := by
    rw [beginsPlain, hblank, hbreak, hflow]
    rcases hbegins with hbegins | ⟨h | h | h, hgap⟩
    · rw [hbegins]
      rfl
    · simp [h, nextIn_of_atGap hgap]
    · simp [h, hgap]
    · simp [h, hgap]
  have hgap : ∀ d, (d = '-' ∨ d = '?' ∨ d = ':') →
      ¬(g.char = d ∧ (l.inFlow = true ∨ atGap rest = true)) := by
    rintro d hd ⟨rfl, h⟩
    rcases hbegins with hbegins | ⟨-, hbegins⟩
    · exact absurd hbegins (by rcases hd with h | h | h <;> rw [h] <;> decide)
    · simp [hflow, hbegins] at h
  rw [hnext, if_neg fun h ↦ hgap '-' (by simp) ⟨h.1, .inr h.2⟩, if_neg (hgap '?' (by simp)),
    if_neg (hgap ':' (by simp)),
    if_neg fun h ↦ hne '|' (by decide) h.1,
    if_neg fun h ↦ hne '>' (by decide) h.1, if_pos hplain]

/-! ## Keys -/

/-- A text that may be a key: simple characters, of which the first is a small letter, within
the length of a key. -/
def isKey (cs : List Char) : Bool :=
  cs.all isSimple && cs.head?.any Char.isLower && decide (4 * cs.length ≤ keyLimit)

theorem isSimple_of_isKey (h : isKey cs = true) : ∀ c ∈ cs, isSimple c = true := by
  simp only [isKey, Bool.and_eq_true] at h
  exact List.all_eq_true.mp h.1.1

theorem isBreak_of_isKey (h : isKey cs = true) : ∀ c ∈ cs, isBreak c = false := fun c hc ↦
  (isGap_eq_false (isGap_of_isSimple (isSimple_of_isKey h c hc))).2

/-- The first character of a key, or the end of the text. -/
def BeginsKey (cs : List Char) : Prop := ∀ c ∈ cs.head?, c.isLower = true

theorem of_isLower (h : c.isLower = true) :
    isBlank c = false ∧ isBreak c = false ∧ indicators.contains c = false := by
  have hne : ∀ d, d.isLower = false → (c == d) = false := fun d hd ↦
    beq_false_of_ne (ne_of_test h hd)
  refine ⟨?_, ?_, ?_⟩
  · rw [isBlank, hne _ (by decide), hne _ (by decide), Bool.or_false]
  · rw [isBreak, hne _ (by decide), hne _ (by decide), hne _ (by decide)]
    rfl
  · have hindicator : ∀ d ∈ indicators, d.isLower = false := forall_mem_of_all (by decide)
    exact Bool.eq_false_iff.mpr fun hin ↦
      ne_of_test h (hindicator c (List.contains_iff_mem.mp hin)) rfl

theorem BeginsKey.beginsLine (h : BeginsKey tail) : BeginsLine tail := fun c hc ↦
  ⟨(of_isLower (h c hc)).1, (of_isLower (h c hc)).2.1⟩

theorem skipGap_beginsKey (h : BeginsKey tail) :
    skipGap false keyAllowed false (p.glyphs tail) = (keyAllowed, p.glyphs tail) := by
  cases tail with
  | nil => rfl
  | cons c tail =>
    have hc : c.isLower = true := h c rfl
    obtain ⟨hblank, hbreak, -⟩ := of_isLower hc
    exact skipGap_stop hblank hbreak (ne_of_test hc (by decide))
      fun hmark ↦ absurd hmark (ne_of_test hc (by decide))

/-- Collections that are deeper than the next key end before it. -/
theorem run_closing {i : ℤ} {is : List ℤ} (h : BeginsKey tail) (hne : tail ≠ [])
    (hclosing : closing p.column indent outer = (k, i, is)) (hi : i ≤ p.column) :
    run (n + 1) (resting true (p.glyphs tail) indent outer tokens) =
      run (n + 1) (resting true (p.glyphs tail) i is
        (List.replicate k .blockEnd ++ tokens)) := by
  obtain ⟨c, cs, rfl⟩ := List.exists_cons_of_ne_nil hne
  have hskip : skipGap false true false (p.glyphs (c :: cs)) =
      (true, p.glyph c :: (p.next c).glyphs cs) := by
    rw [skipGap_beginsKey h, Place.glyphs_cons]
  exact run_unroll hskip hclosing hi

/-- What a key leaves behind until its colon is read. -/
def pending (p : Place) (cs : List Char) (rest : List Glyph) (indent : ℤ) (outer : List ℤ)
    (tokens : List Token) : Lexer :=
  ⟨rest, indent, outer, false, some ⟨tokens.length, p.line, p.column, p.offset,
    decide (indent = p.column)⟩, [], .scalar .plain cs :: tokens⟩

private theorem readPlain_key {l : Lexer}
    (hl : l = resting true (p.glyphs (c :: cs)) indent outer tokens) {text : List Char}
    (hscan : scanPlain false (indent + 1) .empty (p.glyphs (c :: cs)) =
      some (text, false, rest)) :
    l.readPlain (p.glyph c) ((p.next c).glyphs cs) =
      some (pending p text rest indent outer tokens) := by
  rw [Place.glyphs_cons] at hscan
  simp [hl, readPlain, saveKey, dropKey, resting, inFlow, hscan, pending, emit]

/-- The colon makes a key of the scalar before it, and begins a mapping if the key stands deeper
than the one around it. -/
private theorem readValue_pending (cs : List Char) (rest more : List Glyph) (outer : List ℤ)
    (tokens : List Token) (hline : g.line = p.line)
    (hoffset : g.offset ≤ p.offset + keyLimit) (hindent : indent ≤ p.column) :
    (pending p cs more indent outer tokens).readValue g rest =
      some (resting false rest p.column (if indent < p.column then indent :: outer else outer)
        (.value :: .scalar .plain cs :: .key ::
          if indent < p.column then .blockMapping :: tokens else tokens)) := by
  have hkey : ¬(p.line < g.line ∨ p.offset + keyLimit < g.offset) := by omega
  have hlast : tokens.length + 1 - tokens.length = 1 := by omega
  have hlastTwo : tokens.length + 1 + 1 - tokens.length = 2 := by omega
  simp only [readValue, keyBefore, pending, if_neg hkey, Option.bind_eq_bind, Option.bind_some,
    emitAt, roll, inFlow, List.length_cons, hlast]
  by_cases hdeeper : indent < p.column
  · rw [if_pos hdeeper, if_pos hdeeper, if_neg (by simpa using hdeeper)]
    simp [emit, resting, hlastTwo]
  · obtain rfl : indent = p.column := by omega
    simp [emit, resting]

private theorem next_colon {l : Lexer} (hflow : l.inFlow = false)
    (hgap : atGap ((p.next ':').glyphs tail) = true) :
    l.next (p.glyph ':') ((p.next ':').glyphs tail) =
      l.readValue (p.glyph ':') ((p.next ':').glyphs tail) := by
  have hmarker : ∀ m, m ≠ ':' → afterMarker? m (p.glyph ':' :: (p.next ':').glyphs tail) = none :=
    fun m hm ↦ afterMarker?_eq_none fun g hg ↦ .inr (by
      obtain rfl : p.glyph ':' = g := by simpa using hg
      exact hm.symm)
  simp [next, hmarker, hflow, hgap]

private theorem run_pending {q : Place} (hline : q.line = p.line)
    (hcolumn : p.column ≤ q.column) (hoffset : q.offset ≤ p.offset + keyLimit)
    (hgap : atGap ((q.next ':').glyphs tail) = true) (hindent : indent ≤ p.column) :
    run (n + 1) (pending p cs (q.glyphs (':' :: tail)) indent outer tokens) =
      run n (resting false ((q.next ':').glyphs tail) p.column
        (if indent < p.column then indent :: outer else outer)
        (.value :: .scalar .plain cs :: .key ::
          if indent < p.column then .blockMapping :: tokens else tokens)) := by
  have hcolon : skipGap false false false (q.glyphs (':' :: tail)) =
      (false, q.glyph ':' :: (q.next ':').glyphs tail) := by
    rw [skipGap_stop rfl rfl (by decide) (fun h ↦ absurd h (by decide)), Place.glyphs_cons]
  have hunroll : unroll q.column (pending p cs (q.glyphs (':' :: tail)) indent outer tokens) =
      pending p cs (q.glyphs (':' :: tail)) indent outer tokens := by
    simp only [unroll, pending, inFlow, closing_of_le (show indent ≤ (q.column : ℤ) by omega)]
    rfl
  have hread := readValue_pending (g := q.glyph ':') cs ((q.next ':').glyphs tail)
    (q.glyphs (':' :: tail)) outer tokens hline hoffset hindent
  rw [← next_colon rfl hgap, ← hunroll] at hread
  have hstep := run_cons (n := n)
    (l := pending p cs (q.glyphs (':' :: tail)) indent outer tokens) hcolon
  rw [← Place.glyphs_cons] at hstep
  exact hstep.trans (congrArg (fun l ↦ l.bind (run n)) hread)

/-- **A key is read in two steps.** -/
theorem run_key (hkey : isKey cs = true)
    (hgap : atGap (((p.after cs).next ':').glyphs tail) = true) (hindent : indent ≤ p.column) :
    run (n + 2) (resting true (p.glyphs (cs ++ ':' :: tail)) indent outer tokens) =
      run n (resting false (((p.after cs).next ':').glyphs tail) p.column
        (if indent < p.column then indent :: outer else outer)
        (.value :: .scalar .plain cs :: .key ::
          if indent < p.column then .blockMapping :: tokens else tokens)) := by
  have hsimple := isSimple_of_isKey hkey
  simp only [isKey, Bool.and_eq_true, decide_eq_true_eq] at hkey
  obtain ⟨⟨-, hfirst⟩, hlength⟩ := hkey
  obtain ⟨c, ds, rfl⟩ : ∃ c ds, cs = c :: ds := by
    cases cs with
    | nil => exact absurd hfirst (by decide)
    | cons c ds => exact ⟨c, ds, rfl⟩
  have hc : c.isLower = true := hfirst
  obtain ⟨hblank, hbreak, hindicator⟩ := of_isLower hc
  have hplain : IsPlain (c :: ds) := isPlain_of_isSimple hsimple (List.cons_ne_nil c ds) fun h ↦
    ne_of_test hc (show Char.isLower '-' = false by decide) (List.cons.inj h).1
  have hmarker : ∀ m, m.isLower = false →
      afterMarker? m (p.glyph c :: (p.next c).glyphs (ds ++ ':' :: tail)) = none := fun m hm ↦
    afterMarker?_eq_none fun g hg ↦ .inr (by
      obtain rfl : p.glyph c = g := by simpa using hg
      exact ne_of_test hc hm)
  -- The scalar, which may be a key.
  have hscan : scanPlain false (indent + 1) .empty (p.glyphs (c :: (ds ++ ':' :: tail))) =
      some (c :: ds, false, (p.after (c :: ds)).glyphs (':' :: tail)) :=
    scanPlain_key hplain.toIsPlainBody (List.cons_ne_nil c ds) (by omega) hgap
  have hskip : skipGap false true false (p.glyphs (c :: (ds ++ ':' :: tail))) =
      (true, p.glyph c :: (p.next c).glyphs (ds ++ ':' :: tail)) := by
    rw [skipGap_beginsKey fun d hd ↦ by rwa [← Option.some_inj.mp hd], Place.glyphs_cons]
  have hplainNext := next_eq_readPlain (l := resting true (p.glyphs (c :: (ds ++ ':' :: tail)))
    indent outer tokens) rfl (hmarker '-' (by decide)) (hmarker '.' (by decide)) hblank hbreak
    (.inl hindicator)
  rw [List.cons_append, run_resting hskip hindent, ← Place.glyphs_cons, hplainNext,
    readPlain_key rfl hscan, Option.bind_some]
  -- Its colon.
  have hcolumn : (p.after (c :: ds)).column = p.column + (c :: ds).length :=
    Place.column_after hplain.oneLine
  have hoffset : (p.after (c :: ds)).offset ≤ p.offset + keyLimit :=
    Nat.le_trans (Place.offset_after_le hplain.oneLine) (Nat.add_le_add_left hlength _)
  exact run_pending (Place.line_after hplain.oneLine) (by omega) hoffset hgap hindent

end Lexer

end AffineQuant.Yaml
