import AffineQuant.Yaml.Writer
import Mathlib.Data.Int.Notation
import Mathlib.Data.Nat.Notation
import Mathlib.Tactic.SplitIfs

/-!
# Places in a text

A `Place` is where a character stands: the arguments of `placed` as one value. Reading a text moves
the place (`Place.after`), and the glyphs of a text are those of its beginning followed by those of
the rest, from the place that the beginning leads to. This is how the texts of the writer, which
are put together by appending, meet readers that work on glyphs.

## What a place is needed for

The lemmas about the readers of tokens say at which place they stop, and they say it as the place
after what was read. What they need of it is the column, which a text without line breaks moves by
its length and a line break sets to zero. The line and the offset matter in one case only, for
keys, which have to end in the line in which they begin and within a number of octets; for the
offset a bound of four octets a character is enough (`Place.offset_after_le`).

## Printable characters

A text of printable characters is placed as it stands: no character is excluded, and no spelling of
a line break is changed (`glyphs?_of_isPrintable`). Everything the writer writes is printable. For
such characters the several notions of blanks and breaks in the format come to the same, and the
lemmas at the end of the file say which of them coincide.
-/

namespace AffineQuant.Yaml

/-- Where a character stands. -/
structure Place where
  line : ℕ
  column : ℕ
  offset : ℕ

namespace Place

/-- The beginning of a text. -/
def start : Place := ⟨0, 0, 0⟩

def glyph (p : Place) (c : Char) : Glyph := ⟨c, p.line, p.column, p.offset⟩

/-- The glyphs of a text that begins at a place. -/
def glyphs (p : Place) (cs : List Char) : List Glyph := placed p.line p.column p.offset cs

/-- The place after a character. -/
def next (p : Place) (c : Char) : Place :=
  if isBreak c then ⟨p.line + 1, 0, 0⟩ else ⟨p.line, p.column + 1, p.offset + c.utf8Size⟩

/-- The place after a text. -/
def after (p : Place) (cs : List Char) : Place := cs.foldl next p

variable {p : Place} {c : Char} {cs ds : List Char}

@[simp] theorem glyph_char : (p.glyph c).char = c := rfl

@[simp] theorem glyph_column : (p.glyph c).column = p.column := rfl

@[simp] theorem glyph_line : (p.glyph c).line = p.line := rfl

@[simp] theorem glyph_offset : (p.glyph c).offset = p.offset := rfl

@[simp] theorem glyphs_nil : p.glyphs [] = [] := rfl

@[simp] theorem glyphs_cons : p.glyphs (c :: cs) = p.glyph c :: (p.next c).glyphs cs := by
  simp only [glyphs, placed, next, glyph]
  split_ifs <;> rfl

@[simp] theorem after_nil : p.after [] = p := rfl

@[simp] theorem after_cons : p.after (c :: cs) = (p.next c).after cs := rfl

@[simp] theorem after_append : p.after (cs ++ ds) = (p.after cs).after ds :=
  List.foldl_append

@[simp] theorem length_glyphs : (p.glyphs cs).length = cs.length := by
  induction cs generalizing p with
  | nil => rfl
  | cons c cs ih => rw [glyphs_cons, List.length_cons, List.length_cons, ih]

theorem column_next_of_isBreak (h : isBreak c = true) : (p.next c).column = 0 := by
  rw [next, if_pos h]

theorem column_after_line (cs : List Char) : (p.after (cs ++ ['\n'])).column = 0 := by
  rw [after_append, after_cons, after_nil, column_next_of_isBreak (by rfl)]

theorem column_next (h : isBreak c = false) : (p.next c).column = p.column + 1 := by
  rw [next, if_neg (by simp [h])]

theorem line_next (h : isBreak c = false) : (p.next c).line = p.line := by
  rw [next, if_neg (by simp [h])]

theorem column_after (h : ∀ c ∈ cs, isBreak c = false) :
    (p.after cs).column = p.column + cs.length := by
  induction cs generalizing p with
  | nil => rfl
  | cons c cs ih =>
    rw [after_cons, ih fun d hd ↦ h d (List.mem_cons_of_mem _ hd),
      column_next (h c List.mem_cons_self), List.length_cons]
    omega

theorem column_after_of_isBreak (h : ∀ c ∈ cs, isBreak c = true) (hp : p.column = 0) :
    (p.after cs).column = 0 := by
  induction cs generalizing p with
  | nil => exact hp
  | cons c cs ih =>
    obtain ⟨hc, hcs⟩ := List.forall_mem_cons.mp h
    exact ih hcs (column_next_of_isBreak hc)

theorem line_after (h : ∀ c ∈ cs, isBreak c = false) : (p.after cs).line = p.line := by
  induction cs generalizing p with
  | nil => rfl
  | cons c cs ih =>
    rw [after_cons, ih fun d hd ↦ h d (List.mem_cons_of_mem _ hd),
      line_next (h c List.mem_cons_self)]

/-- A character takes up four octets at most. -/
theorem offset_after_le (h : ∀ c ∈ cs, isBreak c = false) :
    (p.after cs).offset ≤ p.offset + 4 * cs.length := by
  induction cs generalizing p with
  | nil => exact Nat.le_refl _
  | cons c cs ih =>
    have hnext : (p.next c).offset ≤ p.offset + 4 := by
      rw [next, if_neg (by simp [h c List.mem_cons_self])]
      exact Nat.add_le_add_left c.utf8Size_le_four _
    have hrest := ih (p := p.next c) fun d hd ↦ h d (List.mem_cons_of_mem _ hd)
    rw [after_cons, List.length_cons]
    omega

end Place

/-! ## Fixed texts -/

/-- What is said of all characters of a fixed text is checked one by one. -/
theorem forall_mem_of_all {q : Char → Prop} [DecidablePred q] {cs : List Char}
    (h : cs.all (fun c ↦ decide (q c)) = true) : ∀ c ∈ cs, q c :=
  fun c hc ↦ of_decide_eq_true (List.all_eq_true.mp h c hc)

/-! ## Spaces -/

section Spaces

variable {p : Place} {k : ℕ}

theorem eq_space_of_mem {c : Char} (h : c ∈ spaces k) : c = ' ' := List.eq_of_mem_replicate h

theorem isBreak_of_mem_spaces : ∀ c ∈ spaces k, isBreak c = false := by
  intro c hc
  rw [eq_space_of_mem hc]
  rfl

theorem isPrintable_of_mem_spaces : ∀ c ∈ spaces k, isPrintable c = true := by
  intro c hc
  rw [eq_space_of_mem hc]
  rfl

theorem column_after_spaces : (p.after (spaces k)).column = p.column + k := by
  rw [Place.column_after isBreak_of_mem_spaces, spaces, List.length_replicate]

theorem spaces_succ : spaces (k + 1) = ' ' :: spaces k := rfl

end Spaces

/-! ## Looking ahead -/

section Ahead

variable {p : Place} {c : Char} {cs : List Char}

/-- Only at the beginning of a line does a marker stand. -/
theorem afterMarker?_eq_none {m : Char} {s : List Glyph}
    (h : ∀ g ∈ s.head?, 0 < g.column ∨ g.char ≠ m) : afterMarker? m s = none := by
  unfold afterMarker?
  split
  · next g₁ g₂ g₃ rest =>
    refine if_neg ?_
    rintro ⟨hcolumn, hchar, -⟩
    rcases h g₁ rfl with hpos | hne
    · omega
    · exact hne hchar
  · rfl

theorem atMarker_of_column_pos (h : 0 < p.column) : atMarker (p.glyphs cs) = false := by
  have hhead : ∀ m, afterMarker? m (p.glyphs cs) = none := by
    refine fun m ↦ afterMarker?_eq_none fun g hg ↦ .inl ?_
    cases cs with
    | nil => exact absurd hg (by simp)
    | cons c cs =>
      rw [Place.glyphs_cons, List.head?_cons, Option.mem_some_iff] at hg
      rwa [← hg]
  rw [atMarker, hhead, hhead]
  rfl

@[simp] theorem atGap_glyphs_cons :
    atGap (p.glyphs (c :: cs)) = (isBlank c || isBreak c) := by
  rw [Place.glyphs_cons]
  rfl

end Ahead

/-! ## Printable characters -/

section Printable

variable {c : Char}

/-- Characters that a test tells apart differ. -/
theorem ne_of_test {f : Char → Bool} {d : Char} (hc : f c = true) (hd : f d = false) : c ≠ d := by
  rintro rfl
  rw [hc] at hd
  exact Bool.false_ne_true hd.symm

theorem isAdmissible_of_isPrintable (h : isPrintable c = true) : isAdmissible c = true := by
  simp only [isPrintable, isAdmissible, Bool.or_eq_true, Bool.and_eq_true, beq_iff_eq,
    decide_eq_true_eq, bne_iff_ne] at h ⊢
  omega

theorem isPrintable_of_mem_line {cs : List Char} (h : ∀ c ∈ cs, isPrintable c = true) :
    ∀ c ∈ cs ++ ['\n'], isPrintable c = true :=
  List.forall_mem_append.mpr ⟨h, List.forall_mem_singleton.mpr rfl⟩

theorem endsLine_of_isPrintable (h : isPrintable c = true) : endsLine c = isBreak c := by
  have hreturn : c ≠ '\r' := ne_of_test h (by decide)
  have hnext : c ≠ '\u0085' := ne_of_test h (by decide)
  rw [endsLine, beq_false_of_ne hreturn, beq_false_of_ne hnext, Bool.or_false, Bool.or_false]

theorem isBlank_of_isPrintable (h : isPrintable c = true) : isBlank c = (c == ' ') := by
  have htab : c ≠ '\t' := ne_of_test h (by decide)
  rw [isBlank, beq_false_of_ne htab, Bool.or_false]

theorem unifyBreaks_of_isPrintable {cs : List Char} (h : ∀ c ∈ cs, isPrintable c = true) :
    unifyBreaks cs = cs := by
  induction cs with
  | nil => rfl
  | cons c cs ih =>
    have hc := h c List.mem_cons_self
    have hreturn : c ≠ '\r' := ne_of_test hc (by decide)
    have hnext : c ≠ '\u0085' := ne_of_test hc (by decide)
    have htail := ih fun d hd ↦ h d (List.mem_cons_of_mem _ hd)
    simp [unifyBreaks, hreturn, hnext, htail]

theorem glyphs?_of_isPrintable {cs : List Char} (h : ∀ c ∈ cs, isPrintable c = true) :
    glyphs? cs = some (Place.start.glyphs cs) := by
  have hall : cs.all isAdmissible = true :=
    List.all_eq_true.mpr fun c hc ↦ isAdmissible_of_isPrintable (h c hc)
  rw [glyphs?, if_pos hall, unifyBreaks_of_isPrintable h]
  rfl

end Printable

/-! ## Neighbours -/

section Neighbours

variable {f g : Char → Bool} {c d : Char} {cs : List Char}

theorem hasPair_of_cons (h : hasPair f g (c :: cs) = false) : hasPair f g cs = false := by
  cases cs with
  | nil => rfl
  | cons d cs => exact (Bool.or_eq_false_iff.mp h).2

/-- Where no pair is, the neighbour of a character that could begin one fails the other test. -/
theorem eq_false_of_hasPair (h : hasPair f g (c :: d :: cs) = false) (hc : f c = true) :
    g d = false := by
  have hpair := (Bool.or_eq_false_iff.mp h).1
  rwa [hc, Bool.true_and] at hpair

theorem hasPair_eq_false (h : ∀ c ∈ cs, f c = false) : hasPair f g cs = false := by
  induction cs with
  | nil => rfl
  | cons c cs ih =>
    have hrest := ih fun d hd ↦ h d (List.mem_cons_of_mem _ hd)
    cases cs with
    | nil => rfl
    | cons d cs => rw [hasPair, h c List.mem_cons_self, Bool.false_and, Bool.false_or, hrest]

end Neighbours

end AffineQuant.Yaml
