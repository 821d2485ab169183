import AffineQuant.Proofs.Json.Lexeme
import Mathlib.Tactic.FinCases

/-!
# Values through JSON

Reading takes back writing, in either layout: a value whose numbers are well formed is parsed from
its text (`parse?_compact`, `parse?_spread`). The hypothesis is on the spelling of numbers only. It
is met by everything that the library writes, and no condition on strings or keys is needed.

## The induction

The induction is on the value. It runs through values, items and members together, as the reader
does, each with whatever text may follow it. For items and members the induction starts at the
second: the statement supposes that the first value was read, since the reader has looked at it
before it knows whether there are others (`readItems_rest`, `readMembers_rest`).

## Steps

The reader takes as many steps as the text has characters. A value uses up at least one step for
each of its brackets, commas and quotes, so a bound on the length of what was written is enough,
and it is the length that gets less in every call. What follows the value is not counted.

Blanks are skipped before every token, and the two layouts differ in blanks alone. So the layout
is a parameter that the proof carries along and never looks at (`skipBlank_lineBreak`).
-/

namespace AffineQuant.Json

open Digit

variable {spread : Bool} {level n : ℕ} {s : List Char}

/-! ## Well-formed values -/

mutual

/-- All numbers of the value are well formed. -/
def IsWellFormed : Json → Prop
  | .number x => x.IsWellFormed
  | .array items => AreItemsWellFormed items
  | .object members => AreMembersWellFormed members
  | _ => True

def AreItemsWellFormed : List Json → Prop
  | [] => True
  | v :: rest => v.IsWellFormed ∧ AreItemsWellFormed rest

def AreMembersWellFormed : List (List TextUnit × Json) → Prop
  | [] => True
  | (_, v) :: rest => v.IsWellFormed ∧ AreMembersWellFormed rest

end

/-! ## Blanks -/

theorem skipBlank_of_not {c : Char} (h : isBlank c = false) (s : List Char) :
    skipBlank (c :: s) = c :: s := by
  rw [skipBlank, List.dropWhile_cons_of_neg (by rw [h]; exact Bool.false_ne_true)]

theorem skipBlank_lineBreak (spread : Bool) (level : ℕ) (s : List Char) :
    skipBlank (lineBreak spread level ++ s) = skipBlank s := by
  refine List.dropWhile_append_of_pos fun c hc ↦ ?_
  cases spread with
  | false => exact absurd hc List.not_mem_nil
  | true =>
    rcases List.mem_cons.mp hc with rfl | hspace
    · rfl
    · rw [List.eq_of_mem_replicate hspace]
      rfl

theorem skipBlank_space (spread : Bool) (s : List Char) :
    skipBlank ((if spread then [' '] else []) ++ s) = skipBlank s := by
  cases spread <;> rfl

theorem readValue_lineBreak (n : ℕ) (spread : Bool) (level : ℕ) (s : List Char) :
    readValue n (lineBreak spread level ++ s) = readValue n s := by
  cases n with
  | zero => rw [readValue, readValue]
  | succ n => rw [readValue, readValue, skipBlank_lineBreak]

theorem readValue_space (n : ℕ) (spread : Bool) (s : List Char) :
    readValue n ((if spread then [' '] else []) ++ s) = readValue n s := by
  cases n with
  | zero => rw [readValue, readValue]
  | succ n => rw [readValue, readValue, skipBlank_space]

/-! ## The heads of texts -/

/-- A character that a number starts with. -/
private def StartsNumber (c : Char) : Prop := c = '-' ∨ ∃ d : Digit, c = d.toChar

private theorem exists_write_number {x : Numeral} (hx : x.IsWellFormed) :
    ∃ c t, x.write true = c :: t ∧ StartsNumber c := by
  obtain ⟨d, ds, hds⟩ := List.exists_cons_of_ne_nil hx.whole_ne_nil
  rw [Numeral.write, hds]
  cases x.negative with
  | false => exact ⟨d.toChar, _, rfl, Or.inr ⟨d, rfl⟩⟩
  | true => exact ⟨'-', _, rfl, Or.inl rfl⟩

private theorem StartsNumber.not_blank {c : Char} (h : StartsNumber c) :
    isBlank c = false ∧ c ≠ ']' := by
  obtain rfl | ⟨d, rfl⟩ := h
  · decide
  · revert d
    decide

private theorem readValue_startsNumber {c : Char} (h : StartsNumber c) (n : ℕ) (s : List Char) :
    readValue (n + 1) (c :: s) = (readNumber (c :: s)).map fun r ↦ (.number r.1, r.2) := by
  rw [readValue, skipBlank_of_not h.not_blank.1]
  obtain rfl | ⟨d, rfl⟩ := h
  · rfl
  · fin_cases d <;> rfl

/-- A value does not start with a blank or a closing bracket. -/
theorem exists_write_eq_cons {v : Json} (hv : v.IsWellFormed) (spread : Bool) (level : ℕ) :
    ∃ c t, v.write spread level = c :: t ∧ isBlank c = false ∧ c ≠ ']' := by
  cases v with
  | null => exact ⟨'n', _, rfl, by decide⟩
  | bool b =>
    cases b with
    | false => exact ⟨'f', _, rfl, by decide⟩
    | true => exact ⟨'t', _, rfl, by decide⟩
  | number x =>
    obtain ⟨c, t, hwrite, hc⟩ := exists_write_number hv
    exact ⟨c, t, hwrite, hc.not_blank⟩
  | string us => exact ⟨'\x22', _, rfl, by decide⟩
  | array items =>
    cases items with
    | nil => exact ⟨'[', _, rfl, by decide⟩
    | cons v vs => exact ⟨'[', _, rfl, by decide⟩
  | object members =>
    cases members with
    | nil => exact ⟨'\x7b', _, rfl, by decide⟩
    | cons m ms => exact ⟨'\x7b', _, rfl, by decide⟩

/-! ## One step of the reader -/

private theorem readValue_bracket {c : Char} {t u : List Char} (h : skipBlank t = c :: u)
    (hc : c ≠ ']') (n : ℕ) :
    readValue (n + 1) ('[' :: t) = (readItems n (c :: u)).map fun r ↦ (.array r.1, r.2) := by
  have hskip : skipBlank ('[' :: t) = '[' :: t := skipBlank_of_not (by decide) t
  rw [readValue, hskip]
  simp only [h]
  split
  · next heq => exact absurd (List.cons.inj heq).1 hc
  · rfl

private theorem readValue_brace {t u : List Char} (h : skipBlank t = '\x22' :: u) (n : ℕ) :
    readValue (n + 1) ('\x7b' :: t) =
      (readMembers n ('\x22' :: u)).map fun r ↦ (.object r.1, r.2) := by
  have hskip : skipBlank ('\x7b' :: t) = '\x7b' :: t := skipBlank_of_not (by decide) t
  rw [readValue, hskip]
  simp only [h]
  rfl

private theorem readItems_last {v : Json} {t u : List Char} (h : readValue n s = some (v, t))
    (ht : skipBlank t = ']' :: u) : readItems (n + 1) s = some ([v], u) := by
  rw [readItems, h]
  simp only [Option.bind_eq_bind, Option.bind_some, ht]

private theorem readItems_comma {v : Json} {t u : List Char} (h : readValue n s = some (v, t))
    (ht : skipBlank t = ',' :: u) :
    readItems (n + 1) s = (readItems n u).map fun r ↦ (v :: r.1, r.2) := by
  rw [readItems, h]
  simp only [Option.bind_eq_bind, Option.bind_some, ht]

section Member

variable {key : List TextUnit} {v : Json} {r t u w : List Char}
  (hs : skipBlank s = '\x22' :: r) (hkey : readUnits n r = some (key, ':' :: u))
  (hv : readValue n u = some (v, t))

include hs hkey hv

private theorem readMembers_last (ht : skipBlank t = '\x7d' :: w) :
    readMembers (n + 1) s = some ([(key, v)], w) := by
  have hcolon : skipBlank (':' :: u) = ':' :: u := skipBlank_of_not (by decide) u
  rw [readMembers, hs]
  simp only [Option.bind_eq_bind, Option.bind_some, hkey, hcolon, hv, ht]

private theorem readMembers_comma (ht : skipBlank t = ',' :: w) :
    readMembers (n + 1) s = (readMembers n w).map fun q ↦ ((key, v) :: q.1, q.2) := by
  have hcolon : skipBlank (':' :: u) = ':' :: u := skipBlank_of_not (by decide) u
  rw [readMembers, hs]
  simp only [Option.bind_eq_bind, Option.bind_some, hkey, hcolon, hv, ht]

end Member

/-! ## The induction -/

theorem delimited_lineBreak {c : Char} (h : isDelimiter c = true) (spread : Bool) (level : ℕ)
    (s : List Char) : Delimited (lineBreak spread level ++ c :: s) := by
  cases spread with
  | false => exact delimited_cons s h
  | true => exact delimited_cons _ (by decide)

theorem delimited_writeItems (spread : Bool) (level : ℕ) (vs : List Json) (s : List Char) :
    Delimited (writeItems spread level vs ++ (lineBreak spread (level - 1) ++ ']' :: s)) := by
  cases vs with
  | nil => exact delimited_lineBreak (by decide) _ _ _
  | cons v vs => exact delimited_cons _ (by decide)

theorem delimited_writeMembers (spread : Bool) (level : ℕ) (ms : List (List TextUnit × Json))
    (s : List Char) :
    Delimited (writeMembers spread level ms ++ (lineBreak spread (level - 1) ++ '\x7d' :: s)) := by
  cases ms with
  | nil => exact delimited_lineBreak (by decide) _ _ _
  | cons m ms => exact delimited_cons _ (by decide)

/-- The first item or member, and those after it, as they stand before a text. -/
theorem write_array_append (spread : Bool) (level : ℕ) (v : Json) (vs : List Json) (s : List Char) :
    write spread level (.array (v :: vs)) ++ s = '[' :: (lineBreak spread level ++
      (write spread (level + 1) v ++
        (writeItems spread level vs ++ (lineBreak spread (level - 1) ++ ']' :: s)))) := by
  simp [write]

theorem writeItems_append (spread : Bool) (level : ℕ) (v : Json) (vs : List Json) (s : List Char) :
    writeItems spread level (v :: vs) ++ s = ',' :: (lineBreak spread level ++
      (write spread (level + 1) v ++ (writeItems spread level vs ++ s))) := by
  simp [writeItems]

theorem write_object_append (spread : Bool) (level : ℕ) (key : List TextUnit) (v : Json)
    (ms : List (List TextUnit × Json)) (s : List Char) :
    write spread level (.object ((key, v) :: ms)) ++ s = '\x7b' :: (lineBreak spread level ++
      '\x22' :: (key.flatMap writeUnit ++ '\x22' :: ':' :: ((if spread then [' '] else []) ++
        (write spread (level + 1) v ++
          (writeMembers spread level ms ++ (lineBreak spread (level - 1) ++ '\x7d' :: s)))))) := by
  simp [write, writeString]

theorem writeMembers_append (spread : Bool) (level : ℕ) (key : List TextUnit) (v : Json)
    (ms : List (List TextUnit × Json)) (s : List Char) :
    writeMembers spread level ((key, v) :: ms) ++ s = ',' :: (lineBreak spread level ++
      '\x22' :: (key.flatMap writeUnit ++ '\x22' :: ':' :: ((if spread then [' '] else []) ++
        (write spread (level + 1) v ++ (writeMembers spread level ms ++ s))))) := by
  simp [writeMembers, writeString]

mutual

/-- A value is read as it was written, and what follows is left. -/
theorem readValue_write (spread : Bool) : ∀ (v : Json) (level n : ℕ) (s : List Char),
    v.IsWellFormed → (v.write spread level).length ≤ n + 1 → Delimited s →
      readValue (n + 1) (v.write spread level ++ s) = some (v, s)
  | .null, _, _, _, _, _, _ => rfl
  | .bool true, _, _, _, _, _, _ => rfl
  | .bool false, _, _, _, _, _, _ => rfl
  | .number x, level, n, s, hx, _, hs => by
    obtain ⟨c, t, hwrite, hc⟩ := exists_write_number hx
    have hread := readNumber_write hx hs
    rw [hwrite, List.cons_append] at hread
    rw [write, hwrite, List.cons_append, readValue_startsNumber hc, hread, Option.map_some]
  | .string us, level, n, s, _, hn, _ => by
    have hlength := length_le_flatMap_writeUnit us
    rw [write, writeString, List.length_append, List.length_cons, List.length_singleton] at hn
    have hread := readUnits_write us (show us.length < n by omega) s
    rw [write, writeString, List.append_assoc, List.cons_append, List.singleton_append, readValue,
      skipBlank_of_not (by decide)]
    simp only [hread, Option.map_some]
  | .array [], _, _, _, _, _, _ => rfl
  | .array (v :: vs), level, n, s, hvs, hn, _ => by
    obtain ⟨c, t, hwrite, hblank, hbracket⟩ := exists_write_eq_cons hvs.1 spread (level + 1)
    have hlength := congrArg List.length (write_array_append spread level v vs [])
    have hpos := congrArg List.length hwrite
    simp only [List.append_nil, List.length_cons, List.length_append, List.length_nil]
      at hlength hpos
    -- The bracket and the first item take a character and a step each.
    obtain ⟨n, rfl⟩ : ∃ n', n = n' + 2 := ⟨n - 2, by omega⟩
    have hfirst := readValue_write spread v (level + 1) n _ hvs.1 (by omega)
      (delimited_writeItems spread level vs s)
    have hread := readItems_rest spread vs level (n + 1) v _ s hvs.2 (by omega) hfirst
    rw [hwrite, List.cons_append] at hread
    rw [write_array_append, hwrite, List.cons_append, readValue_bracket
      ((skipBlank_lineBreak _ _ _).trans (skipBlank_of_not hblank _)) hbracket, hread,
      Option.map_some]
  | .object [], _, _, _, _, _, _ => rfl
  | .object ((key, v) :: ms), level, n, s, hms, hn, _ => by
    have hkey := length_le_flatMap_writeUnit key
    have hlength := congrArg List.length (write_object_append spread level key v ms [])
    simp only [List.append_nil, List.length_cons, List.length_append, List.length_nil] at hlength
    obtain ⟨n, rfl⟩ : ∃ n', n = n' + 2 := ⟨n - 2, by omega⟩
    have hfirst := readValue_write spread v (level + 1) n _ hms.1 (by omega)
      (delimited_writeMembers spread level ms s)
    rw [write_object_append, readValue_brace
      ((skipBlank_lineBreak _ _ _).trans (skipBlank_of_not (by decide) _)),
      readMembers_rest spread ms level (n + 1) key v _ _ _ s hms.2 (by omega)
        (skipBlank_of_not (by decide) _) (readUnits_write key (by omega) _)
        ((readValue_space _ _ _).trans hfirst), Option.map_some]

/-- After an item come the others up to the closing bracket. -/
theorem readItems_rest (spread : Bool) : ∀ (vs : List Json) (level n : ℕ) (v : Json)
    (t s : List Char), AreItemsWellFormed vs → (writeItems spread level vs).length ≤ n →
      readValue n t =
        some (v, writeItems spread level vs ++ (lineBreak spread (level - 1) ++ ']' :: s)) →
          readItems (n + 1) t = some (v :: vs, s)
  | [], level, n, v, t, s, _, _, h =>
    readItems_last h ((skipBlank_lineBreak _ _ _).trans (skipBlank_of_not (by decide) _))
  | v' :: vs, level, n, v, t, s, hvs, hn, h => by
    obtain ⟨c, t', hwrite, -⟩ := exists_write_eq_cons hvs.1 spread (level + 1)
    have hlength := congrArg List.length (writeItems_append spread level v' vs [])
    have hpos := congrArg List.length hwrite
    simp only [List.append_nil, List.length_cons, List.length_append] at hlength hpos
    obtain ⟨n, rfl⟩ : ∃ n', n = n' + 2 := ⟨n - 2, by omega⟩
    have hnext := readValue_write spread v' (level + 1) n _ hvs.1 (by omega)
      (delimited_writeItems spread level vs s)
    rw [writeItems_append] at h
    rw [readItems_comma h (skipBlank_of_not (by decide) _),
      readItems_rest spread vs level (n + 1) v' _ s hvs.2 (by omega)
        ((readValue_lineBreak _ _ _ _).trans hnext), Option.map_some]

/-- After a member come the others up to the closing brace. -/
theorem readMembers_rest (spread : Bool) : ∀ (ms : List (List TextUnit × Json)) (level n : ℕ)
    (key : List TextUnit) (v : Json) (t r u s : List Char), AreMembersWellFormed ms →
      (writeMembers spread level ms).length ≤ n → skipBlank t = '\x22' :: r →
        readUnits n r = some (key, ':' :: u) → readValue n u =
          some (v, writeMembers spread level ms ++ (lineBreak spread (level - 1) ++ '\x7d' :: s)) →
            readMembers (n + 1) t = some ((key, v) :: ms, s)
  | [], level, n, key, v, t, r, u, s, _, _, ht, hkey, h =>
    readMembers_last ht hkey h
      ((skipBlank_lineBreak _ _ _).trans (skipBlank_of_not (by decide) _))
  | (key', v') :: ms, level, n, key, v, t, r, u, s, hms, hn, ht, hkey, h => by
    have hkey' := length_le_flatMap_writeUnit key'
    have hlength := congrArg List.length (writeMembers_append spread level key' v' ms [])
    simp only [List.append_nil, List.length_cons, List.length_append] at hlength
    obtain ⟨n, rfl⟩ : ∃ n', n = n' + 2 := ⟨n - 2, by omega⟩
    have hnext := readValue_write spread v' (level + 1) n _ hms.1 (by omega)
      (delimited_writeMembers spread level ms s)
    rw [writeMembers_append] at h
    rw [readMembers_comma ht hkey h (skipBlank_of_not (by decide) _),
      readMembers_rest spread ms level (n + 1) key' v' _ _ _ s hms.2 (by omega)
        ((skipBlank_lineBreak _ _ _).trans (skipBlank_of_not (by decide) _))
        (readUnits_write key' (by omega) _) ((readValue_space _ _ _).trans hnext), Option.map_some]

end

/-! ## Whole texts -/

theorem parse?_write {v : Json} (hv : v.IsWellFormed) (spread : Bool) :
    parse? (String.ofList (v.write spread 1)) = some v := by
  have hread := readValue_write spread v 1 (v.write spread 1).length [] hv (Nat.le_succ _)
    delimited_nil
  rw [List.append_nil] at hread
  rw [parse?, String.toList_ofList, hread]
  rfl

theorem parse?_compact {v : Json} (hv : v.IsWellFormed) : parse? v.compact = some v :=
  parse?_write hv false

theorem parse?_spread {v : Json} (hv : v.IsWellFormed) : parse? v.spread = some v :=
  parse?_write hv true

end AffineQuant.Json
