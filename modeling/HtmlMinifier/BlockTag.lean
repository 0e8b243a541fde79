import HtmlMinifier.Pattern

/-!
# Tags of blocks

Blanks before the tag of a block show nowhere, so such a tag moves up to what
stands before it.  The tags of inline elements do not: there a blank parts two
words.

A tag counts when a name of a block is read in whatever case, when the name is
over there, and when a `>` comes later.  Everything through that `>` belongs to
the tag and is not looked at again.  Names that begin alike share a stem, and
their endings are tried behind it one after the other.
-/

namespace HtmlMinifier.BlockTag

open Alphabet

/-- What some names begin with, and what they end with. -/
structure Stem where
  letters : List Char
  endings : List (List Char)
  deriving DecidableEq, Repr

namespace Stem

/-- A stem that is a name of its own. -/
def alone (letters : String) : Stem :=
  ⟨letters.toList, [[]]⟩

/-- A stem that is a name with an ending, and without it. -/
def withOptional (letters ending : String) : Stem :=
  ⟨letters.toList, [ending.toList, []]⟩

/-- A stem that is a name with any of some endings only. -/
def withAny (letters : String) (endings : List String) : Stem :=
  ⟨letters.toList, endings.map String.toList⟩

end Stem

/-- The stems of the elements that are laid out as blocks, and of those that only occur
inside them. -/
def stems : List Stem :=
  [.alone "area", .withOptional "base" "font", .alone "blockquote", .alone "body",
    .alone "caption", .alone "center", .alone "cite", .withOptional "col" "group", .alone "dd",
    .alone "dir", .alone "div", .alone "dl", .alone "dt", .alone "fieldset", .alone "form",
    .withOptional "frame" "set", .withAny "h" ["1", "2", "3", "4", "5", "6"], .alone "head",
    .alone "hr", .alone "html", .alone "legend", .alone "li", .alone "link", .alone "map",
    .alone "menu", .alone "meta", .alone "ol", .withAny "opt" ["group", "ion"], .alone "p",
    .alone "param", .withAny "t" ["able", "body", "head", "d", "h", "r", "foot", "itle"],
    .alone "ul"]

variable {α : Type} [Alphabet α]

/-- The beginning of a tag, `<` or `</`. -/
def mark : Reader α := fun text =>
  match Reader.phrase ['<', '/'] text with
  | some opening => some opening
  | none => Reader.phrase ['<'] text

/-- A stem with one of its endings, where a word ends behind them. -/
def Stem.name (stem : Stem) : Reader α := fun text => do
  let (first, behind) ← Reader.phraseAnyCase stem.letters text
  let (last, rest) ← stem.endings.findSome? fun ending => Reader.name ending behind
  some (first ++ last, rest)

/-- A block's name. -/
def name : Reader α := fun text =>
  stems.findSome? fun stem => stem.name text

/-- A tag of a block, from its `<` through its `>`. -/
def tag : Reader α := fun text => do
  let (opening, named) ← mark text
  let (letters, inTag) ← name named
  let inner ← Reader.upTo (Reader.phrase ['>']) inTag
  some (opening ++ letters ++ inner.before ++ inner.taken, inner.rest)

theorem mark_faithful : Reader.Faithful (mark : Reader α) := by
  intro text taken rest read
  unfold mark at read
  split at read
  next opening first => exact Reader.phrase_faithful _ (read ▸ first)
  next => exact Reader.phrase_faithful _ read

theorem Stem.name_eq_some_iff {stem : Stem} {text taken rest : List α} :
    stem.name text = some (taken, rest) ↔
      ∃ first behind last, Reader.phraseAnyCase stem.letters text = some (first, behind) ∧
        (stem.endings.findSome? fun ending => Reader.name ending behind) = some (last, rest) ∧
        taken = first ++ last := by
  simp only [Stem.name, bind, Option.bind_eq_some_iff, Prod.exists, Option.some.injEq,
    Prod.mk.injEq]
  constructor
  · rintro ⟨first, behind, stemmed, last, rest, ended, rfl, rfl⟩
    exact ⟨first, behind, last, stemmed, ended, rfl⟩
  · rintro ⟨first, behind, last, stemmed, ended, rfl⟩
    exact ⟨first, behind, stemmed, last, rest, ended, rfl, rfl⟩

theorem Stem.name_faithful (stem : Stem) : Reader.Faithful (stem.name : Reader α) := by
  intro text taken rest read
  obtain ⟨first, behind, last, stemmed, ended, rfl⟩ := Stem.name_eq_some_iff.mp read
  obtain ⟨ending, _, found⟩ := List.exists_of_findSome?_eq_some ended
  rw [List.append_assoc, Reader.name_faithful ending found, Reader.phraseAnyCase_faithful _ stemmed]

theorem name_faithful : Reader.Faithful (name : Reader α) := by
  intro text taken rest read
  obtain ⟨stem, _, found⟩ := List.exists_of_findSome?_eq_some read
  exact stem.name_faithful found

theorem tag_eq_some_iff {text taken rest : List α} :
    tag text = some (taken, rest) ↔
      ∃ opening named letters inTag inner,
        mark text = some (opening, named) ∧ name named = some (letters, inTag) ∧
        Reader.upTo (Reader.phrase ['>']) inTag = some inner ∧
        taken = opening ++ letters ++ inner.before ++ inner.taken ∧ rest = inner.rest := by
  simp only [tag, bind, Option.bind_eq_some_iff, Prod.exists, Option.some.injEq,
    Prod.mk.injEq]
  constructor
  · rintro ⟨opening, named, first, letters, inTag, second, inner, third, rfl, rfl⟩
    exact ⟨opening, named, letters, inTag, inner, first, second, third, rfl, rfl⟩
  · rintro ⟨opening, named, letters, inTag, inner, first, second, third, rfl, rfl⟩
    exact ⟨opening, named, first, letters, inTag, second, inner, third, rfl, rfl⟩

theorem tag_faithful : Reader.Faithful (tag : Reader α) := by
  intro text taken rest read
  rcases tag_eq_some_iff.mp read with
    ⟨opening, named, letters, inTag, inner, first, second, third, rfl, rfl⟩
  rw [← mark_faithful first, ← name_faithful second,
    ← Reader.append_of_upTo (Reader.phrase_faithful _) third]
  simp

/-- A tag of a block behind at least one blank. -/
def read (text : List α) : Option (List α × List α) :=
  match text with
  | [] => none
  | a :: text => if isBlank a then tag (text.dropWhile isBlank) else none

/-- The tags of blocks with the blanks before them. -/
def pattern : Pattern α (List α) where
  read := read
  shrinks text taken rest found := by
    cases text with
    | nil => simp [read] at found
    | cons a text =>
        cases blank : isBlank a with
        | false => simp [read, blank] at found
        | true =>
            simp only [read, blank, if_true] at found
            have tagged := tag_faithful.length_le found
            have blanks := (List.dropWhile_sublist (isBlank (α := α)) (l := text)).length_le
            simp only [List.length_cons]
            omega

/-- Moves the tags of blocks up to what stands before them. -/
def moveUp (text : List α) : List α :=
  pattern.replace id text

@[simp]
theorem moveUp_nil : moveUp ([] : List α) = [] := by
  simp [moveUp]

end HtmlMinifier.BlockTag
