import HtmlMinifier.Pattern

/-!
# The first attribute

The first attribute of a tag goes on a line of its own, which keeps the lines of
a minified document short.  The blanks between the name and the attribute become
one line feed.

A name is a run of letters and hyphens right behind the `<`, and what follows the
blanks reaches to the next `>` and is not empty.  Where blanks alone stand before
the `>`, the last of several is what follows: `<a  >` has something to move and
`<a >` has not.
-/

namespace HtmlMinifier

/-- A tag that has been parted at its first blanks, which belong to neither
part. -/
structure Attribute (α : Type) where
  /-- The `<` and the name. -/
  head : List α
  /-- What follows the blanks, through the `>`. -/
  tail : List α

namespace Attribute

open Alphabet

variable {α : Type} [Alphabet α]

/-- What follows a run of at least one blank, through the next `>`. -/
def readTail : Reader α
  | [] => none
  | a :: text =>
      if isBlank a then do
        let split ← Reader.upTo (Reader.phrase ['>']) (text.dropWhile isBlank)
        let content :=
          if split.before.isEmpty then (text.takeWhile isBlank).getLast?.toList
          else split.before
        if content.isEmpty then none else some (content ++ split.taken, split.rest)
      else
        none

/-- A tag with an attribute at the front of a text. -/
def read (text : List α) : Option (Attribute α × List α) := do
  let named ← Reader.after? ['<'] text
  let name := named.takeWhile isNameSymbol
  if name.isEmpty then
    none
  else
    let (tail, rest) ← readTail (named.dropWhile isNameSymbol)
    some (⟨ofChar '<' :: name, tail⟩, rest)

theorem length_of_readTail {text tail rest : List α}
    (found : readTail text = some (tail, rest)) : rest.length ≤ text.length := by
  cases text with
  | nil => simp [readTail] at found
  | cons a text =>
      simp only [readTail] at found
      split at found
      · rcases Option.bind_eq_some_iff.mp found with ⟨split, first, second⟩
        have split_le := Reader.length_rest_of_upTo (Reader.phrase_faithful _) first
        have blanks_le := (List.dropWhile_sublist (isBlank (α := α)) (l := text)).length_le
        have same : split.rest = rest := by grind
        rw [← same, List.length_cons]
        omega
      · simp at found

theorem read_eq_some_iff {text rest : List α} {tag : Attribute α} :
    read text = some (tag, rest) ↔
      ∃ named tail, Reader.after? ['<'] text = some named ∧
        named.takeWhile isNameSymbol ≠ [] ∧
        readTail (named.dropWhile isNameSymbol) = some (tail, rest) ∧
        tag = ⟨ofChar '<' :: named.takeWhile isNameSymbol, tail⟩ := by
  simp only [read, bind, Option.bind_eq_some_iff, List.isEmpty_iff]
  constructor
  · rintro ⟨named, first, second⟩
    split at second
    · simp at second
    · rcases Option.bind_eq_some_iff.mp second with ⟨⟨tail, rest'⟩, third, same⟩
      simp only [Option.some.injEq, Prod.mk.injEq] at same
      rcases same with ⟨rfl, rfl⟩
      exact ⟨named, tail, first, ‹_›, third, rfl⟩
  · rintro ⟨named, tail, first, nonempty, third, rfl⟩
    exact ⟨named, first, by simp [nonempty, third]⟩

/-- The tags of a text that have attributes. -/
def pattern : Pattern α (Attribute α) where
  read := read
  shrinks text tag rest found := by
    rcases read_eq_some_iff.mp found with ⟨named, tail, first, _, last, _⟩
    have opened := Reader.length_of_after? first
    have tailed := length_of_readTail last
    have name := (List.dropWhile_sublist (isNameSymbol (α := α)) (l := named)).length_le
    simp only [List.length_singleton] at opened
    omega

/-- A tag with its first attribute on a new line. -/
def write (tag : Attribute α) : List α :=
  tag.head ++ ofChar '\n' :: tag.tail

/-- Puts the first attribute of every tag on a new line. -/
def reflow (text : List α) : List α :=
  pattern.replace write text

@[simp]
theorem reflow_nil : reflow ([] : List α) = [] := by
  simp [reflow]

end Attribute

end HtmlMinifier
