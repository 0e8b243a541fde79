import HtmlMinifier.Pattern

/-!
# The edges of text

Between two tags stands a text.  However many blanks it begins or ends with, one
space at each edge says the same, and a text of blanks alone becomes a single
space.  Blanks inside a text stay.

A text runs from a `>` to the next `<`, has at least one symbol, and may hold
further `>`.  Both delimiters belong to the match.
-/

namespace HtmlMinifier.TextEdge

open Alphabet

variable {α : Type} [Alphabet α]

/-- A text with its delimiters: what stands between them. -/
def read (text : List α) : Option (List α × List α) := do
  let inside ← Reader.after? ['>'] text
  let content := inside.takeWhile fun a => !is '<' a
  if content.isEmpty then
    none
  else
    let rest ← Reader.after? ['<'] (inside.dropWhile fun a => !is '<' a)
    some (content, rest)

theorem read_eq_some_iff {text content rest : List α} :
    read text = some (content, rest) ↔
      ∃ inside, Reader.after? ['>'] text = some inside ∧
        content = inside.takeWhile (fun a => !is '<' a) ∧ content ≠ [] ∧
        Reader.after? ['<'] (inside.dropWhile fun a => !is '<' a) = some rest := by
  simp only [read, bind, Option.bind_eq_some_iff, List.isEmpty_iff]
  constructor
  · rintro ⟨inside, first, second⟩
    split at second
    · simp at second
    · rcases Option.bind_eq_some_iff.mp second with ⟨rest', third, same⟩
      simp only [Option.some.injEq, Prod.mk.injEq] at same
      rcases same with ⟨rfl, rfl⟩
      exact ⟨inside, first, rfl, ‹_›, third⟩
  · rintro ⟨inside, first, rfl, nonempty, third⟩
    exact ⟨inside, first, by simp [nonempty, third]⟩

/-- The texts between tags. -/
def pattern : Pattern α (List α) where
  read := read
  shrinks text content rest found := by
    rcases read_eq_some_iff.mp found with ⟨inside, first, _, _, last⟩
    have opened := Reader.length_of_after? first
    have closed := Reader.length_of_after? last
    have inner :=
      (List.dropWhile_sublist (fun a : α => !is '<' a) (l := inside)).length_le
    simp only [List.length_singleton] at opened closed
    omega

/-- A single space in place of a run of blanks, and nothing in place of none. -/
def space (run : List α) : List α :=
  if run.isEmpty then [] else [ofChar ' ']

/-- A text with a single space in place of the blanks at each edge. -/
def soften (text : List α) : List α :=
  let leading := text.takeWhile isBlank
  let inner := text.dropWhile isBlank
  let trailing := inner.reverse.takeWhile isBlank
  space leading ++ (inner.reverse.dropWhile isBlank).reverse ++ space trailing

/-- A softened text between its delimiters. -/
def write (text : List α) : List α :=
  ofChar '>' :: (soften text ++ [ofChar '<'])

/-- Softens the texts of a document. -/
def collapse (text : List α) : List α :=
  pattern.replace write text

/-- A text of blanks alone becomes a single space. -/
theorem soften_of_blank {text : List α} (nonempty : text ≠ [])
    (blank : ∀ a ∈ text, isBlank a = true) : soften text = [ofChar ' '] := by
  have all : text.takeWhile isBlank = text := by
    simpa using @List.takeWhile_append_of_pos α isBlank text [] blank
  have none : text.dropWhile isBlank = [] := by
    simpa using @List.dropWhile_append_of_pos α isBlank text [] blank
  simp [soften, space, all, none, nonempty]

@[simp]
theorem collapse_nil : collapse ([] : List α) = [] := by
  simp [collapse]

end HtmlMinifier.TextEdge
