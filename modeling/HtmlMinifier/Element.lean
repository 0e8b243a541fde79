import HtmlMinifier.Pattern

/-!
# Elements

An element with a given name runs from its open tag to the first close tag of
that name, in whatever case either is written.  Its open tag ends at its first
`>`, and its body is everything up to the close tag: elements of one name do not
nest.

Blanks on both sides belong to the match but not to the element, so whatever
replaces a match also replaces the blanks around it.
-/

namespace HtmlMinifier

/-- An element, as it is written. -/
structure Element (α : Type) where
  /-- The open tag, from its `<` through its `>`. -/
  opening : List α
  /-- Everything between the open tag and the close tag. -/
  body : List α
  /-- The close tag. -/
  closing : List α

namespace Element

open Alphabet

variable {α : Type} [Alphabet α]

/-- The text of an element. -/
def text (element : Element α) : List α :=
  element.opening ++ element.body ++ element.closing

/-- An element of the given name at the front of a text, with blanks around
it. -/
def read (name : List Char) (text : List α) : Option (Element α × List α) := do
  let (head, inTag) ← Reader.name (Markup.openTag name) (text.dropWhile isBlank)
  let tag ← Reader.upTo (Reader.phrase ['>']) inTag
  let inner ← Reader.upTo (Reader.phraseAnyCase (Markup.closeTag name)) tag.rest
  some (⟨head ++ tag.before ++ tag.taken, inner.before, inner.taken⟩,
    inner.rest.dropWhile isBlank)

theorem read_eq_some_iff {name : List Char} {text rest : List α} {element : Element α} :
    read name text = some (element, rest) ↔
      ∃ head inTag tag inner,
        Reader.name (Markup.openTag name) (text.dropWhile isBlank) = some (head, inTag) ∧
        Reader.upTo (Reader.phrase ['>']) inTag = some tag ∧
        Reader.upTo (Reader.phraseAnyCase (Markup.closeTag name)) tag.rest =
          some inner ∧
        element = ⟨head ++ tag.before ++ tag.taken, inner.before, inner.taken⟩ ∧
        rest = inner.rest.dropWhile isBlank := by
  simp only [read, bind, Option.bind_eq_some_iff, Prod.exists, Option.some.injEq,
    Prod.mk.injEq]
  constructor
  · rintro ⟨head, inTag, first, tag, second, inner, third, rfl, rfl⟩
    exact ⟨head, inTag, tag, inner, first, second, third, rfl, rfl⟩
  · rintro ⟨head, inTag, tag, inner, first, second, third, rfl, rfl⟩
    exact ⟨head, inTag, first, tag, second, inner, third, rfl, rfl⟩

/-- The elements of a name, with the blanks around them. -/
def pattern (name : List Char) : Pattern α (Element α) where
  read := read name
  shrinks text element rest found := by
    rcases read_eq_some_iff.mp found with ⟨head, inTag, tag, inner, first, second, third, _, rfl⟩
    have named := Reader.length_of_name first
    have tagged := Reader.length_rest_of_upTo (Reader.phrase_faithful _) second
    have closed := Reader.length_rest_of_upTo (Reader.phraseAnyCase_faithful _) third
    have before := (List.dropWhile_sublist (isBlank (α := α)) (l := text)).length_le
    have behind := (List.dropWhile_sublist (isBlank (α := α)) (l := inner.rest)).length_le
    simp only [Markup.openTag, List.length_cons] at named
    omega

end Element

end HtmlMinifier
