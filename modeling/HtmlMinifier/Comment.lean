import HtmlMinifier.Pattern

/-!
# Comments

A comment runs from `<!--` to the first `-->` behind it.  Comments are dropped,
except those that carry a condition for one family of browsers, such as
`<!--[if IE]>` and `<![endif]-->`.  A comment that is never closed is no comment.
-/

namespace HtmlMinifier.Comment

variable {α : Type} [Alphabet α]

/-- A comment at the front of a text: what stands between its markers. -/
def read (text : List α) : Option (List α × List α) := do
  let inside ← Reader.after? Markup.commentOpen text
  let content ← Reader.upTo (Reader.phrase Markup.commentClose) inside
  some (content.before, content.rest)

theorem read_eq_some_iff {text content rest : List α} :
    read text = some (content, rest) ↔
      ∃ inside split, Reader.after? Markup.commentOpen text = some inside ∧
        Reader.upTo (Reader.phrase Markup.commentClose) inside = some split ∧
        content = split.before ∧ rest = split.rest := by
  simp only [read, bind, Option.bind_eq_some_iff, Option.some.injEq, Prod.mk.injEq]
  constructor
  · rintro ⟨inside, first, split, second, rfl, rfl⟩
    exact ⟨inside, split, first, second, rfl, rfl⟩
  · rintro ⟨inside, split, first, second, rfl, rfl⟩
    exact ⟨inside, first, split, second, rfl, rfl⟩

/-- The comments of a text. -/
def pattern : Pattern α (List α) where
  read := read
  shrinks text content rest found := by
    rcases read_eq_some_iff.mp found with ⟨inside, split, first, second, _, rfl⟩
    have opened := Reader.length_of_after? first
    have closed := Reader.length_rest_of_upTo (Reader.phrase_faithful _) second
    have marker : Markup.commentOpen.length = 4 := by decide
    omega

/-- Whether a comment with the given content is a condition: it begins with `[`
or holds `<![`. -/
def isConditional (content : List α) : Bool :=
  (Reader.after? ['['] content).isSome || Reader.occurs Markup.sectionOpen content

/-- What is left of a comment. -/
def residue (content : List α) : List α :=
  if isConditional content then
    Alphabet.spell Markup.commentOpen ++ content ++ Alphabet.spell Markup.commentClose
  else
    []

/-- Drops the plain comments of a document. -/
def strip (text : List α) : List α :=
  pattern.replace residue text

@[simp]
theorem strip_nil : strip ([] : List α) = [] := by
  simp [strip]

end HtmlMinifier.Comment
