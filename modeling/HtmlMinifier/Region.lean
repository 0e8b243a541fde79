import HtmlMinifier.Element
import HtmlMinifier.Wrapper

/-!
# Protected regions

Inside four kinds of element whitespace has a meaning, or what looks like markup
is none.  These elements are cut out of a document, with the blanks around them.
Scripts and style sheets lose their wrappers on the way and close with a tag in
lower case; preformatted text and text areas are set aside as they are found.
-/

namespace HtmlMinifier

/-- The elements whose contents are protected. -/
inductive Region where
  | script
  | style
  | pre
  | textarea
  deriving DecidableEq, Repr

namespace Region

variable {α : Type} [Alphabet α]

/-- The name of the element, in lower case. -/
def name : Region → List Char
  | script => ['s', 'c', 'r', 'i', 'p', 't']
  | style => ['s', 't', 'y', 'l', 'e']
  | pre => ['p', 'r', 'e']
  | textarea => ['t', 'e', 'x', 't', 'a', 'r', 'e', 'a']

/-- What is kept of an element. -/
def content : Region → Element α → List α
  | script, element =>
      element.opening ++ Wrapper.script element.body ++ Alphabet.spell (Markup.closeTag script.name)
  | style, element =>
      element.opening ++ Wrapper.style element.body ++ Alphabet.spell (Markup.closeTag style.name)
  | pre, element => element.text
  | textarea, element => element.text

/-- The elements of a kind, each with what is kept of it. -/
def pattern (region : Region) : Pattern α (List α) :=
  (Element.pattern region.name).map region.content

theorem read_pattern (region : Region) (text : List α) :
    region.pattern.read text =
      (Element.read region.name text).map (Prod.map region.content id) := by
  simp only [pattern, Pattern.map, Element.pattern]
  cases Element.read region.name text <;> rfl

end Region

end HtmlMinifier
