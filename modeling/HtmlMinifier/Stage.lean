import HtmlMinifier.Attribute
import HtmlMinifier.BlockTag
import HtmlMinifier.Comment
import HtmlMinifier.Line
import HtmlMinifier.Region
import HtmlMinifier.TextEdge

/-!
# Stages

A document goes through a fixed sequence of stages.  Some cut protected regions
out, the others change what is there; `pieces` gives both one form, a list of
symbols that stay and of contents that are set aside.

The order matters.  Scripts and style sheets are set aside before comments are
dropped, so nothing inside them is taken for a comment, and a comment around one is
dropped with its token.  Preformatted text and text areas are set aside after that,
so comments inside them are dropped like any other.  All whitespace stages come last,
when only tokens of the regions are left.
-/

namespace HtmlMinifier

/-- A stage of the work on a document. -/
inductive Stage where
  /-- Brings the document to its normal form. -/
  | normalize
  /-- Sets the regions of one kind aside. -/
  | protect (region : Region)
  /-- Drops comments. -/
  | comments
  /-- Trims lines. -/
  | lines
  /-- Moves the tags of blocks up. -/
  | blocks
  /-- Softens the edges of texts. -/
  | texts
  /-- Puts first attributes on lines of their own. -/
  | attributes
  deriving DecidableEq, Repr

namespace Stage

/-- All stages, in the order in which a document goes through them. -/
def order : List Stage :=
  [normalize, protect .script, protect .style, comments, protect .pre, protect .textarea,
    lines, blocks, texts, attributes]

variable {α : Type} [Alphabet α]

/-- What a stage makes of a document: the symbols that stay and the contents
that are set aside, in their order. -/
def pieces : Stage → List α → List (Piece α (List α))
  | normalize, text => (Margin.normalize text).map .kept
  | protect region, text => region.pattern.cut text
  | comments, text => (Comment.strip text).map .kept
  | lines, text => (Line.trim text).map .kept
  | blocks, text => (BlockTag.moveUp text).map .kept
  | texts, text => (TextEdge.collapse text).map .kept
  | attributes, text => (Attribute.reflow text).map .kept

/-- A stage has nothing to do on the empty document. -/
@[simp]
theorem pieces_nil (stage : Stage) : stage.pieces ([] : List α) = [] := by
  cases stage <;> simp [pieces]

end Stage

end HtmlMinifier
