import HtmlMinifier.Pattern

/-!
# Margins and line ends

A document is first brought to a normal form: its margins go, and then each CR LF
in what is left becomes an LF.  The margins go first, so a CR that belonged to a
trimmed line end goes with them.
-/

namespace HtmlMinifier.Margin

open Alphabet

variable {α : Type} [Alphabet α]

/-- Drops the margin symbols at both ends. -/
def trim (text : List α) : List α :=
  ((text.dropWhile isMargin).reverse.dropWhile isMargin).reverse

/-- A carriage return with its line feed. -/
def lineEnd : Pattern α Unit :=
  Pattern.phrase Markup.lineEnd (by decide)

/-- The normal form of a document: without margins, and with every CR LF
written as LF. -/
def normalize (text : List α) : List α :=
  lineEnd.replace (fun _ => [ofChar '\n']) (trim text)

@[simp]
theorem trim_nil : trim ([] : List α) = [] :=
  rfl

@[simp]
theorem normalize_nil : normalize ([] : List α) = [] := by
  simp [normalize]

end HtmlMinifier.Margin
