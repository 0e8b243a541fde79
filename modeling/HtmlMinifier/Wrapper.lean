import HtmlMinifier.Margin

/-!
# Wrappers of scripts and style sheets

Old pages hide the body of a script or of a style sheet from browsers that do
not know the element: in a comment, in a CDATA section, or in both.  `script`
and `style` take one such wrapper away and trim what is left.

The opening and the closing half are independent.  The closing half of a script
may stand behind a `//`, which hides it from the script; in a style sheet `//`
hides nothing and is kept.  A closing half counts only when nothing but blanks
follows, and of several places where it could begin the first one is taken.

The CDATA markers are erased only when an opening marker is there, since `]]>`
alone can be part of a program.
-/

namespace HtmlMinifier.Wrapper

open Alphabet

variable {α : Type} [Alphabet α]

/-- The text behind an opening comment marker, blanks before it included. -/
def opened? (text : List α) : Option (List α) :=
  Reader.after? Markup.commentOpen (text.dropWhile isBlank)

/-- Whether a text is a closing comment marker and blanks. -/
def isClosing (text : List α) : Bool :=
  match Reader.after? Markup.commentClose text with
  | some rest => rest.all isBlank
  | none => false

/-- Whether a text is a closing comment marker and blanks, perhaps behind a
`//`, with blanks before either. -/
def isScriptClosing (text : List α) : Bool :=
  let text := text.dropWhile isBlank
  let text := (Reader.after? Markup.lineComment text).getD text
  isClosing (text.dropWhile isBlank)

/-- Drops the longest end of a text that has the given property. -/
def dropEnd (isEnd : List α → Bool) (text : List α) : List α :=
  match Reader.upTo (fun rest => if isEnd rest then some (rest, []) else none) text with
  | some split => split.before
  | none => text

/-- The comment wrapper of a script, taken away. -/
def uncommentScript (body : List α) : List α :=
  dropEnd isScriptClosing ((opened? body).elim body fun rest => rest.dropWhile isBlank)

/-- The comment wrapper of a style sheet, taken away. -/
def uncommentStyle (body : List α) : List α :=
  dropEnd isClosing ((opened? body).getD body)

/-- An opening CDATA marker. -/
def cdataOpen : Pattern α Unit :=
  Pattern.phrase Markup.cdataOpen (by decide)

/-- A closing CDATA marker. -/
def cdataClose : Pattern α Unit :=
  Pattern.phrase Markup.cdataClose (by decide)

/-- Erases the CDATA markers of a body that holds an opening one: first all
opening markers, then all closing ones. -/
def eraseCdata (body : List α) : List α :=
  if Reader.occurs Markup.cdataOpen body then
    cdataClose.replace (fun _ => []) (cdataOpen.replace (fun _ => []) body)
  else
    body

/-- The body of a script without its wrapper. -/
def script (body : List α) : List α :=
  Margin.trim (eraseCdata (uncommentScript body))

/-- The body of a style sheet without its wrapper. -/
def style (body : List α) : List α :=
  Margin.trim (eraseCdata (uncommentStyle body))

/-- A body without an opening CDATA marker keeps its closing ones. -/
theorem eraseCdata_of_not_occurs {body : List α}
    (absent : Reader.occurs Markup.cdataOpen body = false) : eraseCdata body = body := by
  simp [eraseCdata, absent]

end HtmlMinifier.Wrapper
