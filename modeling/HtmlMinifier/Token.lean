import HtmlMinifier.Sigil

/-!
# Tokens

A token is a sigil, an index in decimal digits and a closing `%`.  A text counts
as a token only where its index is below a limit; what looks like a token but is
none stays text.

Tokens are found from left to right.  Each one takes its closing `%` with it, so
that `%` cannot open the sigil of a next token.
-/

namespace HtmlMinifier.Token

/-- The token of an index. -/
def text (sigil : Sigil) (index : Nat) : List Char :=
  sigil.text ++ Nat.toDigits 10 index ++ ['%']

/-- An index below the limit with its closing `%`.  Leading zeros count for
nothing. -/
def readIndex (limit : Nat) (text : List Char) : Option (Fin limit × List Char) :=
  let digits := text.takeWhile Char.isDigit
  let index := Nat.ofDigitChars 10 digits 0
  match text.dropWhile Char.isDigit with
  | '%' :: rest =>
      if digits.isEmpty then none
      else if below : index < limit then some (⟨index, below⟩, rest)
      else none
  | _ => none

theorem length_of_readIndex {limit : Nat} {text rest : List Char} {index : Fin limit}
    (read : readIndex limit text = some (index, rest)) : rest.length < text.length := by
  have sublist := (List.dropWhile_sublist Char.isDigit (l := text)).length_le
  simp only [readIndex] at read
  split at read
  next rest' shape =>
    rw [shape, List.length_cons] at sublist
    split at read
    · simp at read
    · split at read
      · simp only [Option.some.injEq, Prod.mk.injEq] at read
        exact read.2 ▸ sublist
      · simp at read
  next => simp at read

/-- A part of a text with tokens. -/
inductive Segment (limit : Nat) where
  /-- Text without tokens. -/
  | plain (text : List Char)
  /-- The token of an index. -/
  | token (index : Fin limit)

/-- Cuts a text at the tokens below a limit. -/
def segments (sigil : Sigil) (limit : Nat) (text : List Char) : List (Segment limit) :=
  match _ : Reader.upTo (Reader.phrase sigil.text) text with
  | none => [.plain text]
  | some split =>
      match _ : readIndex limit split.rest with
      | some (index, rest) =>
          .plain split.before :: .token index :: segments sigil limit rest
      | none => .plain (split.before ++ split.taken) :: segments sigil limit split.rest
termination_by text.length
decreasing_by
  · have shorter := length_of_readIndex ‹_›
    have behind := Reader.length_rest_of_upTo (Reader.phrase_faithful _) ‹_›
    omega
  · exact Reader.length_rest_of_upTo_phrase sigil.text_ne_nil ‹_›

end HtmlMinifier.Token
