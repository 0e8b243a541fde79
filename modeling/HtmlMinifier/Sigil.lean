import HtmlMinifier.Reader

/-!
# Sigils

While a region is set aside a token stands in its place, and every token of one
document begins with the same sigil.  A sigil is a `%` and 24 letters and digits,
16 of which spell a number.  It has no `%` inside, so it never overlaps itself.

The number is free.  `fresh` counts on from a seed until the sigil does not
occur in the document: a document is shorter than the numbers are many, so one
more candidate than the document has symbols is always enough.
-/

namespace HtmlMinifier

/-- The sigil of a document, told apart by a number. -/
structure Sigil where
  nonce : UInt64
  deriving DecidableEq, Repr

namespace Sigil

/-- The last so many hexadecimal digits of a number, zeros in front included. -/
def digits : Nat → Nat → List Char
  | 0, _ => []
  | count + 1, number => digits count (number / 16) ++ [Nat.digitChar (number % 16)]

/-- The text of a sigil. -/
def text (sigil : Sigil) : List Char :=
  ['%', 's', 'q', 'u', 'e', 'e', 'z', 'e'] ++ digits 16 sigil.nonce.toNat ++ ['x']

@[simp]
theorem length_digits (count number : Nat) : (digits count number).length = count := by
  induction count generalizing number with
  | zero => rfl
  | succ count ih => simp [digits, ih]

@[simp]
theorem length_text (sigil : Sigil) : sigil.text.length = 25 := by
  simp [text]

theorem text_ne_nil (sigil : Sigil) : sigil.text ≠ [] := by
  simp [text]

/-- The sigil after this one; after the last number comes zero. -/
def next (sigil : Sigil) : Sigil :=
  ⟨sigil.nonce + 1⟩

/-- The first of so many sigils that does not occur in a document, or the one
after them. -/
def freshFrom (document : List Char) : Nat → Sigil → Sigil
  | 0, sigil => sigil
  | count + 1, sigil =>
      if Reader.occurs sigil.text document then freshFrom document count sigil.next
      else sigil

/-- A sigil that does not occur in a document, counted from a seed. -/
def fresh (seed : UInt64) (document : List Char) : Sigil :=
  freshFrom document document.length ⟨seed⟩

end Sigil

end HtmlMinifier
