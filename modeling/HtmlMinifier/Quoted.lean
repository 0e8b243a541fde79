import HtmlMinifier.Unprintable

/-!
# Quoted text

A path in an error message stands between quotation marks.  A quotation mark and
a backslash inside it get a backslash, and characters that do not print are
written by their escapes or by their code points, so the message stays on one
line and shows what is there.
-/

namespace HtmlMinifier.Quoted

/-- A character by its code point, in hexadecimal. -/
def codePoint (c : Char) : List Char :=
  ['\\', 'u', '\x7b'] ++ Nat.toDigits 16 c.toNat ++ ['\x7d']

/-- A character as it is written between quotation marks. -/
def encodeChar (c : Char) : List Char :=
  match c with
  | '"' => ['\\', '"']
  | '\\' => ['\\', '\\']
  | '\x00' => ['\\', '0']
  | '\t' => ['\\', 't']
  | '\n' => ['\\', 'n']
  | '\r' => ['\\', 'r']
  | c => if Unprintable.holds c then codePoint c else [c]

/-- A text between quotation marks. -/
def encode (text : String) : String :=
  String.ofList ('"' :: (text.toList.flatMap encodeChar ++ ['"']))

end HtmlMinifier.Quoted
