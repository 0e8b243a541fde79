/-!
# Marks of the markup

The fixed phrases that the minifier looks for and writes, letter by letter.
-/

namespace HtmlMinifier.Markup

/-- The opening of a comment, `<!--`. -/
def commentOpen : List Char :=
  ['<', '!', '-', '-']

/-- The closing of a comment, `-->`. -/
def commentClose : List Char :=
  ['-', '-', '>']

/-- The opening of a marked section, `<![`. -/
def sectionOpen : List Char :=
  ['<', '!', '[']

/-- The opening of a CDATA section, `<![CDATA[`. -/
def cdataOpen : List Char :=
  ['<', '!', '[', 'C', 'D', 'A', 'T', 'A', '[']

/-- The closing of a CDATA section, `]]>`. -/
def cdataClose : List Char :=
  [']', ']', '>']

/-- Two slashes, which begin a line comment of a script. -/
def lineComment : List Char :=
  ['/', '/']

/-- A carriage return with its line feed. -/
def lineEnd : List Char :=
  ['\r', '\n']

/-- The letters of a name behind `<`. -/
def openTag (name : List Char) : List Char :=
  '<' :: name

/-- A close tag, `</name>`. -/
def closeTag (name : List Char) : List Char :=
  '<' :: '/' :: (name ++ ['>'])

end HtmlMinifier.Markup
