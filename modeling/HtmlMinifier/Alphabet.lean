/-!
# Alphabets

A document is a list of symbols.  Most symbols are characters, but a symbol may
also stand for a whole stretch of text that has been set aside.  Such a symbol
is opaque: it is no blank, no letter and no delimiter, so nothing that looks for
characters can begin, end or stop inside the stretch it stands for.

Every stage of the minifier is written over an arbitrary alphabet.  Over `Char`
it works on plain text; over a richer alphabet the same definition works on a
document whose protected parts are single symbols.

All character classes are ASCII classes.  A no-break space is content, and `é`
is not a letter of a tag name.
-/

namespace HtmlMinifier

/-- What is said of the characters of a list is decided along the list, and never by
trying all characters there are. -/
instance (priority := high) decidableForallMem {α : Type} (property : α → Prop)
    [DecidablePred property] (list : List α) : Decidable (∀ a ∈ list, property a) :=
  List.decidableBAll property list

/-- Symbols, some of which are characters. -/
class Alphabet (α : Type) where
  /-- The symbol of a character. -/
  ofChar : Char → α
  /-- The character that a symbol is, if it is one. -/
  char? : α → Option Char
  /-- The symbol of a character is that character. -/
  char?_ofChar : ∀ c, char? (ofChar c) = some c
  /-- A character has only one symbol. -/
  ofChar_of_char?_eq_some : ∀ {a c}, char? a = some c → ofChar c = a

instance : Alphabet Char where
  ofChar c := c
  char? := some
  char?_ofChar _ := rfl
  ofChar_of_char?_eq_some h := (Option.some.inj h).symm

namespace Alphabet

@[simp]
theorem ofChar_char (c : Char) : (ofChar c : Char) = c :=
  rfl

@[simp]
theorem char?_char (c : Char) : char? c = some c :=
  rfl

variable {α : Type} [Alphabet α]

/-- Different characters have different symbols. -/
@[simp]
theorem ofChar_inj {c d : Char} : (ofChar c : α) = ofChar d ↔ c = d := by
  constructor
  · intro same
    have found := congrArg char? same
    rwa [char?_ofChar, char?_ofChar, Option.some.injEq] at found
  · rintro rfl
    rfl

/-- The symbols of some characters. -/
def spell (letters : List Char) : List α :=
  letters.map ofChar

@[simp]
theorem spell_nil : (spell [] : List α) = [] :=
  rfl

@[simp]
theorem spell_cons (c : Char) (letters : List Char) :
    (spell (c :: letters) : List α) = ofChar c :: spell letters :=
  rfl

@[simp]
theorem ofChar_mem_spell {c : Char} {letters : List Char} :
    (ofChar c : α) ∈ spell letters ↔ c ∈ letters := by
  simp [spell]

@[simp]
theorem spell_char (letters : List Char) : (spell letters : List Char) = letters :=
  List.map_id letters

/-- Whether a symbol is a character with the given property.  An opaque symbol
has no such property. -/
@[inline]
def satisfies (property : Char → Bool) (a : α) : Bool :=
  match char? a with
  | some c => property c
  | none => false

@[simp]
theorem satisfies_ofChar (property : Char → Bool) (c : Char) :
    satisfies property (ofChar c : α) = property c := by
  simp [satisfies, char?_ofChar]

/-- Properties hold of characters only. -/
theorem satisfies_iff {property : Char → Bool} {a : α} :
    satisfies property a = true ↔ ∃ c, a = ofChar c ∧ property c = true := by
  constructor
  · intro holds
    unfold satisfies at holds
    split at holds
    next c found => exact ⟨c, (ofChar_of_char?_eq_some found).symm, holds⟩
    next => simp at holds
  · rintro ⟨c, rfl, holds⟩
    simpa using holds

/-- Whether a symbol is the given character. -/
@[inline]
def is (c : Char) : α → Bool :=
  satisfies (· == c)

theorem is_iff {c : Char} {a : α} : is c a = true ↔ a = ofChar c := by
  rw [is, satisfies_iff]
  constructor
  · rintro ⟨d, rfl, same⟩
    rw [eq_of_beq same]
  · rintro rfl
    exact ⟨c, rfl, beq_self_eq_true c⟩

/-- Whether a symbol is the given character when ASCII case is ignored. -/
@[inline]
def isAnyCase (c : Char) : α → Bool :=
  satisfies fun d => d.toLower == c.toLower

/-- Whether a symbol is ASCII whitespace: space, TAB, LF, VT, FF or CR. -/
@[inline]
def isBlank : α → Bool :=
  satisfies fun c =>
    c == ' ' || c == '\t' || c == '\n' || c == '\x0b' || c == '\x0c' || c == '\r'

/-- The blanks are six characters. -/
theorem exists_of_isBlank {a : α} (blank : isBlank a = true) :
    ∃ c ∈ [' ', '\t', '\n', '\x0b', '\x0c', '\r'], a = ofChar c := by
  obtain ⟨c, rfl, listed⟩ := satisfies_iff.mp blank
  refine ⟨c, ?_, rfl⟩
  simpa [or_assoc] using listed

/-- What holds of the six holds of every blank character. -/
theorem of_isBlank (property : Char → Prop)
    (each : ∀ c ∈ [' ', '\t', '\n', '\x0b', '\x0c', '\r'], property c) {c : Char}
    (blank : isBlank c = true) : property c := by
  obtain ⟨_, listed, rfl⟩ := exists_of_isBlank blank
  exact each c listed

/-- A symbol that is no blank is no line feed. -/
theorem is_lineFeed_of_inked {a : α} (inked : isBlank a = false) : is '\n' a = false := by
  rw [Bool.eq_false_iff, ne_eq, is_iff]
  rintro rfl
  simp [isBlank] at inked

/-- Whether a symbol is dropped at the margins of a document and of a script:
space, TAB, LF, CR, NUL or VT.  A form feed is blank but is no margin. -/
@[inline]
def isMargin : α → Bool :=
  satisfies fun c =>
    c == ' ' || c == '\t' || c == '\n' || c == '\r' || c == '\x00' || c == '\x0b'

/-- Of the symbols at a margin only the null character is no blank. -/
theorem isBlank_of_isMargin {a : α} (margin : isMargin a = true) (other : a ≠ ofChar '\x00') :
    isBlank a = true := by
  obtain ⟨c, rfl, margin⟩ := satisfies_iff.mp margin
  rw [ne_eq, ofChar_inj] at other
  rw [isBlank, satisfies_ofChar]
  grind

/-- Whether a symbol belongs to a word: an ASCII letter, a digit or `_`. -/
@[inline]
def isWord : α → Bool :=
  satisfies fun c => c.isAlphanum || c == '_'

/-- Whether a symbol is an ASCII letter or `-`. -/
@[inline]
def isNameSymbol : α → Bool :=
  satisfies fun c => c.isAlpha || c == '-'

/-- Whether a word that ends right before the text ends there: no word symbol
follows. -/
def endsWord : List α → Bool
  | [] => true
  | a :: _ => !isWord a

/-- Whether a line that ends right before the text ends there: the text is at
its end or a line feed follows. -/
def endsLine : List α → Bool
  | [] => true
  | a :: _ => is '\n' a

end Alphabet

end HtmlMinifier
