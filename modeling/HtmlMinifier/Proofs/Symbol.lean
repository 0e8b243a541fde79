import HtmlMinifier.Minification

/-!
# Documents of symbols

A document of symbols needs no tokens: a region that has been set aside stands in
it as one opaque symbol, which carries what is kept of the region.  That content
is itself a document of symbols, since a region can hold others.

The stages run over documents of symbols as they are, and `minifySymbols` is the
minifier that has no table, no sigil and nothing to restore.  It says what the
minifier is meant to do with protected regions; that the tokens of a real run get
it right is shown elsewhere.
-/

namespace HtmlMinifier

/-- A character, or an opaque symbol for what has been set aside. -/
inductive Symbol where
  | char (c : Char)
  | stored (content : List Symbol)

namespace Symbol

instance : Alphabet Symbol where
  ofChar := char
  char?
    | char c => some c
    | stored _ => none
  char?_ofChar _ := rfl
  ofChar_of_char?_eq_some {a c} found := by
    cases a with
    | char d => exact congrArg char (Option.some.inj found).symm
    | stored content => contradiction

@[simp]
theorem ofChar_eq (c : Char) : (Alphabet.ofChar c : Symbol) = char c :=
  rfl

mutual

/-- The text that a symbol stands for, to every depth. -/
def flatten : Symbol → List Char
  | char c => [c]
  | stored content => flattenAll content

/-- The text that a document of symbols stands for. -/
def flattenAll : List Symbol → List Char
  | [] => []
  | a :: text => flatten a ++ flattenAll text

end

theorem flattenAll_eq_flatMap (text : List Symbol) : flattenAll text = text.flatMap flatten := by
  induction text with
  | nil => rfl
  | cons a text ih => rw [flattenAll, ih, List.flatMap_cons]

@[simp]
theorem flattenAll_map_char (text : List Char) : flattenAll (text.map char) = text := by
  induction text with
  | nil => rfl
  | cons c text ih => simp [flattenAll, flatten, ih]

@[simp]
theorem flattenAll_append (first second : List Symbol) :
    flattenAll (first ++ second) = flattenAll first ++ flattenAll second := by
  simp [flattenAll_eq_flatMap]

/-- A piece of a document as one symbol: a content that is set aside becomes
opaque. -/
def ofPiece : Piece Symbol (List Symbol) → Symbol
  | .kept a => a
  | .found content => stored content

/-- Takes a document of symbols through a stage. -/
def apply (text : List Symbol) (stage : Stage) : List Symbol :=
  (stage.pieces text).map ofPiece

/-- A stage that sets nothing aside changes the symbols only. -/
theorem apply_of_pieces_eq {text result : List Symbol} {stage : Stage}
    (pieces : stage.pieces text = result.map .kept) : apply text stage = result := by
  rw [apply, pieces, List.map_map]
  exact List.map_id result

/-- Setting a content aside leaves the text that a document stands for as it is
when the content is written in its place. -/
theorem flattenAll_apply (text : List Symbol) (stage : Stage) :
    flattenAll (apply text stage) = flattenAll ((stage.pieces text).flatMap (Piece.text id)) := by
  rw [apply]
  induction stage.pieces text with
  | nil => rfl
  | cons piece pieces ih =>
      rw [List.map_cons, List.flatMap_cons, flattenAll, flattenAll_append, ih]
      cases piece with
      | kept a => simp [ofPiece, Piece.text, flattenAll]
      | found content => rw [ofPiece, flatten, Piece.text, id]

/-- Takes a document of symbols through several stages. -/
def run (text : List Symbol) (stages : List Stage) : List Symbol :=
  stages.foldl apply text

/-- The document of symbols in which nothing has been set aside. -/
def start (document : String) : List Symbol :=
  document.toList.map char

@[simp]
theorem run_nil (text : List Symbol) : run text [] = text :=
  rfl

@[simp]
theorem run_cons (text : List Symbol) (stage : Stage) (stages : List Stage) :
    run text (stage :: stages) = run (apply text stage) stages :=
  rfl

theorem run_append (text : List Symbol) (first second : List Stage) :
    run text (first ++ second) = run (run text first) second := by
  simp [run]

end Symbol

/-- Minifies a document without tokens: the stages run over symbols, and in the
end every symbol is replaced by the text that it stands for. -/
def minifySymbols (document : String) : String :=
  String.ofList (Symbol.flattenAll (Symbol.run (Symbol.start document) Stage.order))

end HtmlMinifier
