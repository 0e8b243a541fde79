import HtmlMinifier.Token
import HtmlMinifier.Pattern

/-!
# The table of what is set aside

A table holds the contents that have been set aside, in the order in which this
happened, under one sigil.  The token of a content names its place.

A content may hold tokens of contents that were set aside before it.  Expanding the
content at an index follows tokens below that index only, and so it ends for every
table and every text.
-/

namespace HtmlMinifier

/-- Contents set aside, and the sigil of their tokens. -/
structure Table where
  sigil : Sigil
  entries : Array (List Char)

namespace Table

/-- A table with nothing in it. -/
def empty (sigil : Sigil) : Table :=
  ⟨sigil, #[]⟩

/-- How many contents a table holds. -/
def size (table : Table) : Nat :=
  table.entries.size

/-- The token of the next content. -/
def nextToken (table : Table) : List Char :=
  Token.text table.sigil table.size

/-- Sets a content aside. -/
def insert (table : Table) (content : List Char) : Table :=
  { table with entries := table.entries.push content }

@[simp]
theorem sigil_insert (table : Table) (content : List Char) :
    (table.insert content).sigil = table.sigil :=
  rfl

@[simp]
theorem size_insert (table : Table) (content : List Char) :
    (table.insert content).size = table.size + 1 := by
  simp [insert, size]

/-- Puts the tokens of a text into a table's place, after what is already done,
backwards. -/
def parkFrom (table : Table) (done : List Char) :
    List (Piece Char (List Char)) → List Char × Table
  | [] => (done.reverse, table)
  | .kept c :: pieces => parkFrom table (c :: done) pieces
  | .found content :: pieces =>
      parkFrom (table.insert content) (table.nextToken.reverse ++ done) pieces

/-- Sets every match of a text aside, leaving its token, and gives the text and
the table. -/
def park (table : Table) (pieces : List (Piece Char (List Char))) : List Char × Table :=
  parkFrom table [] pieces

theorem parkFrom_eq (table : Table) (done : List Char)
    (pieces : List (Piece Char (List Char))) :
    table.parkFrom done pieces =
      (done.reverse ++ (table.park pieces).1, (table.park pieces).2) := by
  unfold park
  induction pieces generalizing table done with
  | nil => simp [parkFrom]
  | cons piece pieces ih =>
      cases piece with
      | kept c =>
          rw [parkFrom, parkFrom, ih, ih table [c]]
          simp
      | found content =>
          rw [parkFrom, parkFrom, ih, ih _ (table.nextToken.reverse ++ [])]
          simp

@[simp]
theorem park_nil (table : Table) : table.park [] = ([], table) :=
  rfl

@[simp]
theorem park_kept (table : Table) (c : Char) (pieces : List (Piece Char (List Char))) :
    table.park (.kept c :: pieces) = (c :: (table.park pieces).1, (table.park pieces).2) := by
  rw [park, parkFrom, parkFrom_eq]
  simp

@[simp]
theorem park_found (table : Table) (content : List Char)
    (pieces : List (Piece Char (List Char))) :
    table.park (.found content :: pieces) =
      (table.nextToken ++ ((table.insert content).park pieces).1,
        ((table.insert content).park pieces).2) := by
  rw [park, parkFrom, parkFrom_eq]
  simp

/-- Where nothing is set aside, text and table stay as they are. -/
@[simp]
theorem park_map_kept (table : Table) (text : List Char) :
    table.park (text.map .kept) = (text, table) := by
  induction text with
  | nil => simp
  | cons c text ih => simp [ih]

/-- The content at an index. -/
def content (table : Table) (index : Nat) : List Char :=
  table.entries.getD index []

/-- Replaces the tokens below a limit by what they stand for, to every depth. -/
def expand (table : Table) (limit : Nat) (text : List Char) : List Char :=
  (Token.segments table.sigil limit text).flatMap fun segment =>
    match segment with
    | .plain text => text
    | .token index => expand table index (table.content index)
termination_by limit
decreasing_by exact index.isLt

/-- Puts everything that was set aside back into a text. -/
def restore (table : Table) (text : List Char) : List Char :=
  table.expand table.size text

end Table

end HtmlMinifier
