import HtmlMinifier.Stage
import HtmlMinifier.Table

/-!
# Drafts

A draft is a document in the middle of the work: its text, with tokens in it,
and the table of what the tokens stand for.  A stage takes one draft to the
next.  Restoring a draft puts the contents back for the tokens in its text.
-/

namespace HtmlMinifier

/-- A document with tokens and the table that they refer to. -/
structure Draft where
  text : List Char
  table : Table

namespace Draft

/-- The draft of a document in which nothing has been done. -/
def start (sigil : Sigil) (document : String) : Draft :=
  ⟨document.toList, Table.empty sigil⟩

/-- Takes a draft through a stage. -/
def apply (draft : Draft) (stage : Stage) : Draft :=
  let (text, table) := draft.table.park (stage.pieces draft.text)
  ⟨text, table⟩

/-- Takes a draft through several stages. -/
def run (draft : Draft) (stages : List Stage) : Draft :=
  stages.foldl apply draft

/-- The text of a draft with everything put back. -/
def restore (draft : Draft) : String :=
  String.ofList (draft.table.restore draft.text)

/-- How many bytes the text of a draft takes in UTF-8, tokens included. -/
def byteSize (draft : Draft) : Nat :=
  (String.ofList draft.text).utf8ByteSize

@[simp]
theorem run_nil (draft : Draft) : draft.run [] = draft :=
  rfl

@[simp]
theorem run_cons (draft : Draft) (stage : Stage) (stages : List Stage) :
    draft.run (stage :: stages) = (draft.apply stage).run stages :=
  rfl

theorem run_append (draft : Draft) (first second : List Stage) :
    draft.run (first ++ second) = (draft.run first).run second := by
  simp [run]

end Draft

end HtmlMinifier
