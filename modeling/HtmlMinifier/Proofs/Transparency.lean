import HtmlMinifier.Proofs.Slot
import HtmlMinifier.Proofs.StageEncoding
import HtmlMinifier.Proofs.StageThinning

/-!
# Tokens are transparent

A draft stands for a document of symbols when some document of slots is written
as the text of the draft, means the symbols, and has its tokens held by the table.
Every stage takes a draft and the symbols it stands for to a draft and the symbols
that it then stands for, so restoring the last draft gives what the minifier on
symbols gives.

Besides the tokens only the sigil matters: its characters must not occur in the
document in their order.  This is kept along the way, since stages only drop
characters and change blanks, whatever the deletions bring together.  A close tag
that is written anew can give a content new letters, but behind a `<`, which no
sigil holds.
-/

namespace HtmlMinifier

open Alphabet

/-- A sigil holds no blanks. -/
theorem Sigil.isBlank_of_mem_text (sigil : Sigil) : ∀ c ∈ sigil.text, isBlank c = false := by
  intro c member
  have inToken : c ∈ Token.text sigil 0 := by simp [Token.text, member]
  exact Encoding.isBlank_of_inert (Token.inert_of_mem_text inToken)

namespace Slot

/-- What a slot adds to the characters of a document, tokens and blanks apart. -/
def ink : Slot → List Char
  | char c => if isBlank c then [] else [c]
  | token .. => []

/-- The characters of a sigil do not occur in a document in their order, not even
with others between them. -/
def Fresh (sigil : Sigil) (slots : List Slot) : Prop :=
  ¬ sigil.text.Sublist (slots.flatMap ink)

theorem ink_of_isBlank (a : Slot) (blank : isBlank a = true) : ink a = [] := by
  cases a with
  | char c => exact if_pos blank
  | token index content => rfl

theorem flatMap_ink_map_char_sublist (text : List Char) :
    ((text.map char).flatMap ink).Sublist text := by
  induction text with
  | nil => exact List.Sublist.refl _
  | cons c text ih =>
      rw [List.map_cons, List.flatMap_cons, ink]
      split
      · exact ih.cons c
      · exact ih.cons_cons c

variable {sigil : Sigil} {slots slots' : List Slot}

theorem flatMap_ink_text (sigil : Sigil) : (sigil.text.map char).flatMap ink = sigil.text := by
  have inked := sigil.isBlank_of_mem_text
  generalize sigil.text = text at inked
  induction text with
  | nil => rfl
  | cons c text ih =>
      have first := inked c List.mem_cons_self
      have others := ih fun d member => inked d (List.mem_cons_of_mem c member)
      rw [List.map_cons, List.flatMap_cons, others]
      simp [ink, first]

theorem Fresh.of_shortened (fresh : Fresh sigil slots) (shortened : Shortened slots' slots) :
    Fresh sigil slots' :=
  fun occurs => fresh (occurs.trans (shortened.flatMap_sublist ink_of_isBlank))

theorem Fresh.clean (fresh : Fresh sigil slots) : Clean sigil slots := by
  intro inside
  apply fresh
  rw [← flatMap_ink_text sigil]
  exact (Thinned.of_sublist inside.sublist).flatMap_sublist ink_of_isBlank

/-- A sigil that is not in a document is not in the document with a close tag
behind it. -/
theorem Clean.append_closeTag (clean : Clean sigil slots) (region : Region) :
    Clean sigil (slots ++ spell (Markup.closeTag region.name)) := by
  have noAngle : char '<' ∉ sigil.text.map char := by
    intro member
    rcases List.mem_map.mp member with ⟨c, inText, same⟩
    have inToken : c ∈ Token.text sigil 0 := by simp [Token.text, inText]
    have inert : isMark c = false := Token.inert_of_mem_text inToken
    rw [Slot.char.injEq] at same
    rw [same] at inert
    exact absurd inert (by decide)
  have short : (spell (Markup.closeTag region.name) : List Slot).length <
      (sigil.text.map char).length := by
    rw [List.length_map, Sigil.length_text]
    cases region <;> decide
  intro inside
  rcases List.infix_append_iff_ne_nil.mp inside with
    front | back | ⟨first, second, _, second_ne_nil, halves, _, start⟩
  · exact clean front
  · exact absurd back.length_le (Nat.not_le_of_lt short)
  · -- a sigil that reaches into the close tag would hold its `<`
    rcases List.exists_cons_of_ne_nil second_ne_nil with ⟨a, rest, rfl⟩
    have same : a = char '<' := (List.cons_prefix_cons.mp start).1
    apply noAngle
    rw [halves, same]
    exact List.mem_append_right first List.mem_cons_self

/-- A content that a stage sets aside is clean when the document is fresh. -/
theorem Fresh.clean_of_mem_pieces (fresh : Fresh sigil slots) {stage : Stage} {content : List Slot}
    (member : .found content ∈ stage.pieces slots) : Clean sigil content := by
  rcases stage.exists_core member with ⟨core, shortened, rfl | ⟨region, rfl⟩⟩
  · exact (fresh.of_shortened shortened).clean
  · exact (fresh.of_shortened shortened).clean.append_closeTag region

/-- Gives the contents of pieces tokens, with indices from `next` on. -/
def park (next : Nat) : List (Piece Slot (List Slot)) → List Slot
  | [] => []
  | .kept a :: pieces => a :: park next pieces
  | .found content :: pieces => token next (meant.encode content) :: park (next + 1) pieces

theorem flatMap_ink_park (next : Nat) (pieces : List (Piece Slot (List Slot))) :
    (park next pieces).flatMap ink = (pieces.flatMap (Piece.text fun _ => [])).flatMap ink := by
  induction pieces generalizing next with
  | nil => rfl
  | cons piece pieces ih => cases piece <;> simp [park, Piece.text, ih, ink]

/-- Parked pieces mean the pieces of what is meant. -/
theorem meant_park (next : Nat) (pieces : List (Piece Slot (List Slot))) :
    meant.encode (park next pieces) =
      (pieces.flatMap (meant.piece meant.encode)).map Symbol.ofPiece := by
  induction pieces generalizing next with
  | nil => rfl
  | cons piece pieces ih =>
      rw [List.flatMap_cons, List.map_append]
      cases piece with
      | kept a =>
          rw [park, Encoding.encode_cons, ih, Encoding.piece, List.map_map]
          congr 1
          cases a <;> rfl
      | found content =>
          rw [park, Encoding.encode_cons, ih (next + 1)]
          rfl

end Slot

namespace Table

open Slot

theorem park_map_kept_append (table : Table) (text : List Char)
    (pieces : List (Piece Char (List Char))) :
    table.park (text.map .kept ++ pieces) =
      (text ++ (table.park pieces).1, (table.park pieces).2) := by
  induction text with
  | nil => rfl
  | cons c text ih => rw [List.map_cons, List.cons_append, park_kept, ih]; rfl

@[simp]
theorem sigil_park (table : Table) (pieces : List (Piece Char (List Char))) :
    (table.park pieces).2.sigil = table.sigil := by
  induction pieces generalizing table with
  | nil => rfl
  | cons piece pieces ih => cases piece <;> simp [ih]

/-- What a table holds it still holds when pieces are set aside. -/
theorem Holds.park {table : Table} {index : Nat} {content : List Symbol}
    (held : table.Holds index content) (pieces : List (Piece Char (List Char))) :
    (table.park pieces).2.Holds index content := by
  induction pieces generalizing table with
  | nil => exact held
  | cons piece pieces ih =>
      cases piece with
      | kept c => rw [park_kept]; exact ih held
      | found inner => rw [park_found]; exact ih (held.insert inner)

/-- A table holds every token that it knows of a document. -/
def HoldsAll (table : Table) (slots : List Slot) : Prop :=
  ∀ index content, Slot.token index content ∈ slots → table.Holds index content

theorem HoldsAll.insert {table : Table} {slots : List Slot} (held : table.HoldsAll slots)
    (content : List Char) : (table.insert content).HoldsAll slots :=
  fun index inner member => (held index inner member).insert content

/-- A content is held once it is set aside. -/
theorem Holds.of_insert {table : Table} {content : List Slot} (clean : Clean table.sigil content)
    (held : table.HoldsAll content) :
    (table.insert ((written table.sigil).encode content)).Holds table.size
      (meant.encode content) :=
  Holds.intro (by simp) (content_insert_size _) clean
    (fun index inner member => (held index inner member).index_lt)
    (fun index inner member => (held index inner member).insert _)

/-- Setting written pieces aside writes the parked pieces. -/
theorem text_park_written (table : Table) (pieces : List (Piece Slot (List Slot))) :
    (table.park (pieces.flatMap
      ((written table.sigil).piece (written table.sigil).encode))).1 =
        (written table.sigil).encode (Slot.park table.size pieces) := by
  induction pieces generalizing table with
  | nil => rfl
  | cons piece pieces ih =>
      rw [List.flatMap_cons]
      cases piece with
      | kept a =>
          rw [Encoding.piece, park_map_kept_append, ih]
          rfl
      | found content =>
          have next := ih (table.insert ((written table.sigil).encode content))
          rw [sigil_insert, size_insert] at next
          rw [Encoding.piece, List.singleton_append, park_found, next]
          rfl

/-- The table then holds the tokens of the parked pieces. -/
theorem holdsAll_park_written (table : Table) (pieces : List (Piece Slot (List Slot)))
    (kept : ∀ a, .kept a ∈ pieces → table.HoldsAll [a])
    (found : ∀ content, .found content ∈ pieces →
      Clean table.sigil content ∧ table.HoldsAll content) :
    (table.park (pieces.flatMap
      ((written table.sigil).piece (written table.sigil).encode))).2.HoldsAll
        (Slot.park table.size pieces) := by
  induction pieces generalizing table with
  | nil => exact fun _ _ member => absurd member List.not_mem_nil
  | cons piece pieces ih =>
      have kept' := fun a member => kept a (List.mem_cons_of_mem piece member)
      have found' := fun content member => found content (List.mem_cons_of_mem piece member)
      rw [List.flatMap_cons]
      cases piece with
      | kept a =>
          rw [Encoding.piece, park_map_kept_append]
          intro index content member
          rw [Slot.park, List.mem_cons] at member
          rcases member with here | later
          · exact (kept a List.mem_cons_self index content (by simp [here])).park _
          · exact ih table kept' found' index content later
      | found content =>
          obtain ⟨clean, inside⟩ := found content List.mem_cons_self
          have next := ih (table.insert ((written table.sigil).encode content))
            (fun a member => (kept' a member).insert _)
            (fun inner member => ⟨(found' inner member).1, (found' inner member).2.insert _⟩)
          rw [sigil_insert, size_insert] at next
          rw [Encoding.piece, List.singleton_append, park_found]
          intro index inner member
          rw [Slot.park, List.mem_cons, Slot.token.injEq] at member
          rcases member with ⟨rfl, rfl⟩ | later
          · exact (Holds.of_insert clean inside).park _
          · exact next index inner later

end Table

/-- A draft stands for a document of symbols: they are two readings of one
document of slots. -/
def Draft.StandsFor (draft : Draft) (text : List Symbol) : Prop :=
  ∃ slots, draft.text = (Slot.written draft.table.sigil).encode slots ∧
    text = Slot.meant.encode slots ∧ Slot.Fresh draft.table.sigil slots ∧
      draft.table.HoldsAll slots

namespace Draft

/-- A draft at the start stands for its document. -/
theorem start_standsFor {sigil : Sigil} {document : String}
    (absent : ¬ sigil.text.Sublist document.toList) :
    (start sigil document).StandsFor (Symbol.start document) := by
  refine ⟨spell document.toList, ?_, ?_, ?_, ?_⟩
  · rw [Encoding.encode_spell, spell_char]
    rfl
  · rw [Encoding.encode_spell]
    rfl
  · intro occurs
    exact absent (occurs.trans (Slot.flatMap_ink_map_char_sublist _))
  · intro index content member
    simp [Slot.spell_eq] at member

/-- A stage takes a draft and what it stands for along together. -/
theorem StandsFor.apply {draft : Draft} {text : List Symbol} (stands : draft.StandsFor text)
    (stage : Stage) : (draft.apply stage).StandsFor (Symbol.apply text stage) := by
  rcases stands with ⟨slots, written, rfl, fresh, held⟩
  have pieces := stage.pieces_encode (Slot.written draft.table.sigil) slots
  have parked := Table.holdsAll_park_written draft.table (stage.pieces slots)
    (by
      intro a member index content inside
      rw [List.mem_singleton] at inside
      exact held index content ((Stage.mem_of_mem_pieces rfl).1 (inside ▸ member)))
    (fun inner member => ⟨fresh.clean_of_mem_pieces member,
      fun index content inside =>
        held index content ((Stage.mem_of_mem_pieces rfl).2 inner member inside)⟩)
  refine ⟨Slot.park draft.table.size (stage.pieces slots), ?_, ?_, ?_, ?_⟩
  · simp only [Draft.apply, written, pieces, Table.sigil_park]
    exact draft.table.text_park_written (stage.pieces slots)
  · rw [Symbol.apply, stage.pieces_encode, Slot.meant_park]
  · simp only [Draft.apply, Table.sigil_park]
    intro occurs
    rw [Slot.flatMap_ink_park] at occurs
    exact fresh.of_shortened (stage.shortened_kept slots) occurs
  · simp only [Draft.apply, written, pieces]
    exact parked

/-- Stages take a draft and what it stands for along together. -/
theorem StandsFor.run {draft : Draft} {text : List Symbol} (stands : draft.StandsFor text)
    (stages : List Stage) : (draft.run stages).StandsFor (Symbol.run text stages) := by
  induction stages generalizing draft text with
  | nil => exact stands
  | cons stage stages ih => exact ih (stands.apply stage)

/-- Restoring a draft gives the text of what it stands for. -/
theorem StandsFor.restore_eq {draft : Draft} {text : List Symbol} (stands : draft.StandsFor text) :
    draft.restore = String.ofList (Symbol.flattenAll text) := by
  obtain ⟨slots, written, rfl, fresh, held⟩ := stands
  rw [restore, Table.restore, written, Table.expand_written fresh.clean
    (fun index content member => (held index content member).index_lt) held]

/-- Wherever the work on a document is stopped, the draft restores to the text of
the symbols. -/
theorem restore_run_start {sigil : Sigil} {document : String}
    (absent : ¬ sigil.text.Sublist document.toList) (stages : List Stage) :
    ((start sigil document).run stages).restore =
      String.ofList (Symbol.flattenAll (Symbol.run (Symbol.start document) stages)) :=
  ((start_standsFor absent).run stages).restore_eq

end Draft

/-- Every token begins with a percent sign, so without one it makes no difference which sigil
is used. -/
theorem minifyWith_of_percent_notMem {document : String} (plain : '%' ∉ document.toList)
    (sigil : Sigil) : minifyWith sigil document = minifySymbols document := by
  refine Draft.restore_run_start (fun within => ?_) Stage.order
  exact plain (within.subset (sigil.text_eq_cons ▸ List.mem_cons_self))

/-- A document that does not hold the characters of a sigil in their order is
minified with that sigil as it is minified without tokens. -/
theorem minifyWith_eq_minifySymbols {sigil : Sigil} {document : String}
    (absent : ¬ sigil.text.Sublist document.toList) :
    minifyWith sigil document = minifySymbols document :=
  Draft.restore_run_start absent Stage.order

/-- The text behind a protected region would complete a token with the `%` of the
token in front of it. -/
theorem minifyWith_eq_minifySymbols_behind_region :
    ¬ (Sigil.mk 0).text.Sublist "<pre> a </pre>squeeze0000000000000000x0%".toList ∧
      minifyWith ⟨0⟩ "<pre> a </pre>squeeze0000000000000000x0%" =
        minifySymbols "<pre> a </pre>squeeze0000000000000000x0%" :=
  ⟨by decide +kernel, minifyWith_eq_minifySymbols (by decide +kernel)⟩

end HtmlMinifier
