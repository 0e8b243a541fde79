import HtmlMinifier.Proofs.TokenScan

/-!
# The ledger of tokens

Each index that a table has given out stands in one place: in the text of the draft, in one
of the contents, or in a comment that was dropped on the way.  The ledger of a draft says
so of the documents of slots that its text and its contents are written for.  A stage that
sets contents aside moves their tokens from the text to the table and adds one token for
each; the stage that drops comments strikes the tokens in them; no other stage touches a
token.
-/

namespace HtmlMinifier

open Alphabet

/-! ## Dropped comments -/

namespace Comment

section Dropped

variable {α : Type} [Alphabet α]

/-- The contents of the comments that are dropped from a text. -/
def dropped (text : List α) : List (List α) :=
  (Piece.allFound (pattern.cut text)).filter fun content => !isConditional content

theorem dropped_of_some {text content rest : List α}
    (found : pattern.read text = some (content, rest)) :
    dropped text = (if isConditional content then [] else [content]) ++ dropped rest := by
  rw [dropped, Pattern.cut_of_some found, Piece.allFound, List.filter_cons, dropped]
  cases isConditional content <;> rfl

theorem dropped_cons_of_none {a : α} {text : List α} (refused : pattern.read (a :: text) = none) :
    dropped (a :: text) = dropped text := by
  rw [dropped, Pattern.cut_cons_of_none refused, Piece.allFound, dropped]

theorem sublist_of_mem_dropped {text content : List α} (member : content ∈ dropped text) :
    content.Sublist text := by
  have inCut := Piece.mem_allFound.mp (List.mem_filter.mp member).1
  obtain ⟨matched, within, inner⟩ := Pattern.exists_matched_of_mem_cut
    (fun content matched => content.Sublist matched)
    (fun text content rest found => ⟨_, append_of_read found,
      (List.sublist_append_right _ content).trans (List.sublist_append_left _ _)⟩) inCut
  exact inner.trans within

/-- What a reading of symbols finds in a text it finds in what is left of the text and in
the comments that are dropped, if it passes over characters. -/
theorem strip_append_dropped_perm {γ : Type} {view : α → List γ}
    (passes : ∀ c, view (ofChar c) = []) (text : List α) :
    ((strip text).flatMap view ++
      (dropped text).flatMap fun content => content.flatMap view).Perm (text.flatMap view) := by
  have word : ∀ letters : List Char, (spell letters : List α).flatMap view = [] := by
    intro letters
    rw [spell, List.flatMap_map, List.flatMap_eq_nil_iff]
    exact fun c _ => passes c
  induction text using (pattern (α := α)).induction with
  | nil => simp [dropped, Piece.allFound]
  | found text content rest found ih =>
      have whole : text.flatMap view = content.flatMap view ++ rest.flatMap view := by
        rw [append_of_read found]
        simp [word]
      have left : strip text = residue content ++ strip rest := Pattern.replace_of_some found
      rw [left, dropped_of_some found, whole, residue]
      split
      · -- the comment stays, with all that is in it
        simp only [List.flatMap_append, word, List.nil_append, List.append_assoc]
        exact ih.append_left _
      · simp only [List.nil_append, List.flatMap_append, List.flatMap_singleton]
        exact (List.perm_append_comm_assoc _ _ _).trans (ih.append_left _)
  | kept a text refused ih =>
      have left : strip (a :: text) = a :: strip text := Pattern.replace_cons_of_none refused
      rw [left, dropped_cons_of_none refused, List.flatMap_cons, List.flatMap_cons,
        List.append_assoc]
      exact ih.append_left _

end Dropped

end Comment

/-- The matches in the pieces of an encoded text. -/
theorem Encoding.allFound_flatMap_piece {α β γ δ : Type} [Alphabet α] [Alphabet β]
    (encoding : Encoding α β) (describe : γ → δ) (pieces : List (Piece α γ)) :
    Piece.allFound (pieces.flatMap (encoding.piece describe)) =
      (Piece.allFound pieces).map describe := by
  have silent : ∀ (word : List β) (rest : List (Piece β δ)),
      Piece.allFound (word.map .kept ++ rest) = Piece.allFound rest := by
    intro word rest
    induction word with
    | nil => rfl
    | cons b word ih => exact ih
  induction pieces with
  | nil => rfl
  | cons piece pieces ih =>
      rw [List.flatMap_cons]
      cases piece with
      | kept a => exact (silent (encoding.write a) _).trans ih
      | found match' => exact congrArg (describe match' :: ·) ih

theorem Comment.dropped_encode {α β : Type} [Alphabet α] [Alphabet β] (encoding : Encoding α β)
    (text : List α) : dropped (encoding.encode text) = (dropped text).map encoding.encode := by
  have cut : pattern.cut (encoding.encode text) =
      (pattern.cut text).flatMap (encoding.piece encoding.encode) :=
    Encoding.cut_encode (read_encode encoding) refuses_read text
  rw [dropped, cut, Encoding.allFound_flatMap_piece, List.filter_map, dropped]
  congr 2
  funext content
  exact congrArg (!·) (isConditional_encode encoding content)

namespace Stage

/-- The contents of the comments that a stage drops. -/
def dropped {α : Type} [Alphabet α] : Stage → List α → List (List α)
  | comments, text => Comment.dropped text
  | _, _ => []

variable {α β : Type} [Alphabet α] [Alphabet β]

theorem dropped_of_ne {stage : Stage} (other : stage ≠ comments) (text : List α) :
    stage.dropped text = [] := by
  cases stage <;> first | rfl | contradiction

theorem dropped_encode (encoding : Encoding α β) (stage : Stage) (text : List α) :
    stage.dropped (encoding.encode text) = (stage.dropped text).map encoding.encode := by
  by_cases same : stage = comments
  · subst same
    exact Comment.dropped_encode encoding text
  · rw [dropped_of_ne same, dropped_of_ne same, List.map_nil]

theorem sublist_of_mem_dropped {stage : Stage} {text content : List α}
    (member : content ∈ stage.dropped text) : content.Sublist text := by
  by_cases same : stage = comments
  · subst same
    exact Comment.sublist_of_mem_dropped member
  · rw [dropped_of_ne same] at member
    exact absurd member List.not_mem_nil

/-- What a reading of symbols finds in a text it finds in what a stage leaves and in what
it drops, if it passes over characters. -/
theorem pieces_append_dropped_perm {γ : Type} {view : α → List γ}
    (passes : ∀ c, view (ofChar c) = []) (stage : Stage) (text : List α) :
    (((stage.pieces text).flatMap (Piece.text id)).flatMap view ++
      (stage.dropped text).flatMap fun content => content.flatMap view).Perm
        (text.flatMap view) := by
  by_cases same : stage = comments
  · subst same
    rw [pieces, Piece.flatMap_text_kept]
    exact Comment.strip_append_dropped_perm passes text
  · rw [flatMap_pieces_eq passes same, dropped_of_ne same, List.flatMap_nil, List.append_nil]

end Stage

/-! ## Tokens of slots -/

namespace Slot

theorem indices_cons (a : Slot) (slots : List Slot) :
    indices (a :: slots) = index a ++ indices slots :=
  rfl

theorem indices_append (first second : List Slot) :
    indices (first ++ second) = indices first ++ indices second :=
  List.flatMap_append

/-- Setting contents aside moves their tokens out of a document and puts new tokens in their
places. -/
theorem indices_park_perm (next : Nat) (pieces : List (Piece Slot (List Slot))) :
    (indices (park next pieces) ++ (Piece.allFound pieces).flatMap indices).Perm
      (indices (pieces.flatMap (Piece.text id)) ++
        List.range' next (Piece.allFound pieces).length) := by
  induction pieces generalizing next with
  | nil => exact .refl _
  | cons piece pieces ih =>
      cases piece with
      | kept a =>
          rw [park, indices_cons, Piece.allFound, List.flatMap_cons, Piece.text,
            List.singleton_append, indices_cons, List.append_assoc, List.append_assoc]
          exact (ih next).append_left (index a)
      | found content =>
          rw [park, indices_cons, Piece.allFound, List.flatMap_cons, List.flatMap_cons, Piece.text,
            id, indices_append, List.length_cons, List.range'_succ, index]
          -- the new token stands for the content, whose tokens are told of in its place
          refine List.perm_iff_count.mpr fun i => ?_
          have others := (ih (next + 1)).count_eq i
          simp only [List.count_append, List.count_cons, List.count_nil] at others ⊢
          omega

theorem mem_of_mem_indices_pieces {stage : Stage} {slots : List Slot} {content : List Slot}
    (member : content ∈ Piece.allFound (stage.pieces slots)) {i : Nat}
    (inside : i ∈ indices content) : i ∈ indices slots := by
  obtain ⟨meaning, inContent⟩ := mem_indices.mp inside
  exact mem_indices.mpr ⟨meaning,
    (Stage.mem_of_mem_pieces rfl).2 content (Piece.mem_allFound.mp member) inContent⟩

end Slot

/-! ## The ledger of a draft -/

namespace Table

theorem entries_park (table : Table) (pieces : List (Piece Char (List Char))) :
    (table.park pieces).2.entries.toList =
      table.entries.toList ++ Piece.allFound pieces := by
  induction pieces generalizing table with
  | nil => simp [Piece.allFound]
  | cons piece pieces ih =>
      cases piece with
      | kept c => rw [park_kept, ih, Piece.allFound]
      | found content =>
          rw [park_found, ih, Piece.allFound, insert, Array.toList_push, List.append_assoc,
            List.singleton_append]

end Table

namespace Draft

/-- The indices of the tokens in the text of a draft and in the contents of its table. -/
def tokens (draft : Draft) : List Nat :=
  Token.indices draft.table.sigil draft.text ++
    draft.table.entries.toList.flatMap (Token.indices draft.table.sigil)

/-- The indices of the tokens in the comments that stages drop from a draft. -/
def commentedOut (draft : Draft) : List Stage → List Nat
  | [] => []
  | stage :: stages =>
      (stage.dropped draft.text).flatMap (Token.indices draft.table.sigil) ++
        (draft.apply stage).commentedOut stages

/-- Without the stage that drops comments nothing is commented out. -/
theorem commentedOut_eq_nil {stages : List Stage} (without : .comments ∉ stages) (draft : Draft) :
    draft.commentedOut stages = [] := by
  induction stages generalizing draft with
  | nil => rfl
  | cons stage stages ih =>
      have other : stage ≠ .comments := fun same => without (same ▸ List.mem_cons_self)
      rw [commentedOut, Stage.dropped_of_ne other, List.flatMap_nil, List.nil_append,
        ih fun member => without (List.mem_cons_of_mem stage member)]

/-- The ledger of a draft: the documents of slots that its text and its contents are written
for, and the indices struck so far. -/
structure Ledger (draft : Draft) (slots : List Slot) (stored : List (List Slot))
    (struck : List Nat) : Prop where
  text_eq : draft.text = (Slot.written draft.table.sigil).encode slots
  entries_eq : draft.table.entries.toList = stored.map (Slot.written draft.table.sigil).encode
  fresh : Slot.Fresh draft.table.sigil slots
  clean : ∀ content ∈ stored, Slot.Clean draft.table.sigil content
  /-- Each index stands once: in the text, in a content, or among those that are struck. -/
  perm : (Slot.indices slots ++ stored.flatMap Slot.indices ++ struck).Perm
    (List.range stored.length)
  /-- A content holds tokens of earlier contents only. -/
  earlier : ∀ outer content, stored[outer]? = some content →
    ∀ index ∈ Slot.indices content, index < outer

namespace Ledger

variable {draft : Draft} {slots : List Slot} {stored : List (List Slot)} {struck : List Nat}

theorem size_eq (ledger : draft.Ledger slots stored struck) :
    draft.table.size = stored.length := by
  rw [Table.size, ← Array.length_toList, ledger.entries_eq, List.length_map]

theorem lt_length (ledger : draft.Ledger slots stored struck) {index : Nat}
    (member : index ∈ Slot.indices slots) : index < stored.length := by
  have counted := ledger.perm.subset (List.mem_append_left _ (List.mem_append_left _ member))
  exact List.mem_range.mp counted

/-- The ledger of a document in which nothing has been done. -/
theorem start {sigil : Sigil} {document : String} (absent : ¬ sigil.text.Sublist document.toList) :
    (Draft.start sigil document).Ledger (spell document.toList) [] [] where
  text_eq := by
    rw [Encoding.encode_spell, spell_char]
    rfl
  entries_eq := rfl
  fresh occurs := absent (occurs.trans (Slot.flatMap_ink_map_char_sublist _))
  clean _ member := absurd member List.not_mem_nil
  perm := by
    have silent : Slot.indices (spell document.toList) = [] := by
      rw [Slot.indices, Slot.spell_eq, List.flatMap_map, List.flatMap_eq_nil_iff]
      exact fun c _ => rfl
    rw [silent]
    exact .refl _
  earlier _ _ found := by simp at found

/-- What a stage drops from the text is what it drops from the document. -/
theorem flatMap_dropped (ledger : draft.Ledger slots stored struck) (stage : Stage) :
    (stage.dropped draft.text).flatMap (Token.indices draft.table.sigil) =
      (stage.dropped slots).flatMap Slot.indices := by
  rw [ledger.text_eq, Stage.dropped_encode, List.flatMap_map]
  apply List.flatMap_congr
  intro content member
  have fresh := ledger.fresh.of_shortened (Thinned.of_sublist (Stage.sublist_of_mem_dropped member))
  exact fresh.clean.indices_written

/-- A stage keeps the ledger. -/
theorem apply (ledger : draft.Ledger slots stored struck) (stage : Stage) :
    (draft.apply stage).Ledger (Slot.park stored.length (stage.pieces slots))
      (stored ++ Piece.allFound (stage.pieces slots))
      (struck ++ (stage.dropped draft.text).flatMap (Token.indices draft.table.sigil)) := by
  have pieces : stage.pieces draft.text = (stage.pieces slots).flatMap
      ((Slot.written draft.table.sigil).piece (Slot.written draft.table.sigil).encode) := by
    rw [ledger.text_eq, stage.pieces_encode]
  constructor
  · rw [Draft.apply, pieces]
    simp only [Table.sigil_park]
    rw [Table.text_park_written, ledger.size_eq]
  · rw [Draft.apply, pieces]
    simp only [Table.sigil_park]
    rw [Table.entries_park, Encoding.allFound_flatMap_piece, ledger.entries_eq, List.map_append]
  · simp only [Draft.apply, Table.sigil_park]
    intro occurs
    rw [Slot.flatMap_ink_park] at occurs
    exact ledger.fresh.of_shortened (stage.shortened_kept slots) occurs
  · simp only [Draft.apply, Table.sigil_park]
    intro content member
    rcases List.mem_append.mp member with old | new
    · exact ledger.clean content old
    · exact ledger.fresh.clean_of_mem_pieces (Piece.mem_allFound.mp new)
  · -- nothing is lost between the text and the table, and a comment takes its tokens with it
    have parked := Slot.indices_park_perm stored.length (stage.pieces slots)
    have left : (Slot.indices ((stage.pieces slots).flatMap (Piece.text id)) ++
        (stage.dropped slots).flatMap Slot.indices).Perm (Slot.indices slots) :=
      Stage.pieces_append_dropped_perm (fun _ => rfl) stage slots
    have given : List.range (stored.length + (Piece.allFound (stage.pieces slots)).length) =
        List.range stored.length ++
          List.range' stored.length (Piece.allFound (stage.pieces slots)).length := by
      have consecutive := List.range'_append_1 (s := 0) (m := stored.length)
        (n := (Piece.allFound (stage.pieces slots)).length)
      rw [List.range_eq_range', List.range_eq_range', ← consecutive, Nat.zero_add]
    rw [ledger.flatMap_dropped, List.length_append, given, List.flatMap_append]
    refine List.perm_iff_count.mpr fun i => ?_
    have countParked := parked.count_eq i
    have countLeft := left.count_eq i
    have countBefore := ledger.perm.count_eq i
    simp only [List.count_append] at countParked countLeft countBefore ⊢
    omega
  · intro outer content found index member
    rw [List.getElem?_append] at found
    split at found
    · exact ledger.earlier outer content found index member
    · have new := List.mem_of_getElem? found
      have known := ledger.lt_length (Slot.mem_of_mem_indices_pieces new member)
      omega

/-- A run of stages keeps the ledger. -/
theorem run (ledger : draft.Ledger slots stored struck) (stages : List Stage) :
    ∃ slots' stored', (draft.run stages).Ledger slots' stored'
      (struck ++ draft.commentedOut stages) := by
  induction stages generalizing draft slots stored struck with
  | nil => exact ⟨slots, stored, by simpa [commentedOut] using ledger⟩
  | cons stage stages ih =>
      obtain ⟨slots', stored', after⟩ := ih (ledger.apply stage)
      rw [List.append_assoc] at after
      exact ⟨slots', stored', after⟩

/-- The tokens of a draft are those of its ledger. -/
theorem tokens_eq (ledger : draft.Ledger slots stored struck) :
    draft.tokens = Slot.indices slots ++ stored.flatMap Slot.indices := by
  rw [tokens, ledger.text_eq, ledger.fresh.clean.indices_written, ledger.entries_eq,
    List.flatMap_map]
  congr 1
  exact List.flatMap_congr fun content member => (ledger.clean content member).indices_written

/-- Every index stands once among the tokens and those that are struck. -/
theorem tokens_append_perm (ledger : draft.Ledger slots stored struck) :
    (draft.tokens ++ struck).Perm (List.range draft.table.size) := by
  rw [ledger.tokens_eq, ledger.size_eq]
  exact ledger.perm

end Ledger

end Draft

end HtmlMinifier
