import HtmlMinifier.Proofs.Transparency

/-!
# The choice of a sigil

Which sigil a document is minified with makes no difference, and none is left in
the result, as long as the characters of the sigil do not occur in the document in
their order.

It is not enough that a document does not hold a sigil as it is written.  Stages
that drop text bring together what stood apart, and what comes together can be a
sigil: a comment within the letters of one is all it takes.

That no sigil is left is said at each depth of what is set aside, and for the whole
because a content stands between angle brackets, which no sigil holds.
-/

namespace HtmlMinifier

open Alphabet

/-! ## What is set aside stands between angle brackets -/

section Contents

variable {α : Type} [Alphabet α]

/-- A close tag ends with `>`, in whatever case it is written. -/
theorem Markup.exists_spell_eq_append {written name : List Char}
    (same : written.map Char.toLower = (closeTag name).map Char.toLower) :
    ∃ front : List α, spell written = front ++ [ofChar '>'] := by
  rcases List.eq_nil_or_concat' written with rfl | ⟨front, last, rfl⟩
  · simp [closeTag] at same
  · have ends : (front.map Char.toLower ++ [last.toLower]) =
        ('<' :: '/' :: name).map Char.toLower ++ ['>'.toLower] := by
      simpa [closeTag] using same
    have angle : last = '>' :=
      eq_of_toLower_eq (by decide) (List.singleton_inj.mp (List.append_inj_right' ends rfl))
    exact ⟨spell front, by simp [spell, angle]⟩

/-- What is kept of a region begins with its open tag and ends with a close tag. -/
theorem Region.exists_content_eq_append (region : Region) {element : Element α}
    {written : List Char}
    (same : written.map Char.toLower = (Markup.closeTag region.name).map Char.toLower)
    (closing : element.closing = spell written) :
    ∃ middle written', region.content element = element.opening ++ middle ++ spell written' ∧
      written'.map Char.toLower = (Markup.closeTag region.name).map Char.toLower := by
  cases region with
  | script => exact ⟨Wrapper.script element.body, _, rfl, rfl⟩
  | style => exact ⟨Wrapper.style element.body, _, rfl, rfl⟩
  | pre => exact ⟨element.body, written, by rw [content, Element.text, closing], same⟩
  | textarea => exact ⟨element.body, written, by rw [content, Element.text, closing], same⟩

/-- What is kept of a region stands between angle brackets. -/
theorem Region.exists_content_eq {region : Region} {text content rest : List α}
    (found : region.pattern.read text = some (content, rest)) :
    ∃ inner, content = ofChar '<' :: (inner ++ [ofChar '>']) := by
  simp only [pattern, Pattern.map, Element.pattern] at found
  cases read : Element.read region.name text with
  | none => simp [read] at found
  | some pair =>
      obtain ⟨element, rest'⟩ := pair
      simp only [read, Option.some.injEq, Prod.mk.injEq] at found
      obtain ⟨rfl, rfl⟩ := found
      obtain ⟨opener, inner, opens, opening⟩ := Element.exists_opening_of_read read
      obtain ⟨written, same, closing⟩ := Element.exists_closing_of_read read
      obtain ⟨middle, closer, content, closes⟩ := region.exists_content_eq_append same closing
      obtain ⟨front, ends⟩ := Markup.exists_spell_eq_append (α := α) closes
      cases opener with
      | nil => simp [Markup.openTag] at opens
      | cons c opener =>
          have angle : c = '<' := eq_of_toLower_eq (by decide) (List.cons.inj opens).1
          refine ⟨spell opener ++ inner ++ ofChar '>' :: middle ++ front, ?_⟩
          rw [content, opening, ends, angle]
          simp

/-- A stage sets nothing aside but what stands between angle brackets. -/
theorem Stage.exists_content_eq {stage : Stage} {text content : List α}
    (member : .found content ∈ stage.pieces text) :
    ∃ inner, content = ofChar '<' :: (inner ++ [ofChar '>']) := by
  rcases stage.protects_or_thins text with ⟨region, rfl⟩ | ⟨result, pieces, _⟩
  · obtain ⟨_, _, bracketed⟩ := Pattern.exists_matched_of_mem_cut
      (fun content _ => ∃ inner, content = ofChar '<' :: (inner ++ [ofChar '>'])) (by
        intro text content rest found
        obtain ⟨before, element, behind, _, _, shape, _⟩ := Region.exists_of_read found
        exact ⟨_, shape, Region.exists_content_eq found⟩) member
    exact bracketed
  · simp [pieces] at member

end Contents

namespace Symbol

/-! ## Words that stand in no part of a document -/

/-- A word occurs nowhere in the characters of a document, at no depth of what is set
aside in it. -/
inductive Without (word : List Char) : List Symbol → Prop
  | intro {text : List Symbol} (absent : ¬ (word.map char).IsInfix text)
      (inside : ∀ content, stored content ∈ text → Without word content) : Without word text

/-- What is set aside in a document stands between angle brackets, at every depth. -/
inductive Bracketed : List Symbol → Prop
  | intro {text : List Symbol}
      (brackets : ∀ content, stored content ∈ text →
        ∃ inner, content = char '<' :: (inner ++ [char '>']))
      (inside : ∀ content, stored content ∈ text → Bracketed content) : Bracketed text

theorem Bracketed.exists_content_eq {text content : List Symbol} (bracketed : Bracketed text)
    (member : stored content ∈ text) : ∃ inner, content = char '<' :: (inner ++ [char '>']) := by
  cases bracketed with
  | intro brackets _ => exact brackets content member

theorem Bracketed.content {text content : List Symbol} (bracketed : Bracketed text)
    (member : stored content ∈ text) : Bracketed content := by
  cases bracketed with
  | intro _ inside => exact inside content member

theorem Bracketed.of_forall_mem {text text' : List Symbol} (bracketed : Bracketed text)
    (known : ∀ content, stored content ∈ text' → stored content ∈ text) : Bracketed text' :=
  .intro (fun content member => bracketed.exists_content_eq (known content member))
    fun content member => bracketed.content (known content member)

variable {word : List Char} {text : List Symbol}

/-- A word at the front of a text stands in front of all that is set aside. -/
theorem map_char_isPrefix_of_flattenAll (opens : '<' ∉ word)
    (stored_eq : ∀ content, stored content ∈ text →
      ∃ inner, content = char '<' :: (inner ++ [char '>']))
    (front : word.IsPrefix (flattenAll text)) : (word.map char).IsPrefix text := by
  induction text generalizing word with
  | nil => simpa [flattenAll] using front
  | cons a text ih =>
      cases word with
      | nil => exact List.nil_prefix
      | cons d word =>
          cases a with
          | char c =>
              obtain ⟨rfl, behind⟩ := List.cons_prefix_cons.mp front
              have further := ih (fun member => opens (List.mem_cons_of_mem d member))
                (fun content member => stored_eq content (List.mem_cons_of_mem _ member)) behind
              exact List.cons_prefix_cons.mpr ⟨rfl, further⟩
          | stored content =>
              obtain ⟨inner, rfl⟩ := stored_eq content List.mem_cons_self
              obtain ⟨rfl, _⟩ := List.cons_prefix_cons.mp front
              exact absurd List.mem_cons_self opens

/-- A word without angle brackets that stands in a text stands between the contents
that are set aside in it or within one of them. -/
theorem infix_of_flattenAll (opens : '<' ∉ word) (closes : '>' ∉ word)
    (stored_eq : ∀ content, stored content ∈ text →
      ∃ inner, content = char '<' :: (inner ++ [char '>']))
    (inside : word.IsInfix (flattenAll text)) :
    (word.map char).IsInfix text ∨
      ∃ content, stored content ∈ text ∧ word.IsInfix (flattenAll content) := by
  induction text with
  | nil => exact Or.inl (by simpa [flattenAll] using inside)
  | cons a text ih =>
      have tail := ih fun content member => stored_eq content (List.mem_cons_of_mem a member)
      have later : word.IsInfix (flattenAll text) → (word.map char).IsInfix (a :: text) ∨
          ∃ content, stored content ∈ a :: text ∧ word.IsInfix (flattenAll content) := by
        intro behind
        rcases tail behind with outside | ⟨content, member, within⟩
        · exact Or.inl (outside.trans (List.suffix_cons a text).isInfix)
        · exact Or.inr ⟨content, List.mem_cons_of_mem a member, within⟩
      cases a with
      | char c =>
          rcases List.infix_cons_iff.mp (inside : word.IsInfix (c :: flattenAll text)) with
            start | behind
          · exact Or.inl (map_char_isPrefix_of_flattenAll opens stored_eq start).isInfix
          · exact later behind
      | stored content =>
          rw [flattenAll] at inside
          rcases List.infix_append_iff_ne_nil.mp inside with
            here | behind | ⟨first, second, first_ne_nil, _, halves, ending, _⟩
          · exact Or.inr ⟨content, List.mem_cons_self, here⟩
          · exact later behind
          · -- what reaches over the end of a content would hold its `>`
            obtain ⟨inner, rfl⟩ := stored_eq content List.mem_cons_self
            obtain ⟨front, last, rfl⟩ :=
              (List.eq_nil_or_concat' first).resolve_left first_ne_nil
            have same : last = '>' := by
              obtain ⟨before, shape⟩ := ending
              rw [flatten, flattenAll, flattenAll_append, flattenAll, flattenAll, flatten,
                List.append_nil, flatten, ← List.append_assoc, ← List.append_assoc] at shape
              exact List.singleton_inj.mp (List.append_inj_right' shape rfl)
            rw [halves, same] at closes
            simp at closes

/-- A word without angle brackets that occurs at no depth occurs nowhere. -/
theorem Without.not_infix_flattenAll (opens : '<' ∉ word) (closes : '>' ∉ word)
    (without : Without word text) (bracketed : Bracketed text) :
    ¬ word.IsInfix (flattenAll text) := by
  induction without with
  | intro absent _ ih =>
      intro inside
      rcases infix_of_flattenAll opens closes (fun _ => bracketed.exists_content_eq) inside with
        outside | ⟨content, member, within⟩
      · exact absent outside
      · exact ih content member (bracketed.content member) within

/-! ## Every run -/

/-- A stage sets nothing aside but what stands between angle brackets. -/
theorem Bracketed.apply (bracketed : Bracketed text) (stage : Stage) :
    Bracketed (Symbol.apply text stage) := by
  have known : ∀ content, stored content ∈ Symbol.apply text stage →
      stored content ∈ text ∨ .found content ∈ stage.pieces text := by
    intro content member
    obtain ⟨piece, inPieces, same⟩ := List.mem_map.mp member
    cases piece with
    | kept a =>
        rw [ofPiece] at same
        exact Or.inl ((Stage.mem_of_mem_pieces rfl).1 (same ▸ inPieces))
    | found content' =>
        rw [ofPiece, stored.injEq] at same
        exact Or.inr (same ▸ inPieces)
  constructor
  · intro content member
    rcases known content member with old | new
    · exact bracketed.exists_content_eq old
    · exact Stage.exists_content_eq new
  · intro content member
    rcases known content member with old | new
    · exact bracketed.content old
    · exact bracketed.of_forall_mem fun inner inside =>
        (Stage.mem_of_mem_pieces rfl).2 content new inside

theorem Bracketed.run (bracketed : Bracketed text) (stages : List Stage) :
    Bracketed (Symbol.run text stages) := by
  induction stages generalizing text with
  | nil => exact bracketed
  | cons stage stages ih => exact ih (bracketed.apply stage)

/-- Nothing is set aside at the start. -/
theorem bracketed_start (document : String) : Bracketed (start document) := by
  constructor <;>
  · intro content member
    obtain ⟨c, _, same⟩ := List.mem_map.mp member
    contradiction

end Symbol

namespace Slot

/-- What a slot means, as one symbol. -/
def symbol : Slot → Symbol
  | char c => Symbol.char c
  | token _ content => Symbol.stored content

theorem meant_eq_map (slots : List Slot) : meant.encode slots = slots.map symbol := by
  induction slots with
  | nil => rfl
  | cons a slots ih => cases a <;> exact congrArg (_ :: ·) ih

/-- Only a character means a character. -/
theorem map_char_of_map_symbol {word : List Char} {slots : List Slot}
    (same : word.map Symbol.char = slots.map symbol) : slots = word.map char := by
  induction word generalizing slots with
  | nil => exact List.map_eq_nil_iff.mp same.symm
  | cons c word ih =>
      cases slots with
      | nil => contradiction
      | cons a slots =>
          obtain ⟨first, others⟩ := List.cons.inj same
          rw [ih others]
          cases a with
          | char d => rw [List.map_cons, Symbol.char.inj first]
          | token index content => contradiction

/-- The characters of a word stand together in what a document of slots means only
where they stand together in the document. -/
theorem isInfix_of_meant {word : List Char} {slots : List Slot}
    (inside : (word.map Symbol.char).IsInfix (meant.encode slots)) :
    (word.map char).IsInfix slots := by
  rw [meant_eq_map, List.infix_map_iff] at inside
  obtain ⟨part, within, same⟩ := inside
  exact map_char_of_map_symbol same ▸ within

end Slot

namespace Table

/-- A content that a table holds has no sigil at any depth. -/
theorem Holds.without {table : Table} {index : Nat} {content : List Symbol}
    (held : table.Holds index content) : Symbol.Without table.sigil.text content := by
  induction held with
  | @intro index slots below stored clean earlier held ih =>
      constructor
      · exact fun inside => clean (Slot.isInfix_of_meant inside)
      · intro inner member
        obtain ⟨a, inSlots, within⟩ := List.mem_flatMap.mp member
        cases a with
        | char c => simp [Slot.meant] at within
        | token index' inner' =>
            obtain rfl := Symbol.stored.inj (List.mem_singleton.mp within)
            exact ih index' inner inSlots

end Table

namespace Draft

/-- A draft keeps its sigil. -/
theorem sigil_run (draft : Draft) (stages : List Stage) :
    (draft.run stages).table.sigil = draft.table.sigil := by
  induction stages generalizing draft with
  | nil => rfl
  | cons stage stages ih => rw [run_cons, ih, apply, Table.sigil_park]

/-- The symbols that a draft stands for have no sigil at any depth. -/
theorem StandsFor.without {draft : Draft} {text : List Symbol} (stands : draft.StandsFor text) :
    Symbol.Without draft.table.sigil.text text := by
  obtain ⟨slots, _, rfl, fresh, held⟩ := stands
  constructor
  · exact fun inside => fresh.clean (Slot.isInfix_of_meant inside)
  · intro content member
    obtain ⟨a, inSlots, within⟩ := List.mem_flatMap.mp member
    cases a with
    | char c => simp [Slot.meant] at within
    | token index content' =>
        obtain rfl := Symbol.stored.inj (List.mem_singleton.mp within)
        exact (held index content inSlots).without

/-- Wherever the work on a document is stopped, no sigil is left in it. -/
theorem not_infix_restore_run_start {sigil : Sigil} {document : String}
    (absent : ¬ sigil.text.Sublist document.toList) (stages : List Stage) :
    ¬ sigil.text.IsInfix ((start sigil document).run stages).restore.toList := by
  have without := ((start_standsFor absent).run stages).without
  rw [sigil_run] at without
  have opens : '<' ∉ sigil.text := by
    rw [Sigil.text_eq_cons, List.mem_cons, not_or]
    exact ⟨by decide, fun member => absurd (Sigil.isAlphanum_of_mem_tail member) (by decide)⟩
  have closes : '>' ∉ sigil.text := by
    rw [Sigil.text_eq_cons, List.mem_cons, not_or]
    exact ⟨by decide, fun member => absurd (Sigil.isAlphanum_of_mem_tail member) (by decide)⟩
  rw [restore_run_start absent, String.toList_ofList]
  exact without.not_infix_flattenAll opens closes ((Symbol.bracketed_start document).run stages)

end Draft

/-- Two sigils whose characters do not occur in a document in their order give the
same minified document, and neither is left in it. -/
theorem minifyWith_eq_minifyWith {first second : Sigil} {document : String}
    (absent : ¬ first.text.Sublist document.toList)
    (absent' : ¬ second.text.Sublist document.toList) :
    minifyWith first document = minifyWith second document ∧
      ¬ first.text.IsInfix (minifyWith first document).toList ∧
        ¬ second.text.IsInfix (minifyWith second document).toList := by
  have same : minifyWith first document = minifyWith second document := by
    rw [minifyWith, minifyWith, Draft.restore_run_start absent, Draft.restore_run_start absent']
  exact ⟨same, Draft.not_infix_restore_run_start absent Stage.order,
    Draft.not_infix_restore_run_start absent' Stage.order⟩

/-- A script is set aside, and the text behind it holds all of a sigil but one
letter. -/
theorem minifyWith_eq_minifyWith_behind_script :
    ¬ (Sigil.mk 0).text.Sublist "<script> a </SCRIPT>%queeze0000000000000000x0%".toList ∧
      ¬ (Sigil.mk 1).text.Sublist "<script> a </SCRIPT>%queeze0000000000000000x0%".toList ∧
        minifyWith ⟨0⟩ "<script> a </SCRIPT>%queeze0000000000000000x0%" =
            minifyWith ⟨1⟩ "<script> a </SCRIPT>%queeze0000000000000000x0%" ∧
          ¬ (Sigil.mk 0).text.IsInfix
              (minifyWith ⟨0⟩ "<script> a </SCRIPT>%queeze0000000000000000x0%").toList ∧
            ¬ (Sigil.mk 1).text.IsInfix
              (minifyWith ⟨1⟩ "<script> a </SCRIPT>%queeze0000000000000000x0%").toList :=
  ⟨by decide +kernel, by decide +kernel,
    minifyWith_eq_minifyWith (by decide +kernel) (by decide +kernel)⟩

/-- A sigil that a document does not hold as it is written can stand in it once a
comment is dropped.  With an index behind it, it is taken for the token of the script;
without one it is left in the result. -/
theorem minifyWith_ne_minifyWith_of_comment :
    (Reader.occurs (Sigil.mk 0).text
          (Margin.normalize "<script></script>%squeeze<!---->0000000000000000x0%".toList) = false ∧
        Reader.occurs (Sigil.mk 1).text
          (Margin.normalize "<script></script>%squeeze<!---->0000000000000000x0%".toList) = false ∧
        minifyWith ⟨0⟩ "<script></script>%squeeze<!---->0000000000000000x0%" ≠
          minifyWith ⟨1⟩ "<script></script>%squeeze<!---->0000000000000000x0%") ∧
      Reader.occurs (Sigil.mk 0).text
          (Margin.normalize "%squeeze<!---->0000000000000000x".toList) = false ∧
        (Sigil.mk 0).text.IsInfix (minifyWith ⟨0⟩ "%squeeze<!---->0000000000000000x").toList :=
  ⟨⟨by decide +kernel, by decide +kernel, by decide +kernel⟩, by decide +kernel,
    by decide +kernel⟩

end HtmlMinifier
