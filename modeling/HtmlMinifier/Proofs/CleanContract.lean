import HtmlMinifier.Proofs.CleanDocument
import HtmlMinifier.Proofs.Polish
import HtmlMinifier.Proofs.StageEncoding

/-!
# What becomes of a clean document

A clean document goes through all stages as a page does, with one step more: the blanks
around the elements that are kept go before the lines are trimmed.  The elements are
written out until they are set aside; from then on the stages cannot tell them from any
other opaque symbols.
-/

namespace HtmlMinifier

open Alphabet

/-! ## Tucking in, text by text -/

namespace Verbatim

variable {region : Region} {text : List Atom}

/-- An element at the front of a text stands between blanks. -/
theorem exists_of_read {rest : List Atom} {element : Verbatim}
    (found : read region text = some (element, rest)) :
    ∃ before behind, (∀ a ∈ before, isBlank a = true) ∧ (∀ a ∈ behind, isBlank a = true) ∧
      text = before ++ (.verbatim element :: behind) ++ rest := by
  obtain ⟨behind, shape, -, rfl⟩ := read_eq_some_iff.mp found
  refine ⟨text.takeWhile isBlank, behind.takeWhile isBlank, fun _ => List.mem_takeWhile_imp,
    fun _ => List.mem_takeWhile_imp, ?_⟩
  rw [List.append_assoc, List.cons_append, List.takeWhile_append_dropWhile, ← shape,
    List.takeWhile_append_dropWhile]

theorem splits (region : Region) : (pattern region).Splits := by
  intro text element rest found
  obtain ⟨before, behind, -, -, rfl⟩ := exists_of_read found
  exact List.suffix_append _ rest

/-- Tucking elements in drops blanks only. -/
theorem tuck_respaced (region : Region) (text : List Atom) : Respaced (tuck region text) text := by
  apply Pattern.thinned_replace
  intro text element rest found
  obtain ⟨before, behind, front, back, shape⟩ := exists_of_read found
  have kept : Respaced ([.verbatim element] ++ []) ([.verbatim element] ++ behind) :=
    (Thinned.refl _).append (Thinned.dropAll back)
  exact ⟨_, shape, (Thinned.dropAll front).append kept⟩

/-- A text without elements of a kind stays as it is. -/
theorem tuck_of_notMem (absent : ∀ element, .verbatim element ∈ text → element.region ≠ region) :
    tuck region text = text := by
  apply Pattern.replace_of_refused
  intro suffix within
  cases found : (pattern region).read suffix with
  | none => rfl
  | some pair =>
      obtain ⟨behind, shape, same, -⟩ := read_eq_some_iff.mp found
      have member : .verbatim pair.1 ∈ text :=
        within.subset ((List.dropWhile_suffix isBlank).subset (by simp [shape]))
      exact absurd same (absent _ member)

/-- Characters hold no elements. -/
theorem tuck_spell (region : Region) (letters : List Char) :
    tuck region (spell letters) = spell letters := by
  apply tuck_of_notMem
  intro element member
  obtain ⟨c, -, same⟩ := List.mem_map.mp member
  contradiction

/-- Two texts with a character between them that is no blank are tucked in one by one. -/
theorem tuck_append_cons (region : Region) (front : List Atom) {c : Char}
    (inked : isBlank c = false) (back : List Atom) :
    tuck region (front ++ ofChar c :: back) =
      tuck region front ++ ofChar c :: tuck region back := by
  have inked' : isBlank (ofChar c : Atom) = false := (satisfies_ofChar _ c).trans inked
  have refused : ∀ text, (pattern region).read (ofChar c :: text) = none := by
    intro text
    cases found : (pattern region).read (ofChar c :: text) with
    | none => rfl
    | some pair =>
        obtain ⟨behind, shape, -⟩ := read_eq_some_iff.mp found
        rw [List.dropWhile_cons_of_neg (by simp [inked'])] at shape
        exact absurd (List.cons.inj shape).1 (by rintro ⟨⟩)
  have stops : ∀ a ∈ (ofChar c :: back).head?, isBlank a = false := by
    rintro _ ⟨⟩
    exact inked'
  rw [tuck, Pattern.replace, Pattern.cut_append (splits region),
    Pattern.cut_cons_of_none (refused _), List.flatMap_append, List.flatMap_cons]
  · rfl
  · intro suffix _ _
    change read region (suffix ++ ofChar c :: back) = _
    rw [read, dropWhile_append_of_inked stops]
    cases left : suffix.dropWhile isBlank with
    | nil => simp [pattern, read, left]
    | cons a behind =>
        cases a with
        | char d => simp [pattern, read, left]
        | verbatim element =>
            simp only [pattern, read, left, List.cons_append, dropWhile_append_of_inked stops]
            split <;> rfl

end Verbatim

/-- A text in which elements have been tucked in. -/
def Passage.tuck (region : Region) (passage : Passage Atom) : Passage Atom :=
  passage.shorten (Verbatim.tuck region passage.symbols) (Verbatim.tuck_respaced _ _).shortened

namespace Sheet

/-- The blanks around the elements of a kind go. -/
def tuck (region : Region) : Sheet Atom → Sheet Atom
  | last passage => last (passage.tuck region)
  | cons passage bracket rest => cons (passage.tuck region) bracket (rest.tuck region)

/-- Elements are tucked in on a sheet as they are in its text. -/
theorem text_tuck (region : Region) (sheet : Sheet Atom) :
    (sheet.tuck region).text = Verbatim.tuck region sheet.text := by
  induction sheet with
  | last passage => rfl
  | cons passage bracket rest ih =>
      rw [tuck, text, text, ih, bracket.spell_text_append, bracket.spell_text_append,
        Verbatim.tuck_append_cons region _ (by decide),
        Verbatim.tuck_append_cons region _ (by decide), Verbatim.tuck_spell]
      rfl

/-- A clean document without margins and without blanks around its elements. -/
def ready (sheet : Sheet Atom) : Sheet Atom :=
  (((sheet.strip isMargin).tuck .pre).tuck .textarea).strip isBlank

/-- What is to become of the whitespace of a clean document. -/
def contract (sheet : Sheet Atom) : Sheet Atom :=
  sheet.ready.polish

end Sheet

/-! ## All stages -/

namespace Atom

/-- Elements as opaque symbols. -/
def sealed : Encoding Atom Symbol where
  write
    | char c => [.char c]
    | verbatim element => [.stored (element.text.map .char)]
  write_ofChar _ := rfl
  exists_foreign a opaque' := by
    cases a with
    | char c => contradiction
    | verbatim element => exact ⟨_, [], rfl, satisfies_of_char?_eq_none rfl _⟩
  inert_of_mem a opaque' b member := by
    cases a with
    | char c => contradiction
    | verbatim element =>
        rw [List.mem_singleton.mp member]
        exact satisfies_of_char?_eq_none rfl _

/-- When the regions of all kinds have been set aside, all elements are opaque. -/
theorem writeAll_eq_encode (atoms : List Atom) :
    writeAll [.textarea, .pre, .style, .script] atoms = sealed.encode atoms := by
  have each : ∀ a, write [.textarea, .pre, .style, .script] a = sealed.write a := by
    intro a
    cases a with
    | char c => rfl
    | verbatim element =>
        have kind : element.region ∈ [Region.textarea, .pre, .style, .script] := by
          cases element.region <;> decide
        exact if_pos kind
  rw [writeAll, Encoding.encode, funext each]

/-- Before any region is set aside, all elements are written out. -/
theorem writeAll_empty (atoms : List Atom) :
    writeAll [] atoms = (atoms.flatMap text).map Symbol.char := by
  induction atoms with
  | nil => rfl
  | cons a atoms ih =>
      rw [writeAll_cons, ih, List.flatMap_cons, List.map_append]
      cases a <;> rfl

theorem flattenAll_encode (atoms : List Atom) :
    Symbol.flattenAll (sealed.encode atoms) = atoms.flatMap text := by
  induction atoms with
  | nil => rfl
  | cons a atoms ih =>
      rw [Encoding.encode_cons, Symbol.flattenAll_append, ih, List.flatMap_cons]
      congr 1
      cases a with
      | char c => rfl
      | verbatim element => simp [sealed, Symbol.flattenAll, Symbol.flatten, text]

end Atom

namespace Symbol

variable {setAside : List Region} {sheet : Sheet Atom}

theorem apply_normalize_sheet (noReturn : ofChar '\r' ∉ Atom.writeAll setAside sheet.text) :
    apply (Atom.writeAll setAside sheet.text) .normalize =
      Atom.writeAll setAside (sheet.strip isMargin).text := by
  apply apply_of_pieces_eq
  rw [Stage.pieces, Margin.normalize_of_notMem noReturn, Sheet.text_strip rfl rfl, isMargin,
    Atom.dropWhile_writeAll rfl, Atom.rdropWhile_writeAll rfl]
  rfl

/-- Setting the regions of a kind aside tucks the elements of the kind in. -/
theorem apply_protect_sheet {region : Region} (unsealed : region ∉ setAside)
    (sheet : Sheet Atom) :
    apply (Atom.writeAll setAside sheet.text) (.protect region) =
      Atom.writeAll (region :: setAside) (sheet.tuck region).text := by
  rw [apply_protect_writeAll unsealed List.suffix_rfl, Sheet.text_tuck]

theorem apply_comments_sheet (sheet : Sheet Atom) :
    apply (Atom.writeAll setAside sheet.text) .comments = Atom.writeAll setAside sheet.text := by
  apply apply_of_pieces_eq
  rw [Stage.pieces, Atom.strip_writeAll]

theorem apply_lines_sheet (sheet : Sheet Atom) :
    apply (Atom.sealed.encode sheet.text) .lines =
      Atom.sealed.encode (sheet.strip isBlank).settle.text := by
  apply apply_of_pieces_eq
  rw [Stage.pieces, Line.trim_encode, Line.trim_eq_settle, isBlank, ← Sheet.text_strip rfl rfl,
    Sheet.settle_text]

theorem apply_blocks_sheet (sheet : Sheet Atom) :
    apply (Atom.sealed.encode sheet.text) .blocks = Atom.sealed.encode sheet.moveUp.text := by
  apply apply_of_pieces_eq
  rw [Stage.pieces, BlockTag.moveUp_encode, BlockTag.moveUp_sheet]

theorem apply_texts_sheet (sheet : Sheet Atom) :
    apply (Atom.sealed.encode sheet.text) .texts = Atom.sealed.encode sheet.soften.text := by
  apply apply_of_pieces_eq
  rw [Stage.pieces, TextEdge.collapse_encode, TextEdge.collapse_sheet]

theorem apply_attributes_sheet (sheet : Sheet Atom) :
    apply (Atom.sealed.encode sheet.text) .attributes = Atom.sealed.encode sheet.reflow.text := by
  apply apply_of_pieces_eq
  rw [Stage.pieces, Attribute.reflow_encode, Attribute.reflow_sheet]

/-- No element is kept of a script or a style sheet. -/
theorem tuck_eq_self {region : Region} (other : region ≠ .pre ∧ region ≠ .textarea)
    (sheet : Sheet Atom) : (sheet.tuck region).text = sheet.text := by
  rw [Sheet.text_tuck]
  apply Verbatim.tuck_of_notMem
  rintro element - rfl
  rcases element.kept with pre | textarea
  · exact other.1 pre
  · exact other.2 textarea

/-- The stages together take a clean document to its contract. -/
theorem run_order_sheet (noReturn : ofChar '\r' ∉ Atom.writeAll [] sheet.text) :
    run (Atom.writeAll [] sheet.text) Stage.order = Atom.sealed.encode sheet.contract.text := by
  simp only [Stage.order, run_cons, run_nil]
  rw [apply_normalize_sheet noReturn, apply_protect_sheet (by decide), tuck_eq_self (by decide),
    apply_protect_sheet (by decide), tuck_eq_self (by decide), apply_comments_sheet,
    apply_protect_sheet (by decide), apply_protect_sheet (by decide), Atom.writeAll_eq_encode,
    apply_lines_sheet, apply_blocks_sheet, apply_texts_sheet, apply_attributes_sheet]
  rfl

end Symbol

/-- A clean document is minified as its contract says. -/
theorem minifySymbols_sheet {sheet : Sheet Atom} {document : String}
    (written : document.toList = sheet.text.flatMap Atom.text)
    (noReturn : '\r' ∉ document.toList) :
    minifySymbols document = String.ofList (sheet.contract.text.flatMap Atom.text) := by
  have started : Symbol.start document = Atom.writeAll [] sheet.text := by
    rw [Symbol.start, written, Atom.writeAll_empty]
  have noReturn' : ofChar '\r' ∉ Atom.writeAll [] sheet.text := by
    rw [Atom.writeAll_empty, ← written]
    exact fun member => noReturn (ofChar_mem_spell.mp member)
  rw [minifySymbols, started, Symbol.run_order_sheet noReturn', Atom.flattenAll_encode]

end HtmlMinifier
