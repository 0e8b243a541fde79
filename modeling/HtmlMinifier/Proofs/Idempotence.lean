import HtmlMinifier.Proofs.CleanContract
import HtmlMinifier.Proofs.Transparency

/-!
# Minifying twice

What has become of a clean document stays as it is when it is minified again.  No blank
is left next to an element that is kept, nor at an end of the document; no later stage
puts one there, since stages only drop blanks or exchange them.  What the other stages
do they do once, so a polished sheet is polished.

The result holds no symbol that the document does not hold, but for spaces and line
feeds.  So whatever the second run asks of its document the first run has kept.
-/

namespace HtmlMinifier

open Alphabet

/-! ## Elements without blanks around them -/

/-- Texts that differ in blanks differ in blanks behind their first ones too. -/
theorem Respaced.dropWhile_isBlank {α : Type} [Alphabet α] {text text' : List α}
    (respaced : Respaced text' text) :
    Respaced (text'.dropWhile isBlank) (text.dropWhile isBlank) := by
  induction respaced with
  | nil => exact Thinned.nil
  | @keep a text' text respaced ih =>
      cases blank : isBlank a with
      | true => rwa [List.dropWhile_cons_of_pos blank, List.dropWhile_cons_of_pos blank]
      | false =>
          have stays : ¬ isBlank a = true := Bool.eq_false_iff.mp blank
          rw [List.dropWhile_cons_of_neg stays, List.dropWhile_cons_of_neg stays]
          exact respaced.keep a
  | drop blank _ ih => rwa [List.dropWhile_cons_of_pos blank]
  | exchange written blank _ ih =>
      rwa [List.dropWhile_cons_of_pos (Thinned.isBlank_of_written written),
        List.dropWhile_cons_of_pos blank]

namespace Verbatim

variable {region : Region} {text text' : List Atom}

theorem inked_head_of_read {rest : List Atom} {element : Verbatim}
    (found : read region text = some (element, rest)) : ∀ a ∈ rest.head?, isBlank a = false := by
  obtain ⟨behind, -, -, rfl⟩ := read_eq_some_iff.mp found
  exact inked_head_dropWhile behind

/-- Where an element is found it has been, however the blanks of the text have changed. -/
theorem exists_read_of_respaced (respaced : Respaced text' text) {rest' : List Atom}
    {element : Verbatim} (found : read region text' = some (element, rest')) :
    ∃ rest, read region text = some (element, rest) ∧ Respaced rest' rest := by
  obtain ⟨behind', shape', kind, rfl⟩ := read_eq_some_iff.mp found
  have respaced := respaced.dropWhile_isBlank
  have inked := inked_head_dropWhile text
  rw [shape'] at respaced
  cases shape : text.dropWhile isBlank with
  | nil =>
      rw [shape] at respaced
      cases respaced
  | cons a behind =>
      rw [shape] at respaced inked
      obtain ⟨_, same, respaced⟩ := respaced.exists_cons (inked a rfl)
      obtain ⟨rfl, rfl⟩ := List.cons.inj same
      exact ⟨_, read_eq_some_iff.mpr ⟨behind, shape, kind, rfl⟩, respaced.dropWhile_isBlank⟩

/-- An element at the front of a text takes the blanks behind it along. -/
theorem eq_of_read_cons {rest rest' : List Atom} {element element' : Verbatim}
    (stops : ∀ a ∈ rest.head?, isBlank a = false)
    (found : read region (.verbatim element :: rest) = some (element', rest')) :
    .verbatim element :: rest = .verbatim element' :: rest' := by
  obtain ⟨behind, shape, -, rfl⟩ := read_eq_some_iff.mp found
  rw [List.dropWhile_cons_of_neg (by simp [isBlank, satisfies, char?])] at shape
  obtain ⟨same, rfl⟩ := List.cons.inj shape
  rw [dropWhile_eq_self stops, same]

/-- No blanks stand around the elements of a kind. -/
def Tucked (region : Region) (text : List Atom) : Prop :=
  ∀ suffix element rest, suffix.IsSuffix text → read region suffix = some (element, rest) →
    suffix = .verbatim element :: rest

theorem Tucked.of_suffix {suffix : List Atom} (tucked : Tucked region text)
    (within : suffix.IsSuffix text) : Tucked region suffix :=
  fun inner element rest deeper found => tucked inner element rest (deeper.trans within) found

/-- Elements are tucked in once they are. -/
theorem tucked_tuck (region : Region) (text : List Atom) : Tucked region (tuck region text) := by
  induction text using (pattern region).induction with
  | nil =>
      rintro suffix element rest within found
      rw [tuck_nil] at within
      obtain rfl := List.suffix_nil.mp within
      contradiction
  | found text element rest found ih =>
      have stops := (tuck_respaced region rest).inked_head (inked_head_of_read found)
      rw [tuck_of_some found]
      intro suffix element' rest' within found'
      rcases List.suffix_cons_iff.mp within with rfl | deeper
      · exact eq_of_read_cons stops found'
      · exact ih suffix element' rest' deeper found'
  | kept a text refused ih =>
      rw [tuck_cons_of_none refused]
      intro suffix element rest within found
      rcases List.suffix_cons_iff.mp within with rfl | deeper
      · have respaced : Respaced (a :: tuck region text) (a :: text) :=
          (tuck_respaced region text).keep a
        obtain ⟨_, before, -⟩ := exists_read_of_respaced respaced found
        exact absurd (before.symm.trans refused) (by simp)
      · exact ih suffix element rest deeper found

/-- No change of blanks puts a blank next to an element. -/
theorem Tucked.respaced (tucked : Tucked region text) (respaced : Respaced text' text) :
    Tucked region text' := by
  intro suffix' element rest' within found'
  obtain ⟨suffix, inside, respaced⟩ := respaced.exists_of_suffix within
  obtain ⟨rest, found, -⟩ := exists_read_of_respaced respaced found'
  have shape := tucked suffix element rest inside found
  have inked : isBlank (Atom.verbatim element) = false := rfl
  rw [shape] at respaced
  obtain ⟨_, rfl, behind⟩ := Respaced.exists_cons inked respaced
  exact eq_of_read_cons (Respaced.inked_head behind (inked_head_of_read found)) found'

theorem Tucked.tuck_eq_self (tucked : Tucked region text) : tuck region text = text := by
  induction text using (pattern region).induction with
  | nil => exact tuck_nil region
  | found text element rest found ih =>
      have shape := tucked text element rest List.suffix_rfl found
      have within : rest.IsSuffix text := shape ▸ List.suffix_cons _ rest
      rw [tuck_of_some found, ih (tucked.of_suffix within), shape]
  | kept a text refused ih =>
      rw [tuck_cons_of_none refused, ih (tucked.of_suffix (List.suffix_cons a text))]

end Verbatim

/-! ## The contract of a contract -/

namespace Sheet

theorem text_ready (sheet : Sheet Atom) :
    sheet.ready.text =
      ((Verbatim.tuck .textarea (Verbatim.tuck .pre (Margin.trim sheet.text))).dropWhile
        isBlank).rdropWhile isBlank := by
  rw [ready, isBlank, text_strip rfl rfl, text_tuck, text_tuck, isMargin, text_strip rfl rfl]
  rfl

theorem ready_respaced (sheet : Sheet Atom) :
    Respaced sheet.ready.text
      (Verbatim.tuck .textarea (Verbatim.tuck .pre (Margin.trim sheet.text))) := by
  rw [text_ready]
  exact Respaced.trans (Thinned.rdropWhile (fun _ blank => blank) _)
    (Thinned.dropWhile (fun _ blank => blank) _)

/-- In a document that is ready all elements have been tucked in. -/
theorem tucked_ready (sheet : Sheet Atom) {region : Region}
    (kept : region = .pre ∨ region = .textarea) : Verbatim.Tucked region sheet.ready.text := by
  rcases kept with rfl | rfl
  · exact ((Verbatim.tucked_tuck .pre _).respaced (Verbatim.tuck_respaced .textarea _)).respaced
      sheet.ready_respaced
  · exact (Verbatim.tucked_tuck .textarea _).respaced sheet.ready_respaced

theorem contract_shortened (sheet : Sheet Atom) : Shortened sheet.contract.text sheet.text := by
  have tucked := (Verbatim.tuck_respaced .textarea _).trans
    (Verbatim.tuck_respaced .pre (Margin.trim sheet.text))
  have polished := sheet.ready.polish_respaced.trans (sheet.ready_respaced.trans tucked)
  exact polished.shortened.trans (Margin.trim_pruned sheet.text).shortened

/-- A document that has been made ready is ready, even when its blanks change. -/
theorem text_ready_of_respaced {sheet sheet' : Sheet Atom} (noNull : ofChar '\x00' ∉ sheet'.text)
    (respaced : Respaced sheet'.text sheet.ready.text) : sheet'.ready.text = sheet'.text := by
  have inset : TextEdge.Inset _ sheet.ready.text _ := sheet.text_ready ▸ TextEdge.inset_text _
  have head := respaced.inked_head inset.inked_head
  have last := respaced.inked_last inset.inked_last
  have inner : ∀ a ∈ sheet'.text, isBlank a = false → isMargin a = false := by
    intro a member inked
    rw [Bool.eq_false_iff]
    intro margin
    have blank := isBlank_of_isMargin margin fun same => noNull (same ▸ member)
    exact Bool.eq_false_iff.mp inked blank
  have front : sheet'.text.dropWhile isMargin = sheet'.text :=
    dropWhile_eq_self fun a first => inner a (List.mem_of_head? first) (head a first)
  have back : sheet'.text.rdropWhile isMargin = sheet'.text :=
    rdropWhile_eq_self fun a final => inner a (List.mem_of_getLast? final) (last a final)
  have trimmed : Margin.trim sheet'.text = sheet'.text :=
    (congrArg (List.rdropWhile isMargin) front).trans back
  rw [text_ready, trimmed, ((sheet.tucked_ready (Or.inl rfl)).respaced respaced).tuck_eq_self,
    ((sheet.tucked_ready (Or.inr rfl)).respaced respaced).tuck_eq_self, dropWhile_eq_self head,
    rdropWhile_eq_self last]

/-- The contract of a contract changes nothing. -/
theorem text_contract_contract {sheet : Sheet Atom} (noNull : ofChar '\x00' ∉ sheet.text) :
    sheet.contract.contract.text = sheet.contract.text := by
  have noNull' : ofChar '\x00' ∉ sheet.contract.text := by
    intro member
    rcases sheet.contract_shortened.mem_or_of_mem member with old | written | written
    · exact noNull old
    all_goals exact absurd (ofChar_inj.mp written) (by decide)
  have ready := text_ready_of_respaced noNull' sheet.ready.polish_respaced
  calc
    sheet.contract.contract.text = sheet.contract.ready.polish.text := rfl
    _ = sheet.contract.polish.text := by rw [text_polish, text_polish, ready]
    _ = sheet.contract.text := congrArg text sheet.ready.polish_polish

end Sheet

/-! ## What a thinned clean document is written with -/

namespace Atom

variable {may : Atom → Prop} {atoms atoms' : List Atom}

/-- No character is new but spaces and line feeds. -/
theorem mem_or_of_mem_flatMap_text (thinned : Thinned may atoms' atoms) {c : Char}
    (member : c ∈ atoms'.flatMap text) : c ∈ atoms.flatMap text ∨ c = ' ' ∨ c = '\n' := by
  obtain ⟨a, inAtoms, inText⟩ := List.mem_flatMap.mp member
  rcases thinned.mem_or_of_mem inAtoms with old | rfl | rfl
  · exact Or.inl (List.mem_flatMap.mpr ⟨a, old, inText⟩)
  · exact Or.inr (Or.inl (List.mem_singleton.mp inText))
  · exact Or.inr (Or.inr (List.mem_singleton.mp inText))

/-- A word without blanks whose letters do not occur in their order is none of a thinned
document either. -/
theorem sublist_of_thinned (thinned : Thinned may atoms' atoms) {word : List Char}
    (inked : ∀ c ∈ word, isBlank c = false) (occurs : word.Sublist (atoms'.flatMap text)) :
    word.Sublist (atoms.flatMap text) := by
  have blanks : ∀ a : Atom, isBlank a = true → (a.text.filter fun c => !isBlank c) = [] := by
    intro a blank
    cases a with
    | char c =>
        have blank' : isBlank c = true := blank
        simp [text, blank']
    | verbatim element => exact absurd blank Bool.false_ne_true
  have kept : (word.filter fun c => !isBlank c) = word :=
    List.filter_eq_self.mpr fun c member => by simp [inked c member]
  have inkedOccurs := occurs.filter fun c => !isBlank c
  rw [kept, List.filter_flatMap] at inkedOccurs
  have inAtoms := inkedOccurs.trans (thinned.flatMap_sublist blanks)
  rw [← List.filter_flatMap] at inAtoms
  exact inAtoms.trans List.filter_sublist

end Atom

/-! ## Documents of fragments -/

/-- A fragment of a clean document: a part of a well-formed one, an element that is kept
as it is, or a conditional comment. -/
inductive Fragment where
  | part (part : Part)
  | verbatim (element : Verbatim)
  | conditional (test body : Prose)

/-- A text without angle brackets as atoms. -/
def Prose.atoms (prose : Prose) : Passage Atom where
  symbols := spell prose.chars
  unmarked := by
    intro a member
    obtain ⟨c, inProse, rfl⟩ := List.mem_map.mp member
    rw [ne_eq, ne_eq, ofChar_inj, ofChar_inj]
    exact prose.unmarked c inProse

theorem Atom.flatMap_text_spell (letters : List Char) :
    (spell letters : List Atom).flatMap Atom.text = letters := by
  induction letters with
  | nil => rfl
  | cons c letters ih => rw [spell_cons, List.flatMap_cons, ih]; rfl

theorem Sheet.text_mapFirst_append (passage : Passage Atom) (sheet : Sheet Atom) :
    (sheet.mapFirst passage.append).text = passage.symbols ++ sheet.text := by
  cases sheet with
  | last first => rfl
  | cons first bracket rest => exact List.append_assoc passage.symbols first.symbols _

namespace Fragment

/-- A fragment, as it is written. -/
def text : Fragment → List Char
  | part piece => piece.text
  | verbatim element => element.text
  | conditional test body =>
      (Bracket.condition test).text ++ body.chars ++ Bracket.endCondition.text

/-- The sheet of some fragments. -/
def sheet : List Fragment → Sheet Atom
  | [] => .last ⟨[], by simp⟩
  | part (.prose passage) :: fragments => (sheet fragments).mapFirst passage.atoms.append
  | part (.tag written) :: fragments => .cons ⟨[], by simp⟩ (.tag written) (sheet fragments)
  | verbatim element :: fragments =>
      (sheet fragments).mapFirst (Passage.append ⟨[.verbatim element], by simp⟩)
  | conditional test body :: fragments =>
      .cons ⟨[], by simp⟩ (.condition test) (.cons body.atoms .endCondition (sheet fragments))

/-- A sheet is written as its fragments are. -/
theorem text_sheet (fragments : List Fragment) :
    (sheet fragments).text.flatMap Atom.text = fragments.flatMap text := by
  induction fragments with
  | nil => rfl
  | cons fragment fragments ih =>
      rw [List.flatMap_cons, ← ih]
      cases fragment with
      | part piece =>
          cases piece with
          | prose passage =>
              rw [sheet, Sheet.text_mapFirst_append, List.flatMap_append]
              congr 1
              exact Atom.flatMap_text_spell passage.chars
          | tag written =>
              rw [sheet, Sheet.text, List.nil_append, List.flatMap_append, Atom.flatMap_text_spell]
              rfl
      | verbatim element =>
          rw [sheet, Sheet.text_mapFirst_append, List.flatMap_append]
          congr 1
          exact List.append_nil _
      | conditional test body =>
          simp only [sheet, Sheet.text, List.nil_append, List.flatMap_append,
            Atom.flatMap_text_spell, Prose.atoms, text, List.append_assoc]

end Fragment

/-- With any sigil whose characters are not in it in their order a clean document is
minified as its contract says. -/
theorem minifyWith_sheet {sigil : Sigil} {sheet : Sheet Atom} {document : String}
    (written : document.toList = sheet.text.flatMap Atom.text) (noReturn : '\r' ∉ document.toList)
    (absent : ¬ sigil.text.Sublist document.toList) :
    minifyWith sigil document = String.ofList (sheet.contract.text.flatMap Atom.text) :=
  (Draft.restore_run_start absent Stage.order).trans (minifySymbols_sheet written noReturn)

/-- Minifying a clean document without carriage returns and null characters again changes
nothing. -/
theorem minifyWith_minifyWith {first second : Sigil} {fragments : List Fragment}
    {document : String} (written : document.toList = fragments.flatMap Fragment.text)
    (noReturn : '\r' ∉ document.toList) (noNull : '\x00' ∉ document.toList)
    (absent : ¬ first.text.Sublist document.toList)
    (absent' : ¬ second.text.Sublist document.toList) :
    minifyWith second (minifyWith first document) = minifyWith first document := by
  rw [← Fragment.text_sheet] at written
  have shortened := (Fragment.sheet fragments).contract_shortened
  generalize Fragment.sheet fragments = sheet at written shortened
  have written' : (String.ofList (sheet.contract.text.flatMap Atom.text)).toList =
      sheet.contract.text.flatMap Atom.text := String.toList_ofList
  have noReturn' : '\r' ∉ (String.ofList (sheet.contract.text.flatMap Atom.text)).toList := by
    rw [written']
    intro member
    rcases Atom.mem_or_of_mem_flatMap_text shortened member with old | space | lineFeed
    · exact noReturn (written ▸ old)
    · exact absurd space (by decide)
    · exact absurd lineFeed (by decide)
  have noNull' : ofChar '\x00' ∉ sheet.text := by
    intro member
    rw [written] at noNull
    exact noNull (List.mem_flatMap.mpr ⟨_, member, List.mem_singleton_self _⟩)
  have absent'' :
      ¬ second.text.Sublist (String.ofList (sheet.contract.text.flatMap Atom.text)).toList := by
    rw [written']
    intro occurs
    rw [written] at absent'
    exact absent' (Atom.sublist_of_thinned shortened second.isBlank_of_mem_text occurs)
  rw [minifyWith_sheet written noReturn absent, minifyWith_sheet written' noReturn' absent'',
    Sheet.text_contract_contract noNull']

namespace Paragraph

/-- A paragraph with a preformatted text and a conditional comment. -/
def document : String :=
  "<p  id=x>\n a <pre> b </pre>\n<!--[if IE]> c <![endif]-->\n</p>\n"

/-- The paragraph is a clean document. -/
theorem exists_fragments :
    ∃ fragments : List Fragment, document.toList = fragments.flatMap Fragment.text := by
  let name : TagName :=
    ⟨'p', [], by decide, by decide, fun region => by cases region <;> decide⟩
  let attributes : Attributes :=
    ⟨[' ', ' '], ['i', 'd', '=', 'x'], by decide, by decide, by decide, by decide, by decide,
      by rintro _ ⟨⟩; rfl, by rintro _ ⟨⟩; rfl⟩
  let element : Verbatim :=
    ⟨.pre, ['p', 'r', 'e'], [], [' ', 'b', ' '], ['p', 'r', 'e'], by decide, by decide, by decide,
      by decide, by decide, by decide⟩
  refine ⟨[.part (.tag (.full name attributes)), .part (.prose ⟨['\n', ' ', 'a', ' '], by decide⟩),
    .verbatim element, .part (.prose ⟨['\n'], by decide⟩),
    .conditional ⟨['i', 'f', ' ', 'I', 'E'], by decide⟩ ⟨[' ', 'c', ' '], by decide⟩,
    .part (.prose ⟨['\n'], by decide⟩), .part (.tag (.closing name)),
    .part (.prose ⟨['\n'], by decide⟩)], ?_⟩
  decide +kernel

end Paragraph

/-- The preformatted text has lost the blanks around it, and no later run changes what is
left. -/
theorem minifyWith_minifyWith_paragraph :
    (∃ fragments : List Fragment,
      Paragraph.document.toList = fragments.flatMap Fragment.text) ∧
      '\r' ∉ Paragraph.document.toList ∧ '\x00' ∉ Paragraph.document.toList ∧
        ¬ (Sigil.mk 0).text.Sublist Paragraph.document.toList ∧
          ¬ (Sigil.mk 1).text.Sublist Paragraph.document.toList ∧
            minifyWith ⟨1⟩ (minifyWith ⟨0⟩ Paragraph.document) = minifyWith ⟨0⟩ Paragraph.document ∧
              minifyWith ⟨0⟩ Paragraph.document =
                "<p\nid=x> a<pre> b </pre><!--[if IE]> c <![endif]--></p>" := by
  obtain ⟨fragments, written⟩ := Paragraph.exists_fragments
  exact ⟨⟨fragments, written⟩, by decide +kernel, by decide +kernel, by decide +kernel,
    by decide +kernel,
    minifyWith_minifyWith written (by decide +kernel) (by decide +kernel) (by decide +kernel)
      (by decide +kernel),
    by decide +kernel⟩

end HtmlMinifier
