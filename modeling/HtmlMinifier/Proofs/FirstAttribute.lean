import HtmlMinifier.Proofs.SheetWhitespace
import HtmlMinifier.Proofs.TagNames

/-!
# The first attribute of every tag

Behind the name of a tag stand blanks and then its first attribute.  `Attribute.reflow` is to
write a line feed for the blanks.  It looks for the name as a run of letters and hyphens right
in front of them, and the name of a heading such as `h1` is none: there the digit stands in
between, and the tag stays as it is.

In a document of texts and tags the blanks become a line feed in every tag whose name has no
digit, and nothing else changes.  So each first attribute has its own line in the end if and
only if those of tags with a digit in their names have had it before.
-/

namespace HtmlMinifier

open Alphabet

/-- Stretches that are pairwise no shorter make the same text only when they are the same. -/
theorem flatMap_eq_flatMap_iff {ι β : Type} {first second : ι → List β} {list : List ι}
    (shorter : ∀ i ∈ list, (second i).length ≤ (first i).length) :
    list.flatMap first = list.flatMap second ↔ ∀ i ∈ list, first i = second i := by
  have total : ∀ list : List ι, (∀ i ∈ list, (second i).length ≤ (first i).length) →
      (list.flatMap second).length ≤ (list.flatMap first).length := by
    intro list shorter
    induction list with
    | nil => exact le_rfl
    | cons i list ih =>
        rcases List.forall_mem_cons.mp shorter with ⟨here, others⟩
        simp only [List.flatMap_cons, List.length_append]
        exact Nat.add_le_add here (ih others)
  induction list with
  | nil => simp
  | cons i list ih =>
      rcases List.forall_mem_cons.mp shorter with ⟨here, others⟩
      have further := ih others
      rw [List.forall_mem_cons, List.flatMap_cons, List.flatMap_cons]
      constructor
      · intro same
        have lengths := congrArg List.length same
        simp only [List.length_append] at lengths
        have rest := total list others
        rcases List.append_inj same (by omega) with ⟨front, back⟩
        exact ⟨front, further.mp back⟩
      · rintro ⟨front, back⟩
        rw [front, further.mpr back]

/-! ## Tags of any element -/

/-- The name of an element: an ASCII letter, then letters, digits and hyphens. -/
structure ElementName where
  first : Char
  others : List Char
  isAlpha_first : first.isAlpha = true
  of_mem_others : ∀ c ∈ others, c.isAlphanum = true ∨ c = '-'

namespace ElementName

def letters (name : ElementName) : List Char :=
  name.first :: name.others

/-- Whether there is a digit in a name. -/
def hasDigit (name : ElementName) : Bool :=
  name.letters.any Char.isDigit

theorem of_mem {name : ElementName} {c : Char} (member : c ∈ name.letters) :
    c.isAlpha = true ∨ c.isDigit = true ∨ c = '-' := by
  rcases List.mem_cons.mp member with rfl | further
  · exact .inl name.isAlpha_first
  · rcases name.of_mem_others c further with alphanum | hyphen
    · rcases Bool.or_eq_true_iff.mp alphanum with letter | digit
      · exact .inl letter
      · exact .inr (.inl digit)
    · exact .inr (.inr hyphen)

/-- No symbol of a name is a blank or an angle bracket. -/
theorem inked_of_mem {name : ElementName} {c : Char} (member : c ∈ name.letters) :
    isBlank c = false ∧ c ≠ '<' := by
  have named := name.of_mem member
  constructor
  · rw [Bool.eq_false_iff]
    intro blank
    have other := of_isBlank (fun c => ¬ (c.isAlpha = true ∨ c.isDigit = true ∨ c = '-'))
      (by decide) blank
    exact other named
  · rintro rfl
    exact absurd named (by decide)

theorem not_isDigit_of_isAlpha {c : Char} (letter : c.isAlpha = true) : ¬ c.isDigit = true := by
  intro digit
  have small : c.toNat ≤ 57 := of_decide_eq_true (Bool.and_eq_true_iff.mp digit).2
  rcases Bool.or_eq_true_iff.mp letter with capital | lower
  · have large : 65 ≤ c.toNat := (of_decide_eq_true capital).1
    omega
  · have large : 97 ≤ c.toNat := of_decide_eq_true (Bool.and_eq_true_iff.mp lower).1
    omega

/-- The symbols of a name that are looked for are all but its digits. -/
theorem hasDigit_eq_false_iff (name : ElementName) :
    name.hasDigit = false ↔ ∀ c ∈ name.letters, isNameSymbol c = true := by
  rw [hasDigit, List.any_eq_false]
  refine forall₂_congr fun c member => ?_
  simp only [isNameSymbol, satisfies, char?_char]
  constructor
  · intro other
    rcases name.of_mem member with letter | digit | rfl
    · simp [letter]
    · exact absurd digit other
    · decide
  · intro symbol digit
    rcases Bool.or_eq_true_iff.mp symbol with letter | hyphen
    · exact not_isDigit_of_isAlpha letter digit
    · rw [eq_of_beq hyphen] at digit
      exact absurd digit (by decide)

end ElementName

/-- Attributes, at least one, with any blanks before them. -/
structure GivenAttributes extends LooseAttributes where
  content_ne_nil : content ≠ []

theorem lineFeed_ne_nil : ['\n'] ≠ [] :=
  List.cons_ne_nil _ _

theorem isBlank_of_mem_lineFeed : ∀ c ∈ ['\n'], isBlank c = true :=
  List.forall_mem_singleton.mpr rfl

/-- A single line feed in place of the blanks. -/
def GivenAttributes.line (attributes : GivenAttributes) : GivenAttributes :=
  { attributes with
    gap := ['\n']
    gap_ne_nil := lineFeed_ne_nil
    isBlank_of_mem_gap := isBlank_of_mem_lineFeed }

/-- The tag of an element, of those whose contents are protected as well. -/
inductive ElementTag where
  | opening (name : ElementName)
  | closing (name : ElementName)
  | full (name : ElementName) (attributes : GivenAttributes)

namespace ElementTag

/-- What stands between the angle brackets of a tag. -/
def inner : ElementTag → List Char
  | opening name => name.letters
  | closing name => '/' :: name.letters
  | full name attributes => name.letters ++ (attributes.gap ++ attributes.content)

def text (tag : ElementTag) : List Char :=
  '<' :: (tag.inner ++ ['>'])

/-- A tag with its first attribute on a line of its own. -/
def line : ElementTag → ElementTag
  | opening name => opening name
  | closing name => closing name
  | full name attributes => full name attributes.line

/-- A tag with its first attribute on a line of its own if there is no digit in its name. -/
def reflow : ElementTag → ElementTag
  | opening name => opening name
  | closing name => closing name
  | full name attributes => full name (if name.hasDigit then attributes else attributes.line)

/-- Whether a tag has a digit in its name, and other blanks than a line feed behind it. -/
def Overlooked : ElementTag → Prop
  | opening _ => False
  | closing _ => False
  | full name attributes => name.hasDigit = true ∧ attributes.gap ≠ ['\n']

theorem open_notMem_inner (tag : ElementTag) : '<' ∉ tag.inner := by
  have unnamed : ∀ {name : ElementName}, '<' ∉ name.letters :=
    fun {name} member => (name.inked_of_mem member).2 rfl
  intro member
  cases tag with
  | opening name => exact unnamed member
  | closing name => exact unnamed (List.mem_of_ne_of_mem (by decide) member)
  | full name attributes =>
      rcases List.mem_append.mp member with inName | further
      · exact unnamed inName
      · rcases List.mem_append.mp further with inGap | inContent
        · exact open_notMem_of_blanks attributes.isBlank_of_mem_gap inGap
        · exact (attributes.unmarked '<' inContent).1 rfl

theorem length_line_le (tag : ElementTag) : tag.line.text.length ≤ tag.reflow.text.length := by
  cases tag with
  | opening name => exact le_rfl
  | closing name => exact le_rfl
  | full name attributes =>
      have positive := List.length_pos_iff.mpr attributes.gap_ne_nil
      simp only [line, reflow, text, inner, GivenAttributes.line]
      split
      · simp only [List.length_cons, List.length_append, List.length_nil]
        omega
      · exact le_rfl

theorem reflow_eq_line_iff (tag : ElementTag) :
    tag.reflow.text = tag.line.text ↔ ¬ tag.Overlooked := by
  cases tag with
  | opening name => simp [reflow, line, Overlooked]
  | closing name => simp [reflow, line, Overlooked]
  | full name attributes =>
      cases digit : name.hasDigit with
      | false => simp [reflow, line, Overlooked, digit]
      | true =>
          simp only [reflow, line, text, inner, GivenAttributes.line, digit, if_true, Overlooked,
            List.cons.injEq, true_and, List.append_assoc, List.append_cancel_left_eq,
            List.append_left_inj, ne_eq, not_not]

end ElementTag

/-- A part of a document: a text, or the tag of an element. -/
inductive ElementPart where
  | prose (prose : Prose)
  | tag (tag : ElementTag)

namespace ElementPart

/-- A part, as it is written. -/
def text : ElementPart → List Char
  | prose passage => passage.chars
  | tag written => written.text

/-- A part with its tag changed, if it is one. -/
def mapTag (change : ElementTag → ElementTag) : ElementPart → ElementPart
  | prose passage => prose passage
  | tag written => tag (change written)

end ElementPart

/-! ## Reading the tags of elements -/

namespace Attribute

/-- Nothing is read where the name of a tag has a digit. -/
theorem read_of_hasDigit {name : ElementName} (digit : name.hasDigit = true) (more : List Char) :
    read ('<' :: (name.letters ++ more)) = none := by
  have digits : ¬ ∀ c ∈ name.letters, isNameSymbol c = true := by
    rw [← name.hasDigit_eq_false_iff, digit]
    decide
  have inked : ∀ c ∈ name.letters, isBlank c = false := fun _ member =>
    (name.inked_of_mem member).1
  have stops := head?_dropWhile_spell (α := Char) inked digits more
  rw [spell_char] at stops
  exact read_of_head? stops

/-- The attributes of a tag are read when there is no digit in its name. -/
theorem read_full_of_hasDigit {name : ElementName} (letters : name.hasDigit = false)
    (attributes : GivenAttributes) (behind : List Char) :
    read ((ElementTag.full name attributes).text ++ behind) =
      some (⟨'<' :: name.letters, attributes.content ++ ['>']⟩, behind) := by
  have tailed := readTail_append attributes.gap_ne_nil attributes.isBlank_of_mem_gap
    attributes.content_ne_nil (.inr attributes.inked_head)
    (fun member => (attributes.unmarked '>' member).2 rfl) behind
  have symbols := name.hasDigit_eq_false_iff.mp letters
  have nonempty : name.letters ≠ [] := List.cons_ne_nil _ _
  have found := read_append nonempty symbols tailed
  simpa [ElementTag.text, ElementTag.inner] using found

/-- A tag in which nothing is read stays. -/
theorem reflow_elementTag_of_none (tag : ElementTag) {behind : List Char}
    (refused : read (tag.text ++ behind) = none) :
    reflow (tag.text ++ behind) = tag.text ++ reflow behind := by
  have absent : '<' ∉ tag.inner ++ ['>'] := by
    simpa using tag.open_notMem_inner
  rw [ElementTag.text, List.cons_append] at refused ⊢
  rw [reflow, Pattern.replace_cons_of_none refused, ← reflow, reflow_append_of_notMem absent,
    List.cons_append]

/-- Reflowing a tag of an element, with anything behind it. -/
theorem reflow_elementTag_append (tag : ElementTag) (behind : List Char) :
    reflow (tag.text ++ behind) = tag.reflow.text ++ reflow behind := by
  cases tag with
  | closing name => exact reflow_elementTag_of_none _ (read_of_mark (by decide) _)
  | opening name =>
      apply reflow_elementTag_of_none
      rw [ElementTag.text, ElementTag.inner, List.cons_append, List.append_assoc]
      cases digit : name.hasDigit with
      | true => exact read_of_hasDigit digit _
      | false =>
          have symbols := name.hasDigit_eq_false_iff.mp digit
          simpa using read_name_append (α := Char) symbols behind
  | full name attributes =>
      rw [ElementTag.reflow]
      split
      next digit =>
        apply reflow_elementTag_of_none
        rw [ElementTag.text, ElementTag.inner, List.cons_append, List.append_assoc,
          List.append_assoc]
        exact read_of_hasDigit digit _
      next letters =>
        have found := read_full_of_hasDigit (Bool.eq_false_iff.mpr letters) attributes behind
        rw [reflow, Pattern.replace_of_some found, ← reflow]
        simp [write, ElementTag.text, ElementTag.inner, GivenAttributes.line]

theorem reflow_flatMap_text (parts : List ElementPart) :
    reflow (parts.flatMap ElementPart.text) =
      parts.flatMap fun part => (part.mapTag ElementTag.reflow).text := by
  induction parts with
  | nil => exact reflow_nil
  | cons part parts ih =>
      rw [List.flatMap_cons, List.flatMap_cons, ← ih]
      cases part with
      | prose passage =>
          exact reflow_append_of_notMem (fun member => (passage.unmarked '<' member).1 rfl) _
      | tag written => exact reflow_elementTag_append written _

/-- Reflowing a document of texts and tags writes a line feed for the blanks before the first
attribute of every tag whose name has no digit, and changes nothing else.  All first attributes
have a line of their own then if and only if no tag is overlooked. -/
theorem reflow_parts_eq_iff (parts : List ElementPart) :
    reflow (parts.flatMap ElementPart.text) =
        parts.flatMap (fun part => (part.mapTag ElementTag.reflow).text) ∧
      (reflow (parts.flatMap ElementPart.text) =
          parts.flatMap (fun part => (part.mapTag ElementTag.line).text) ↔
        ∀ tag, .tag tag ∈ parts → ¬ tag.Overlooked) := by
  have shorter : ∀ part ∈ parts,
      (part.mapTag ElementTag.line).text.length ≤ (part.mapTag ElementTag.reflow).text.length := by
    intro part _
    cases part with
    | prose passage => exact le_rfl
    | tag written => exact written.length_line_le
  refine ⟨reflow_flatMap_text parts, ?_⟩
  rw [reflow_flatMap_text, flatMap_eq_flatMap_iff shorter]
  constructor
  · intro same tag member
    exact tag.reflow_eq_line_iff.mp (same (.tag tag) member)
  · intro noticed part member
    cases part with
    | prose passage => rfl
    | tag written => exact written.reflow_eq_line_iff.mpr (noticed written member)

/-- The first attribute of a heading stays behind its name. -/
theorem reflow_heading_ne :
    ∃ parts : List ElementPart,
      parts.flatMap ElementPart.text = "<h1 class=\"x\">y</h1>".toList ∧
      reflow "<h1 class=\"x\">y</h1>".toList = "<h1 class=\"x\">y</h1>".toList ∧
      parts.flatMap (fun part => (part.mapTag ElementTag.line).text) =
        "<h1\nclass=\"x\">y</h1>".toList := by
  let heading : ElementName := ⟨'h', ['1'], by decide, by decide⟩
  let attributes : GivenAttributes :=
    ⟨⟨[' '], "class=\"x\"".toList, by decide, by decide, by decide, by rintro _ ⟨⟩; rfl⟩,
      by decide⟩
  refine ⟨[.tag (.full heading attributes), .prose ⟨['y'], by decide⟩, .tag (.closing heading)], ?_⟩
  decide +kernel

end Attribute

end HtmlMinifier
