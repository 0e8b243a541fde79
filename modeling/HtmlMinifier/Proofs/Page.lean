import HtmlMinifier.Region
import HtmlMinifier.Proofs.BlankRun
import HtmlMinifier.Proofs.BlockNames
import HtmlMinifier.Proofs.StageThinning

/-!
# Pages and the whitespace contract

A page is a well-formed document: text and tags in turns.  Text holds no angle
brackets.  A tag holds a name, and between the name and its `>` perhaps blanks and
attributes.  No name is that of a protected region.

`Page.contract` says what is meant to become of the whitespace of a page, in five
steps.  Each step is about one run of blanks at a time and knows what stands around
it: an end of the page, a tag of a block, the edge of a text between two tags, or
the name of a tag.  None of the steps looks for anything in a text.
-/

namespace HtmlMinifier

open Alphabet

/-! ## Text -/

/-- A text without angle brackets. -/
structure Prose where
  chars : List Char
  unmarked : ∀ c ∈ chars, c ≠ '<' ∧ c ≠ '>'

namespace Prose

/-- Characters that may be dropped, and blanks, change no text into markup. -/
theorem unmarked_of_shortened {chars chars' : List Char}
    (unmarked : ∀ c ∈ chars, c ≠ '<' ∧ c ≠ '>') (shortened : Shortened chars' chars) :
    ∀ c ∈ chars', c ≠ '<' ∧ c ≠ '>' := by
  intro c member
  cases blank : isBlank c with
  | false => exact unmarked c (shortened.mem_of_mem blank member)
  | true => exact of_isBlank (fun c => c ≠ '<' ∧ c ≠ '>') (by decide) blank

/-- A text that has been shortened. -/
def shorten (prose : Prose) (chars : List Char) (shortened : Shortened chars prose.chars) : Prose :=
  ⟨chars, unmarked_of_shortened prose.unmarked shortened⟩

def append (first second : Prose) : Prose where
  chars := first.chars ++ second.chars
  unmarked := List.forall_mem_append.mpr ⟨first.unmarked, second.unmarked⟩

/-- A text without what is dropped at its front. -/
def dropFront (test : Char → Bool) (prose : Prose) : Prose :=
  prose.shorten (prose.chars.dropWhile test) (Thinned.dropWhile (fun _ _ => trivial) _)

/-- A text without what is dropped at its back. -/
def dropBack (test : Char → Bool) (prose : Prose) : Prose :=
  prose.shorten (prose.chars.rdropWhile test) (Thinned.rdropWhile (fun _ _ => trivial) _)

def settle (prose : Prose) : Prose :=
  prose.shorten (BlankRun.settle prose.chars) (BlankRun.settle_respaced _).shortened

/-- One space for a run of blanks. -/
def edge (run : List Char) : List Char :=
  if run = [] then [] else [' ']

/-- A text with one space for the blanks at each edge, and one space in all when
there is nothing else. -/
def softened (chars : List Char) : List Char :=
  if chars.all isBlank then
    edge chars
  else
    edge (chars.takeWhile isBlank) ++ (chars.dropWhile isBlank).rdropWhile isBlank ++
      edge (chars.rtakeWhile isBlank)

theorem space_eq_edge (run : List Char) : TextEdge.space run = edge run := by
  cases run <;> rfl

/-- That is what becomes of texts between tags. -/
theorem soften_eq_softened (chars : List Char) : TextEdge.soften chars = softened chars := by
  rw [softened]
  split
  next blank =>
    cases chars with
    | nil => rfl
    | cons c chars =>
        exact TextEdge.soften_of_blank (List.cons_ne_nil c chars) (List.all_eq_true.mp blank)
  next other =>
    have whole := List.takeWhile_append_dropWhile (p := isBlank) (l := chars)
    cases inner : chars.dropWhile isBlank with
    | nil =>
        rw [inner, List.append_nil] at whole
        have blank : chars.all isBlank = true := by
          rw [← whole]
          exact List.all_eq_true.mpr fun _ => List.mem_takeWhile_imp
        exact absurd blank other
    | cons c rest =>
        have inked : isBlank c = false := by
          simpa [inner] using List.head?_dropWhile_not isBlank chars
        have trailing : chars.rtakeWhile isBlank = (c :: rest).rtakeWhile isBlank := by
          rw [← whole, inner, rtakeWhile_append_cons inked, ← List.nil_append (c :: rest),
            rtakeWhile_append_cons inked]
        rw [trailing, ← space_eq_edge, ← space_eq_edge, List.rtakeWhile, TextEdge.space_reverse,
          TextEdge.soften, inner]
        rfl

def soften (prose : Prose) : Prose :=
  prose.shorten (softened prose.chars)
    (soften_eq_softened _ ▸ (TextEdge.soften_respaced _).shortened)

end Prose

/-! ## Tags -/

/-- The name of a tag that belongs to no protected region: an ASCII letter, then
letters and digits. -/
structure TagName where
  first : Char
  others : List Char
  isAlpha_first : first.isAlpha = true
  isAlphanum_of_mem_others : ∀ c ∈ others, c.isAlphanum = true
  plain : ∀ region : Region, (first :: others).map Char.toLower ≠ region.name

namespace TagName

def letters (name : TagName) : List Char :=
  name.first :: name.others

/-- Whether a name is that of a block, in whatever case it is written. -/
def isBlock (name : TagName) : Bool :=
  name.letters.map Char.toLower ∈ BlockTag.names

theorem isAlphanum_of_mem {name : TagName} {c : Char} (member : c ∈ name.letters) :
    c.isAlphanum = true := by
  rcases List.mem_cons.mp member with rfl | further
  · simp [Char.isAlphanum, name.isAlpha_first]
  · exact name.isAlphanum_of_mem_others c further

theorem isBlank_of_mem {name : TagName} {c : Char} (member : c ∈ name.letters) :
    isBlank c = false := by
  rw [Bool.eq_false_iff]
  intro blank
  have other := of_isBlank (·.isAlphanum = false) (by decide) blank
  exact Bool.eq_false_iff.mp other (name.isAlphanum_of_mem member)

theorem unmarked {name : TagName} : ∀ c ∈ name.letters, c ≠ '<' ∧ c ≠ '>' := by
  intro c member
  have alphanum := name.isAlphanum_of_mem member
  constructor <;> (rintro rfl; contradiction)

end TagName

/-- Attributes with the blanks before them.  The blanks have no empty line among
them, and the attributes begin and end with other characters. -/
structure Attributes where
  gap : List Char
  content : List Char
  gap_ne_nil : gap ≠ []
  isBlank_of_mem_gap : ∀ c ∈ gap, isBlank c = true
  noEmptyLine : ¬ ['\n', '\n'].IsInfix gap
  content_ne_nil : content ≠ []
  unmarked : ∀ c ∈ content, c ≠ '<' ∧ c ≠ '>'
  inked_head : ∀ c ∈ content.head?, isBlank c = false
  inked_last : ∀ c ∈ content.getLast?, isBlank c = false

namespace Attributes

/-- A single line feed in place of the blanks. -/
def reflow (attributes : Attributes) : Attributes :=
  { attributes with
    gap := ['\n']
    gap_ne_nil := by decide
    isBlank_of_mem_gap := by decide
    noEmptyLine := fun inside => absurd inside.length_le (by decide) }

theorem settle_gap (attributes : Attributes) :
    BlankRun.settle attributes.gap = attributes.gap ∨
      BlankRun.settle attributes.gap = ['\n'] := by
  have whole : BlankRun.settle (attributes.gap ++ []) =
      BlankRun.settled attributes.gap ++ BlankRun.settle [] :=
    BlankRun.settle_run_append attributes.isBlank_of_mem_gap (by simp)
  rw [List.append_nil, BlankRun.settle_nil, List.append_nil] at whole
  rw [whole]
  exact BlankRun.settled_eq_or attributes.noEmptyLine

/-- What holds of the blanks and of a line feed holds of the settled blanks. -/
theorem settle_gap_of (attributes : Attributes) (property : List Char → Prop)
    (own : property attributes.gap) (lineFeed : property ['\n']) :
    property (BlankRun.settle attributes.gap) := by
  rcases attributes.settle_gap with same | settled
  · rw [same]
    exact own
  · rw [settled]
    exact lineFeed

theorem exists_content_eq_cons (attributes : Attributes) :
    ∃ c rest, attributes.content = c :: rest ∧ isBlank c = false := by
  rcases List.exists_cons_of_ne_nil attributes.content_ne_nil with ⟨c, rest, content⟩
  exact ⟨c, rest, content, attributes.inked_head c (by simp [content])⟩

/-- Attributes with every run of blanks settled. -/
def settle (attributes : Attributes) : Attributes where
  gap := BlankRun.settle attributes.gap
  content := BlankRun.settle attributes.content
  gap_ne_nil :=
    attributes.settle_gap_of (· ≠ []) attributes.gap_ne_nil attributes.reflow.gap_ne_nil
  isBlank_of_mem_gap :=
    attributes.settle_gap_of (fun gap => ∀ c ∈ gap, isBlank c = true)
      attributes.isBlank_of_mem_gap attributes.reflow.isBlank_of_mem_gap
  noEmptyLine :=
    attributes.settle_gap_of (fun gap => ¬ ['\n', '\n'].IsInfix gap)
      attributes.noEmptyLine attributes.reflow.noEmptyLine
  content_ne_nil := by
    rcases attributes.exists_content_eq_cons with ⟨c, rest, content, inked⟩
    rw [content, BlankRun.settle_cons inked]
    exact List.cons_ne_nil _ _
  unmarked :=
    Prose.unmarked_of_shortened attributes.unmarked (BlankRun.settle_respaced _).shortened
  inked_head := by
    rcases attributes.exists_content_eq_cons with ⟨c, rest, content, inked⟩
    rw [content, BlankRun.settle_cons inked]
    simpa using inked
  inked_last := by
    cases content : attributes.content using List.reverseRecOn with
    | nil => exact absurd content attributes.content_ne_nil
    | append_singleton rest c _ =>
        have inked := attributes.inked_last c (by simp [content])
        rw [BlankRun.settle_append_cons rest inked, BlankRun.settle_nil]
        simpa using inked

end Attributes

/-- A tag. -/
inductive Tag where
  | opening (name : TagName)
  | closing (name : TagName)
  | full (name : TagName) (attributes : Attributes)

namespace Tag

def name : Tag → TagName
  | opening name => name
  | closing name => name
  | full name _ => name

/-- What stands between the `<` of a tag and its name. -/
def slash : Tag → List Char
  | opening _ => []
  | closing _ => ['/']
  | full .. => []

/-- What stands between the name of a tag and its `>`. -/
def more : Tag → List Char
  | opening _ => []
  | closing _ => []
  | full _ attributes => attributes.gap ++ attributes.content

/-- What stands between the angle brackets of a tag. -/
def inner (tag : Tag) : List Char :=
  tag.slash ++ tag.name.letters ++ tag.more

def text (tag : Tag) : List Char :=
  '<' :: (tag.inner ++ ['>'])

def settle : Tag → Tag
  | opening name => opening name
  | closing name => closing name
  | full name attributes => full name attributes.settle

/-- A tag with its attributes on a new line, provided that its name has no
digits. -/
def reflow : Tag → Tag
  | opening name => opening name
  | closing name => closing name
  | full name attributes =>
      if name.letters.all Char.isAlpha then full name attributes.reflow else full name attributes

theorem unmarked_inner (tag : Tag) : ∀ c ∈ tag.inner, c ≠ '<' ∧ c ≠ '>' := by
  have named := tag.name.unmarked
  cases tag with
  | opening name => simpa [inner, slash, more] using named
  | closing name => simpa [inner, slash, more] using named
  | full name attributes =>
      have gap : ∀ c ∈ attributes.gap, c ≠ '<' ∧ c ≠ '>' := by
        intro c member
        have blank := attributes.isBlank_of_mem_gap c member
        exact of_isBlank (fun c => c ≠ '<' ∧ c ≠ '>') (by decide) blank
      exact List.forall_mem_append.mpr
        ⟨named, List.forall_mem_append.mpr ⟨gap, attributes.unmarked⟩⟩

theorem close_notMem_inner (tag : Tag) : '>' ∉ tag.inner :=
  fun member => (tag.unmarked_inner '>' member).2 rfl

/-- Behind the `<` of a tag stands a slash or a letter. -/
theorem exists_inner_eq_cons (tag : Tag) :
    ∃ c rest, tag.inner = c :: rest ∧ (c = '/' ∨ c.isAlpha = true) := by
  cases tag with
  | opening name => exact ⟨_, _, rfl, Or.inr name.isAlpha_first⟩
  | closing name => exact ⟨_, _, rfl, Or.inl rfl⟩
  | full name attributes => exact ⟨_, _, rfl, Or.inr name.isAlpha_first⟩

end Tag

/-! ## Pages -/

/-- A document of texts and tags in turns.  A text may be empty. -/
inductive Page where
  /-- The text behind the last tag. -/
  | last (prose : Prose)
  /-- A text with a tag behind it. -/
  | cons (prose : Prose) (tag : Tag) (rest : Page)

namespace Page

/-- A page, as it is written. -/
def text : Page → List Char
  | last prose => prose.chars
  | cons prose tag rest => prose.chars ++ (tag.text ++ rest.text)

/-- A page with its first text changed. -/
def mapFirst (change : Prose → Prose) : Page → Page
  | last prose => last (change prose)
  | cons prose tag rest => cons (change prose) tag rest

/-- A page with its last text changed. -/
def mapLast (change : Prose → Prose) : Page → Page
  | last prose => last (change prose)
  | cons prose tag rest => cons prose tag (rest.mapLast change)

/-- Nothing of the given kind is left at either end of the page. -/
def strip (test : Char → Bool) (page : Page) : Page :=
  (page.mapFirst (Prose.dropFront test)).mapLast (Prose.dropBack test)

/-- Every run of blanks that holds a line feed becomes one line feed, or goes when
its last line feed stands right behind another one. -/
def settle : Page → Page
  | last prose => last prose.settle
  | cons prose tag rest => cons prose.settle tag.settle rest.settle

/-- Blanks right before a tag of a block go. -/
def moveUp : Page → Page
  | last prose => last prose
  | cons prose tag rest =>
      cons (if tag.name.isBlock then prose.dropBack isBlank else prose) tag rest.moveUp

/-- The blanks at each edge of a text behind a tag become one space, unless the
text is the last one. -/
def softenInner : Page → Page
  | last prose => last prose
  | cons prose tag rest => cons prose.soften tag rest.softenInner

/-- The blanks at each edge of a text between two tags become one space. -/
def soften : Page → Page
  | last prose => last prose
  | cons prose tag rest => cons prose tag rest.softenInner

/-- The blanks behind a name without digits become one line feed. -/
def reflow : Page → Page
  | last prose => last prose
  | cons prose tag rest => cons prose tag.reflow rest.reflow

/-- What is to become of the whitespace of a page. -/
def contract (page : Page) : Page :=
  (page.strip isBlank).settle.moveUp.soften.reflow

end Page

/-- A part of a well-formed document. -/
inductive Part where
  | prose (prose : Prose)
  | tag (tag : Tag)

namespace Part

/-- A part, as it is written. -/
def text : Part → List Char
  | .prose passage => passage.chars
  | .tag written => written.text

/-- The page of some parts.  Texts without a tag between them are one text. -/
def page : List Part → Page
  | [] => .last ⟨[], by simp⟩
  | .prose passage :: parts => (page parts).mapFirst passage.append
  | .tag written :: parts => .cons ⟨[], by simp⟩ written (page parts)

/-- A page is written as its parts are. -/
theorem text_page (parts : List Part) : (page parts).text = parts.flatMap text := by
  induction parts with
  | nil => rfl
  | cons part parts ih =>
      rw [List.flatMap_cons, ← ih]
      cases part with
      | prose passage =>
          rw [page]
          cases page parts with
          | last prose => rfl
          | cons prose tag rest => exact List.append_assoc passage.chars prose.chars _
      | tag written => rfl

end Part

end HtmlMinifier
