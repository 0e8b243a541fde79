import HtmlMinifier.Proofs.Page

/-!
# Sheets

A sheet is a page over any alphabet: its texts may hold opaque symbols, and conditions
for browsers may stand between them as tags do.  What stands between angle brackets is
made of characters only.

The steps of the whitespace contract are steps on sheets as they are on pages.  A page
is a sheet of characters without conditions, and `Page.sheet` carries one step to the
other, so whatever is shown of sheets holds of pages.
-/

namespace HtmlMinifier

open Alphabet

/-! ## Passages -/

/-- A text without angle brackets over any alphabet. -/
@[ext]
structure Passage (α : Type) [Alphabet α] where
  symbols : List α
  unmarked : ∀ a ∈ symbols, a ≠ ofChar '<' ∧ a ≠ ofChar '>'

namespace Passage

variable {α : Type} [Alphabet α]

/-- Symbols that may be dropped, and blanks, change no text into markup. -/
theorem unmarked_of_shortened {symbols symbols' : List α}
    (unmarked : ∀ a ∈ symbols, a ≠ ofChar '<' ∧ a ≠ ofChar '>')
    (shortened : Shortened symbols' symbols) :
    ∀ a ∈ symbols', a ≠ ofChar '<' ∧ a ≠ ofChar '>' := by
  intro a member
  cases blank : isBlank a with
  | false => exact unmarked a (shortened.mem_of_mem blank member)
  | true => constructor <;> (rintro rfl; simp [isBlank] at blank)

theorem open_notMem (passage : Passage α) : ofChar '<' ∉ passage.symbols :=
  fun member => (passage.unmarked _ member).1 rfl

theorem close_notMem (passage : Passage α) : ofChar '>' ∉ passage.symbols :=
  fun member => (passage.unmarked _ member).2 rfl

/-- A text that has been shortened. -/
def shorten (passage : Passage α) (symbols : List α)
    (shortened : Shortened symbols passage.symbols) : Passage α :=
  ⟨symbols, unmarked_of_shortened passage.unmarked shortened⟩

def append (first second : Passage α) : Passage α where
  symbols := first.symbols ++ second.symbols
  unmarked := List.forall_mem_append.mpr ⟨first.unmarked, second.unmarked⟩

/-- A text without what is dropped at its front. -/
def dropFront (test : α → Bool) (passage : Passage α) : Passage α :=
  passage.shorten (passage.symbols.dropWhile test) (Thinned.dropWhile (fun _ _ => trivial) _)

/-- A text without what is dropped at its back. -/
def dropBack (test : α → Bool) (passage : Passage α) : Passage α :=
  passage.shorten (passage.symbols.rdropWhile test) (Thinned.rdropWhile (fun _ _ => trivial) _)

def settle (passage : Passage α) : Passage α :=
  passage.shorten (BlankRun.settle passage.symbols) (BlankRun.settle_respaced _).shortened

def soften (passage : Passage α) : Passage α :=
  passage.shorten (TextEdge.soften passage.symbols) (TextEdge.soften_respaced _).shortened

end Passage

/-! ## Brackets -/

/-- What stands between angle brackets: a tag, or one end of a condition. -/
inductive Bracket where
  | tag (written : Tag)
  | condition (test : Prose)
  | endCondition

namespace Bracket

/-- What stands between the angle brackets. -/
def inner : Bracket → List Char
  | tag written => written.inner
  | condition test => ['!', '-', '-', '['] ++ test.chars ++ [']']
  | endCondition => ['!', '[', 'e', 'n', 'd', 'i', 'f', ']', '-', '-']

def text (bracket : Bracket) : List Char :=
  '<' :: (bracket.inner ++ ['>'])

/-- Whether a bracket is the tag of a block. -/
def isBlock : Bracket → Bool
  | tag written => written.name.isBlock
  | condition _ => false
  | endCondition => false

def settle : Bracket → Bracket
  | tag written => tag written.settle
  | condition test => condition test.settle
  | endCondition => endCondition

/-- Only tags have attributes. -/
def reflow : Bracket → Bracket
  | tag written => tag written.reflow
  | condition test => condition test
  | endCondition => endCondition

theorem unmarked_inner (bracket : Bracket) : ∀ c ∈ bracket.inner, c ≠ '<' ∧ c ≠ '>' := by
  cases bracket with
  | tag written => exact written.unmarked_inner
  | condition test => simpa [inner, or_imp, forall_and] using test.unmarked
  | endCondition => decide

variable {α : Type} [Alphabet α]

theorem open_notMem_inner (bracket : Bracket) :
    (ofChar '<' : α) ∉ (spell bracket.inner : List α) :=
  fun member => (bracket.unmarked_inner '<' (ofChar_mem_spell.mp member)).1 rfl

theorem close_notMem_inner (bracket : Bracket) :
    (ofChar '>' : α) ∉ (spell bracket.inner : List α) :=
  fun member => (bracket.unmarked_inner '>' (ofChar_mem_spell.mp member)).2 rfl

theorem spell_text_append (bracket : Bracket) (behind : List α) :
    spell bracket.text ++ behind =
      ofChar '<' :: (spell bracket.inner ++ ofChar '>' :: behind) := by
  simp [text, spell]

/-- Only the first symbol of a bracket is an open angle bracket. -/
theorem open_notMem_tail (bracket : Bracket) :
    ofChar '<' ∉ (spell bracket.inner ++ [ofChar '>'] : List α) := by
  intro member
  rcases List.mem_append.mp member with inside | last
  · exact bracket.open_notMem_inner inside
  · simp at last

end Bracket

/-! ## Sheets -/

/-- A document of texts and brackets in turns.  A text may be empty. -/
inductive Sheet (α : Type) [Alphabet α] where
  /-- The text behind the last bracket. -/
  | last (passage : Passage α)
  /-- A text with a bracket behind it. -/
  | cons (passage : Passage α) (bracket : Bracket) (rest : Sheet α)

namespace Sheet

variable {α : Type} [Alphabet α]

/-- A sheet, as it is written. -/
def text : Sheet α → List α
  | last passage => passage.symbols
  | cons passage bracket rest => passage.symbols ++ (spell bracket.text ++ rest.text)

/-- A sheet with its first text changed. -/
def mapFirst (change : Passage α → Passage α) : Sheet α → Sheet α
  | last passage => last (change passage)
  | cons passage bracket rest => cons (change passage) bracket rest

/-- A sheet with its last text changed. -/
def mapLast (change : Passage α → Passage α) : Sheet α → Sheet α
  | last passage => last (change passage)
  | cons passage bracket rest => cons passage bracket (rest.mapLast change)

/-- Nothing of the given kind is left at either end of the sheet. -/
def strip (test : α → Bool) (sheet : Sheet α) : Sheet α :=
  (sheet.mapFirst (Passage.dropFront test)).mapLast (Passage.dropBack test)

/-- Every run of blanks is settled. -/
def settle : Sheet α → Sheet α
  | last passage => last passage.settle
  | cons passage bracket rest => cons passage.settle bracket.settle rest.settle

/-- Blanks right before a tag of a block go. -/
def moveUp : Sheet α → Sheet α
  | last passage => last passage
  | cons passage bracket rest =>
      cons (if bracket.isBlock then passage.dropBack isBlank else passage) bracket rest.moveUp

/-- The edges of a text behind a bracket are softened, unless the text is the last
one. -/
def softenInner : Sheet α → Sheet α
  | last passage => last passage
  | cons passage bracket rest => cons passage.soften bracket rest.softenInner

/-- The edges of a text between two brackets are softened. -/
def soften : Sheet α → Sheet α
  | last passage => last passage
  | cons passage bracket rest => cons passage bracket rest.softenInner

/-- The first attribute of each tag stands on a line of its own. -/
def reflow : Sheet α → Sheet α
  | last passage => last passage
  | cons passage bracket rest => cons passage bracket.reflow rest.reflow

end Sheet

/-! ## Pages are sheets -/

/-- A text of characters is a text over an alphabet. -/
def Prose.passage (prose : Prose) : Passage Char :=
  ⟨prose.chars, prose.unmarked⟩

theorem Prose.passage_soften (prose : Prose) : prose.soften.passage = prose.passage.soften :=
  Passage.ext (Prose.soften_eq_softened prose.chars).symm

namespace Page

/-- A page as a sheet. -/
def sheet : Page → Sheet Char
  | last prose => .last prose.passage
  | cons prose tag rest => .cons prose.passage (.tag tag) rest.sheet

theorem text_sheet (page : Page) : page.sheet.text = page.text := by
  induction page with
  | last prose => rfl
  | cons prose tag rest ih =>
      rw [sheet, Sheet.text, ih, spell_char]
      rfl

theorem sheet_strip (test : Char → Bool) (page : Page) :
    (page.strip test).sheet = page.sheet.strip test := by
  have back : ∀ page : Page, (page.mapLast (Prose.dropBack test)).sheet =
      page.sheet.mapLast (Passage.dropBack test) := by
    intro page
    induction page with
    | last prose => rfl
    | cons prose tag rest ih => rw [mapLast, sheet, ih]; rfl
  rw [strip, back, Sheet.strip]
  cases page <;> rfl

theorem sheet_settle (page : Page) : page.settle.sheet = page.sheet.settle := by
  induction page with
  | last prose => rfl
  | cons prose tag rest ih => rw [settle, sheet, ih]; rfl

theorem sheet_moveUp (page : Page) : page.moveUp.sheet = page.sheet.moveUp := by
  induction page with
  | last prose => rfl
  | cons prose tag rest ih =>
      rw [moveUp, sheet, ih, sheet, Sheet.moveUp, Bracket.isBlock]
      split <;> rfl

theorem sheet_soften (page : Page) : page.soften.sheet = page.sheet.soften := by
  have inner : ∀ page : Page, page.softenInner.sheet = page.sheet.softenInner := by
    intro page
    induction page with
    | last prose => rfl
    | cons prose tag rest ih => rw [softenInner, sheet, ih, Prose.passage_soften]; rfl
  cases page with
  | last prose => rfl
  | cons prose tag rest => rw [soften, sheet, inner]; rfl

theorem sheet_reflow (page : Page) : page.reflow.sheet = page.sheet.reflow := by
  induction page with
  | last prose => rfl
  | cons prose tag rest ih => rw [reflow, sheet, ih]; rfl

end Page

end HtmlMinifier
