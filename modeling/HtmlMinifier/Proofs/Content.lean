import HtmlMinifier.Proofs.StageThinning
import HtmlMinifier.Proofs.Transparency

/-!
# What the whitespace stages keep

The stages of a document fall in two halves.  The first half decides what the
content of the document is: it drops margins, carriage returns, wrappers and
comments, and writes close tags anew.  The second half is about whitespace only.
It protects preformatted text and text areas, trims lines, moves the tags of
blocks up, softens the edges of texts and reflows first attributes.

Blanks apart, the second half changes nothing: it drops, adds, doubles and moves no
other character, in whatever markup.  A no-break space is no blank, so it stays.
-/

namespace HtmlMinifier

open Alphabet

/-- A text without its blanks. -/
def withoutBlanks (text : String) : String :=
  String.ofList (text.toList.filter fun c => !isBlank c)

namespace Stage

/-- The stages that decide what the content of a document is. -/
def contentOrder : List Stage :=
  [normalize, protect .script, protect .style, comments]

/-- The stages that are about whitespace only. -/
def whitespaceOrder : List Stage :=
  [protect .pre, protect .textarea, lines, blocks, texts, attributes]

theorem order_eq_append : order = contentOrder ++ whitespaceOrder :=
  rfl

theorem respaces_of_mem_whitespaceOrder {stage : Stage} (member : stage ∈ whitespaceOrder) :
    stage.Respaces := by
  simp only [whitespaceOrder, List.mem_cons, List.not_mem_nil, or_false] at member
  rcases member with rfl | rfl | rfl | rfl | rfl | rfl
  · exact (rfl : Region.pre.closer = [])
  · exact (rfl : Region.textarea.closer = [])
  all_goals exact trivial

end Stage

namespace Symbol

/-- What a symbol stands for, blanks apart, to every depth. -/
def ink (a : Symbol) : List Char :=
  a.flatten.filter fun c => !isBlank c

theorem ink_of_isBlank (a : Symbol) (blank : isBlank a = true) : ink a = [] := by
  cases a with
  | char c =>
      have blank' : isBlank c = true := blank
      simp [ink, flatten, blank']
  | stored content => exact absurd blank Bool.false_ne_true

theorem flatMap_ink (text : List Symbol) :
    text.flatMap ink = (flattenAll text).filter fun c => !isBlank c := by
  rw [flattenAll_eq_flatMap, List.filter_flatMap]
  rfl

/-- A stage that changes blanks only keeps everything else. -/
theorem flatMap_ink_apply {stage : Stage} (respaces : stage.Respaces) (text : List Symbol) :
    (apply text stage).flatMap ink = text.flatMap ink := by
  calc
    (apply text stage).flatMap ink =
        ((stage.pieces text).flatMap (Piece.text id)).flatMap ink := by
      rw [flatMap_ink, flatMap_ink, flattenAll_apply]
    _ = text.flatMap ink :=
      (Stage.respaced respaces text).flatMap_eq ink_of_isBlank ink_of_isBlank

/-- So do several such stages. -/
theorem flatMap_ink_run {stages : List Stage} (respace : ∀ stage ∈ stages, stage.Respaces)
    (text : List Symbol) : (run text stages).flatMap ink = text.flatMap ink := by
  induction stages generalizing text with
  | nil => rfl
  | cons stage stages ih =>
      obtain ⟨first, others⟩ := List.forall_mem_cons.mp respace
      rw [run_cons, ih others, flatMap_ink_apply first]

end Symbol

/-- Blanks apart, a minified document is what the stages that decide on its
content make of it. -/
theorem withoutBlanks_minifyWith {sigil : Sigil} {document : String}
    (absent : ¬ sigil.text.Sublist document.toList) :
    withoutBlanks (minifyWith sigil document) =
      withoutBlanks ((Draft.start sigil document).run Stage.contentOrder).restore := by
  have whitespace := Symbol.flatMap_ink_run (fun _ => Stage.respaces_of_mem_whitespaceOrder)
    (Symbol.run (Symbol.start document) Stage.contentOrder)
  rw [Symbol.flatMap_ink, Symbol.flatMap_ink, ← Symbol.run_append,
    ← Stage.order_eq_append] at whitespace
  rw [minifyWith, Draft.restore_run_start absent, Draft.restore_run_start absent]
  simp only [withoutBlanks, String.toList_ofList, whitespace]

/-- A comment is no content, not even inside preformatted text. -/
theorem withoutBlanks_minifyWith_pre :
    ¬ (Sigil.mk 0).text.Sublist "<p> a <pre> b<!-- c --> </pre>".toList ∧
      withoutBlanks (minifyWith ⟨0⟩ "<p> a <pre> b<!-- c --> </pre>") =
        withoutBlanks
          ((Draft.start ⟨0⟩ "<p> a <pre> b<!-- c --> </pre>").run Stage.contentOrder).restore :=
  ⟨by decide +kernel, withoutBlanks_minifyWith (by decide +kernel)⟩

end HtmlMinifier
