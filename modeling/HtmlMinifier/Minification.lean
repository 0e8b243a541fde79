import HtmlMinifier.Draft

/-!
# Minifying a document

`minify` takes a document through all stages and puts the protected regions back for
the tokens that are left.  It has a result for every text, markup or not.

`minify` counts a sigil from a fixed seed, the first one that the normal form of the
document does not hold.  That alone does not make the result independent of it, since
dropping a comment can bring the parts of a sigil together.  Two sigils give the same
result when the characters of neither occur in the document in their order.

For a log the work is also recorded at a few milestones; the text in the end is the
same.
-/

namespace HtmlMinifier

/-- Minifies a document with a given sigil. -/
def minifyWith (sigil : Sigil) (document : String) : String :=
  ((Draft.start sigil document).run Stage.order).restore

/-- The sigil for a document, counted from a seed: one that the normal form of
the document does not hold. -/
def sigilFor (seed : UInt64) (document : String) : Sigil :=
  Sigil.fresh seed (Margin.normalize document.toList)

/-- Minifies a document with a sigil counted from a seed. -/
def minifySeeded (seed : UInt64) (document : String) : String :=
  minifyWith (sigilFor seed document) document

/-- Minifies a document. -/
def minify (document : String) : String :=
  minifySeeded 0x5bd1e995c2b2ae3d document

/-- The points of the work at which a log shows how far it has come. -/
inductive Milestone where
  | scripts
  | styles
  | comments
  | verbatim
  | whitespace
  deriving DecidableEq, Repr

namespace Milestone

/-- The milestones in their order. -/
def all : List Milestone :=
  [scripts, styles, comments, verbatim, whitespace]

/-- The stages between a milestone and the one before it. -/
def stages : Milestone → List Stage
  | scripts => [.normalize, .protect .script]
  | styles => [.protect .style]
  | comments => [.comments]
  | verbatim => [.protect .pre, .protect .textarea]
  | whitespace => [.lines, .blocks, .texts, .attributes]

/-- The milestones part the stages. -/
theorem flatMap_stages_all : all.flatMap stages = Stage.order :=
  rfl

end Milestone

namespace Draft

/-- Takes a draft from milestone to milestone: the draft at each, and the last
one. -/
def runThrough (draft : Draft) : List Milestone → List (Milestone × Draft) × Draft
  | [] => ([], draft)
  | milestone :: milestones =>
      let next := draft.run milestone.stages
      let (passed, last) := next.runThrough milestones
      ((milestone, next) :: passed, last)

theorem runThrough_snd (draft : Draft) (milestones : List Milestone) :
    (draft.runThrough milestones).2 = draft.run (milestones.flatMap Milestone.stages) := by
  induction milestones generalizing draft with
  | nil => rfl
  | cons milestone milestones ih =>
      simp [runThrough, ih, run_append]

end Draft

/-- A minified document with the drafts it went through. -/
structure Minification where
  milestones : List (Milestone × Draft)
  output : String

/-- Minifies a document and records the milestones. -/
def Minification.of (sigil : Sigil) (document : String) : Minification :=
  let (milestones, last) := (Draft.start sigil document).runThrough Milestone.all
  ⟨milestones, last.restore⟩

/-- Recording the milestones changes nothing. -/
@[simp]
theorem Minification.output_of (sigil : Sigil) (document : String) :
    (Minification.of sigil document).output = minifyWith sigil document := by
  simp [Minification.of, minifyWith, Draft.runThrough_snd, Milestone.flatMap_stages_all]

end HtmlMinifier
