import HtmlMinifier.Minification
import HtmlMinifier.Proofs.Expansion
import HtmlMinifier.Proofs.SheetWhitespace

/-!
# The whitespace contract holds

A page goes through all stages with an empty table: nothing is set aside, nothing is
dropped but margins, and each whitespace stage does its step of the contract.  The
margins are not all of the blanks at the ends of a page, but the lines that are
trimmed later lose the rest.
-/

namespace HtmlMinifier

open Alphabet

/-! ## All stages -/

/-- A page is stripped as its text is. -/
theorem Page.text_strip {test : Char → Bool} (opens : test '<' = false) (closes : test '>' = false)
    (page : Page) : (page.strip test).text = (page.text.dropWhile test).rdropWhile test := by
  rw [← text_sheet, ← text_sheet, sheet_strip, Sheet.text_strip opens closes]

/-- A table with nothing in it restores a text as it is. -/
theorem Table.restore_empty (sigil : Sigil) (text : List Char) :
    (Table.empty sigil).restore text = text := by
  rw [restore, expand_eq_replace]
  apply Pattern.replace_of_refused
  intro suffix _
  cases found : (Token.pattern (empty sigil).sigil (empty sigil).size).read suffix with
  | none => rfl
  | some pair => exact pair.1.elim0

namespace Draft

/-- A stage that sets nothing aside changes the text of a draft only. -/
theorem apply_of_pieces_eq {draft : Draft} {stage : Stage} {result : List Char}
    (pieces : stage.pieces draft.text = result.map .kept) :
    draft.apply stage = ⟨result, draft.table⟩ := by
  rw [apply, pieces, Table.park_map_kept]

variable {page : Page} {table : Table}

theorem apply_normalize_page (noReturn : '\r' ∉ page.text) :
    apply ⟨page.text, table⟩ .normalize = ⟨(page.strip isMargin).text, table⟩ := by
  apply apply_of_pieces_eq
  rw [Stage.pieces, Margin.normalize_of_notMem noReturn, Page.text_strip rfl rfl]

theorem apply_protect_page (region : Region) :
    apply ⟨page.text, table⟩ (.protect region) = ⟨page.text, table⟩ := by
  apply apply_of_pieces_eq
  rw [Stage.pieces, ← page.text_sheet, region.cut_sheet]

theorem apply_comments_page : apply ⟨page.text, table⟩ .comments = ⟨page.text, table⟩ := by
  apply apply_of_pieces_eq
  rw [Stage.pieces, ← page.text_sheet, Comment.strip_sheet]

/-- Lines are trimmed as if the margins were still there. -/
theorem apply_lines_page (noNull : '\x00' ∉ page.text) :
    apply ⟨(page.strip isMargin).text, table⟩ .lines =
      ⟨(page.strip isBlank).settle.text, table⟩ := by
  have blank : ∀ c ∈ page.text, isMargin c = true → isBlank c = true := by
    intro c member margin
    apply isBlank_of_isMargin margin
    rintro rfl
    exact noNull member
  apply apply_of_pieces_eq
  rw [Stage.pieces, Line.trim_eq_settle, Page.text_strip rfl rfl, rdropWhile_dropWhile_of_imp blank,
    ← Page.text_strip rfl rfl, ← Page.text_sheet, Sheet.settle_text, ← Page.sheet_settle,
    Page.text_sheet]

theorem apply_blocks_page : apply ⟨page.text, table⟩ .blocks = ⟨page.moveUp.text, table⟩ := by
  apply apply_of_pieces_eq
  rw [Stage.pieces, ← page.text_sheet, BlockTag.moveUp_sheet, ← page.sheet_moveUp, Page.text_sheet]

theorem apply_texts_page : apply ⟨page.text, table⟩ .texts = ⟨page.soften.text, table⟩ := by
  apply apply_of_pieces_eq
  rw [Stage.pieces, ← page.text_sheet, TextEdge.collapse_sheet, ← page.sheet_soften,
    Page.text_sheet]

theorem apply_attributes_page :
    apply ⟨page.text, table⟩ .attributes = ⟨page.reflow.text, table⟩ := by
  apply apply_of_pieces_eq
  rw [Stage.pieces, ← page.text_sheet, Attribute.reflow_sheet, ← page.sheet_reflow,
    Page.text_sheet]

/-- The stages together take a page to its contract. -/
theorem run_order_page (noReturn : '\r' ∉ page.text) (noNull : '\x00' ∉ page.text) :
    run ⟨page.text, table⟩ Stage.order = ⟨page.contract.text, table⟩ := by
  simp only [Stage.order, run_cons, run_nil]
  rw [apply_normalize_page noReturn, apply_protect_page, apply_protect_page, apply_comments_page,
    apply_protect_page, apply_protect_page, apply_lines_page noNull, apply_blocks_page,
    apply_texts_page, apply_attributes_page, Page.contract]

end Draft

/-- A well-formed document without carriage returns and null characters is minified
as the whitespace contract says. -/
theorem minifyWith_eq_contract (sigil : Sigil) {parts : List Part} {document : String}
    (written : document.toList = parts.flatMap Part.text) (noReturn : '\r' ∉ document.toList)
    (noNull : '\x00' ∉ document.toList) :
    minifyWith sigil document = String.ofList (Part.page parts).contract.text := by
  rw [← Part.text_page] at written
  rw [written] at noReturn noNull
  rw [minifyWith, Draft.start, written, Draft.run_order_page noReturn noNull, Draft.restore,
    Table.restore_empty]

/-- The document `<a  id=x> y\n</a>\n`, part by part. -/
def Part.anchor : List Part :=
  let name : TagName :=
    ⟨'a', [], by decide, by decide, fun region => by cases region <;> decide⟩
  let attributes : Attributes :=
    ⟨[' ', ' '], ['i', 'd', '=', 'x'], by decide, by decide, by decide, by decide, by decide,
      by rintro _ ⟨⟩; rfl, by rintro _ ⟨⟩; rfl⟩
  [.tag (.full name attributes), .prose ⟨[' ', 'y', '\n'], by decide⟩, .tag (.closing name),
    .prose ⟨['\n'], by decide⟩]

/-- The blanks before `id` become a line feed, those around `y` a space each, and the
last line feed goes. -/
theorem minifyWith_eq_contract_anchor :
    "<a  id=x> y\n</a>\n".toList = Part.anchor.flatMap Part.text ∧
      '\r' ∉ "<a  id=x> y\n</a>\n".toList ∧ '\x00' ∉ "<a  id=x> y\n</a>\n".toList ∧
        minifyWith ⟨0⟩ "<a  id=x> y\n</a>\n" =
            String.ofList (Part.page Part.anchor).contract.text ∧
          String.ofList (Part.page Part.anchor).contract.text = "<a\nid=x> y </a>" :=
  ⟨by decide, by decide, by decide,
    minifyWith_eq_contract ⟨0⟩ (by decide) (by decide) (by decide), by decide +kernel⟩

end HtmlMinifier
