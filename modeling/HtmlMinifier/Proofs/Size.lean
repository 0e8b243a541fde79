import HtmlMinifier.Log
import HtmlMinifier.Proofs.StageThinning
import HtmlMinifier.Proofs.Transparency
import Mathlib.Data.String.Basic

/-!
# Minified documents are no longer

While regions are set aside their tokens can make a draft longer than the
document.  What does not grow is the weight of the symbols that the draft stands
for: the bytes of their text when every symbol is written out.

Dropping symbols and changing blanks never adds weight.  A close tag that is
written anew has as many characters as the one in its place, and all of its own
are ASCII.  A minified document is therefore no longer than the document, and what
a log calls saved is the exact difference.
-/

namespace HtmlMinifier

open Alphabet

namespace Symbol

/-- How many bytes a document of symbols takes in UTF-8 when every symbol is
written out. -/
def weight (text : List Symbol) : Nat :=
  String.utf8Len (flattenAll text)

@[simp]
theorem weight_append (first second : List Symbol) :
    weight (first ++ second) = weight first + weight second := by
  simp [weight]

/-- Every blank takes one byte. -/
theorem weight_of_isBlank (a : Symbol) (blank : isBlank a = true) : weight [a] = 1 := by
  rcases exists_of_isBlank blank with ⟨c, listed, rfl⟩
  have oneByte : ∀ c ∈ [' ', '\t', '\n', '\x0b', '\x0c', '\r'], c.utf8Size = 1 := by decide
  exact congrArg (0 + ·) (oneByte c listed)

/-- A shortened document weighs no more. -/
theorem weight_le_of_shortened {text' text : List Symbol} (shortened : Shortened text' text) :
    weight text' ≤ weight text := by
  apply shortened.weight_le
  · exact fun a text => weight_append [a] text
  · intro a b blank blank'
    rw [weight_of_isBlank a blank, weight_of_isBlank b blank']

/-- Characters weigh at least one byte each. -/
theorem length_le_weight_spell (letters : List Char) :
    letters.length ≤ weight (spell letters) := by
  rw [weight, spell, show letters.map ofChar = letters.map char from rfl, flattenAll_map_char]
  induction letters with
  | nil => exact Nat.le_refl _
  | cons c letters ih => exact Nat.add_le_add ih c.utf8Size_pos

/-- A close tag that is looked for weighs one byte for each of its characters. -/
theorem weight_spell_closeTag (region : Region) :
    weight (spell (Markup.closeTag region.name)) = (Markup.closeTag region.name).length := by
  cases region <;> rfl

/-- What is kept of a region weighs no more than the region with the blanks around
it. -/
theorem weight_le_of_read {region : Region} {text content rest : List Symbol}
    (found : region.pattern.read text = some (content, rest)) :
    ∃ matched, text = matched ++ rest ∧ weight content ≤ weight matched := by
  obtain ⟨before, element, behind, _, _, shape, rfl, written, sameCase, closing⟩ :=
    Region.exists_of_read found
  refine ⟨before ++ element.text ++ behind, shape, ?_⟩
  have inside : weight element.text ≤ weight (before ++ element.text ++ behind) := by
    rw [weight_append, weight_append]
    exact (Nat.le_add_left _ _).trans (Nat.le_add_right _ _)
  apply Nat.le_trans ?_ inside
  rcases region.exists_core element with ⟨core, content, _, ⟨verbatim, rfl⟩ | ⟨anew, pruned⟩⟩
  · rw [content, verbatim, spell_nil, List.append_nil]
  · have sameLength : written.length = (Markup.closeTag region.name).length := by
      simpa using congrArg List.length sameCase
    calc
      weight (region.content element) =
          weight core + weight (spell (Markup.closeTag region.name)) := by
        rw [content, anew, weight_append]
      _ ≤ weight (element.opening ++ element.body) + weight (spell written) := by
        apply Nat.add_le_add (weight_le_of_shortened pruned.shortened)
        rw [weight_spell_closeTag, ← sameLength]
        exact length_le_weight_spell written
      _ = weight element.text := by
        rw [Element.text, weight_append (_ ++ _), closing]

/-- No stage adds weight. -/
theorem weight_apply_le (text : List Symbol) (stage : Stage) :
    weight (apply text stage) ≤ weight text := by
  rw [weight, flattenAll_apply]
  change weight _ ≤ _
  rcases stage.protects_or_thins text with ⟨region, rfl⟩ | ⟨result, pieces, shortened, _⟩
  · apply Pattern.related_replace fun text' text => weight text' ≤ weight text
    · exact fun text => Nat.le_refl _
    · intro first first' second second' front back
      rw [weight_append, weight_append]
      exact Nat.add_le_add front back
    · exact fun text content rest found => weight_le_of_read found
  · rw [pieces, Piece.flatMap_text_kept]
    exact weight_le_of_shortened shortened

/-- No sequence of stages adds weight. -/
theorem weight_run_le (text : List Symbol) (stages : List Stage) :
    weight (run text stages) ≤ weight text := by
  induction stages generalizing text with
  | nil => exact Nat.le_refl _
  | cons stage stages ih => exact (ih (apply text stage)).trans (weight_apply_le text stage)

end Symbol

/-- The sizes in an event differ by what the event says was saved. -/
def Event.Exact : Event → Prop
  | rootRecorded _ => True
  | reached .. => True
  | minified input output => ((input - output : Nat) : Int) = input - output
  | finished _ input output => ((input - output : Nat) : Int) = input - output

/-- A minified document is no longer than the document, at whatever stage the work
is stopped. -/
theorem Draft.utf8ByteSize_restore_le {sigil : Sigil} {document : String}
    (absent : ¬ sigil.text.Sublist document.toList) (stages : List Stage) :
    ((start sigil document).run stages).restore.utf8ByteSize ≤ document.utf8ByteSize := by
  have weights := Symbol.weight_run_le (Symbol.start document) stages
  rw [restore_run_start absent, String.utf8ByteSize_ofList]
  rwa [Symbol.weight, Symbol.weight, Symbol.start, Symbol.flattenAll_map_char,
    String.utf8Len_toList] at weights

/-- Minifying never makes a document longer, and every event of the work says
exactly how much was saved. -/
theorem utf8ByteSize_minifyWith_le {sigil : Sigil} {document : String}
    (absent : ¬ sigil.text.Sublist document.toList) (path : Path) :
    (minifyWith sigil document).utf8ByteSize ≤ document.utf8ByteSize ∧
      ∀ event ∈ (Minification.of sigil document).events document ++
          [.finished path document.utf8ByteSize (minifyWith sigil document).utf8ByteSize],
        event.Exact := by
  have size : (minifyWith sigil document).utf8ByteSize ≤ document.utf8ByteSize :=
    Draft.utf8ByteSize_restore_le absent Stage.order
  constructor
  · exact size
  · intro event member
    rw [Minification.events, Minification.output_of, List.append_assoc, List.mem_append] at member
    rcases member with milestone | figures
    · rcases List.mem_map.mp milestone with ⟨reached, _, rfl⟩
      exact trivial
    · simp only [List.mem_append, List.mem_singleton] at figures
      rcases figures with rfl | rfl
      · exact Int.ofNat_sub size
      · exact Int.ofNat_sub size

/-- A close tag in capitals is written anew, and a token stands in for the script
meanwhile. -/
theorem utf8ByteSize_minifyWith_script_le :
    ¬ (Sigil.mk 0).text.Sublist "<script>é</SCRIPT>".toList ∧
      (minifyWith ⟨0⟩ "<script>é</SCRIPT>").utf8ByteSize ≤ "<script>é</SCRIPT>".utf8ByteSize ∧
        ∀ event ∈ (Minification.of ⟨0⟩ "<script>é</SCRIPT>").events "<script>é</SCRIPT>" ++
            [.finished Path.standard "<script>é</SCRIPT>".utf8ByteSize
              (minifyWith ⟨0⟩ "<script>é</SCRIPT>").utf8ByteSize],
          event.Exact :=
  ⟨by decide +kernel, utf8ByteSize_minifyWith_le (by decide +kernel) Path.standard⟩

end HtmlMinifier
