import HtmlMinifier.Proofs.Transparency
import HtmlMinifier.Proofs.Unrest
import Mathlib.Logic.Function.Iterate

/-!
# Repeated minifying settles

Minifying twice is not the same as minifying once: a comment that is dropped can bring
markup together, and a blank that one run lays bare is moved by the next.  But it ends.
Every run leaves a document as it is, makes it shorter, or lowers its unrest without
changing its length, so the documents of repeated runs become one document at some point,
and none of them comes back once it has been left.

Each run may use a sigil of its own.  Without `%` in the document none occurs in it, and no
run brings one about, so every run is one without tokens.
-/

namespace HtmlMinifier

open Alphabet

/-- The document after so many runs, each with the sigil that is chosen for it. -/
def repeated (choose : Nat → String → Sigil) (html : String) : Nat → String
  | 0 => html
  | n + 1 => minifyWith (choose n (repeated choose html n)) (repeated choose html n)

/-- With the sigils that runs of one seed choose, runs are repeated minifying. -/
theorem repeated_sigilFor (seed : UInt64) (html : String) (n : Nat) :
    repeated (fun _ => sigilFor seed) html n = (minifySeeded seed)^[n] html := by
  induction n with
  | zero => rfl
  | succ n ih => rw [repeated, Function.iterate_succ_apply', ih, minifySeeded]

/-! ## No run brings a percent sign about -/

namespace Symbol

variable {text' text : List Symbol}

theorem percent_mem_of_shortened (shortened : Shortened text' text)
    (member : '%' ∈ flattenAll text') : '%' ∈ flattenAll text := by
  rw [flattenAll_eq_flatMap, List.mem_flatMap] at member ⊢
  obtain ⟨a, inText, within⟩ := member
  rcases shortened.mem_or_of_mem inText with old | rfl | rfl
  · exact ⟨a, old, within⟩
  · simp [flatten] at within
  · simp [flatten] at within

theorem percent_mem_of_apply {stage : Stage} (member : '%' ∈ flattenAll (apply text stage)) :
    '%' ∈ flattenAll text := by
  rw [flattenAll_apply] at member
  rcases stage.protects_or_thins text with ⟨region, rfl⟩ | ⟨result, pieces, shortened, -⟩
  · refine Pattern.related_replace
      (fun text' text => '%' ∈ flattenAll text' → '%' ∈ flattenAll text) (fun _ => id) ?_ ?_ text
      member
    · intro first first' second second' front back
      rw [flattenAll_append, flattenAll_append, List.mem_append, List.mem_append]
      exact Or.imp front back
    · intro text content rest found
      obtain ⟨before, element, behind, -, -, shape, rfl, -⟩ := Region.exists_of_read found
      obtain ⟨core, content, shortened, -⟩ := region.exists_core element
      refine ⟨_, shape, fun member => ?_⟩
      rw [id, content, flattenAll_append, List.mem_append] at member
      rw [flattenAll_append, flattenAll_append, List.mem_append, List.mem_append]
      rcases member with inCore | inTag
      · exact Or.inl (Or.inr (percent_mem_of_shortened shortened inCore))
      · have plain : '%' ∉ flattenAll (spell region.closer) := by cases region <;> decide
        exact absurd inTag plain
  · rw [pieces, Piece.flatMap_text_kept] at member
    exact percent_mem_of_shortened shortened member

end Symbol

theorem percent_notMem_minifySymbols {html : String} (plain : '%' ∉ html.toList) :
    '%' ∉ (minifySymbols html).toList := by
  have runs : ∀ (stages : List Stage) (text : List Symbol),
      '%' ∈ Symbol.flattenAll (Symbol.run text stages) → '%' ∈ Symbol.flattenAll text := by
    intro stages
    induction stages with
    | nil => exact fun _ => id
    | cons stage stages ih => exact fun text member => Symbol.percent_mem_of_apply (ih _ member)
  rw [minifySymbols, String.toList_ofList]
  intro member
  have before := runs Stage.order (Symbol.start html) member
  rw [Symbol.start, Symbol.flattenAll_map_char] at before
  exact plain before

/-- Without percent signs repeated runs are repeated runs without tokens. -/
theorem repeated_eq_iterate (choose : Nat → String → Sigil) {html : String}
    (plain : '%' ∉ html.toList) (n : Nat) :
    repeated choose html n = minifySymbols^[n] html ∧ '%' ∉ (repeated choose html n).toList := by
  induction n with
  | zero => exact ⟨rfl, plain⟩
  | succ n ih =>
      obtain ⟨same, absent⟩ := ih
      have next : repeated choose html (n + 1) = minifySymbols (repeated choose html n) :=
        minifyWith_of_percent_notMem absent _
      rw [next, Function.iterate_succ_apply', same]
      exact ⟨rfl, percent_notMem_minifySymbols (same ▸ absent)⟩

/-! ## Repetition comes to an end -/

open Unrest

/-- Some run leaves the document as it is. -/
theorem exists_minifySymbols_iterate_eq (html : String) :
    ∃ n, minifySymbols (minifySymbols^[n] html) = minifySymbols^[n] html := by
  by_cases still : minifySymbols html = html
  · exact ⟨0, still⟩
  · obtain ⟨n, settled⟩ := exists_minifySymbols_iterate_eq (minifySymbols html)
    exact ⟨n + 1, settled⟩
termination_by (html.toList.length, count false html.toList)
decreasing_by
  cases calms_minifySymbols html with
  | same equal => exact absurd (String.toList_inj.mp equal) still
  | shorter less => exact Prod.Lex.left _ _ less
  | calmer length_eq _ less => exact length_eq ▸ Prod.Lex.right _ less

/-- Later runs calm down what earlier ones have left. -/
theorem calms_iterate (html : String) {i j : Nat} (later : i ≤ j) :
    Calms false (minifySymbols^[j] html).toList (minifySymbols^[i] html).toList := by
  induction later with
  | refl => exact .same rfl
  | step _ ih =>
      rw [Function.iterate_succ_apply']
      exact (calms_minifySymbols _).trans ih

/-- A document stays once a run has left it as it is. -/
theorem iterate_eq_of_fixed {html : String} {n m : Nat} (later : n ≤ m)
    (settled : minifySymbols (minifySymbols^[n] html) = minifySymbols^[n] html) :
    minifySymbols^[m] html = minifySymbols^[n] html := by
  obtain ⟨more, rfl⟩ := Nat.exists_eq_add_of_le' later
  rw [Function.iterate_add_apply]
  exact Function.iterate_fixed settled more

/-- Documents settle when from some place on there is only one, and when a document that is
met again is the only one from its first place on. -/
def Settles (documents : Nat → String) : Prop :=
  (∃ n, ∀ m, n ≤ m → documents m = documents n) ∧
    ∀ i j, i < j → documents j = documents i → ∀ m, i ≤ m → documents m = documents i

theorem settles_minifySymbols (html : String) : Settles fun n => minifySymbols^[n] html := by
  constructor
  · obtain ⟨n, settled⟩ := exists_minifySymbols_iterate_eq html
    exact ⟨n, fun m later => iterate_eq_of_fixed later settled⟩
  · intro i j between (again : minifySymbols^[j] html = minifySymbols^[i] html) m later
    have calms := calms_iterate html (Nat.succ_le_of_lt between)
    rw [again] at calms
    have next := calms.antisymm (calms_iterate html (Nat.le_succ i))
    rw [String.toList_inj, Function.iterate_succ_apply'] at next
    exact iterate_eq_of_fixed later next.symm

/-- Minifying again and again with one seed settles, if there is no `%`. -/
theorem settles_minifySeeded (seed : UInt64) {html : String} (plain : '%' ∉ html.toList) :
    Settles fun n => (minifySeeded seed)^[n] html := by
  have runs : ∀ n, (minifySeeded seed)^[n] html = minifySymbols^[n] html := by
    intro n
    rw [← repeated_sigilFor, (repeated_eq_iterate _ plain n).1]
  simp only [runs]
  exact settles_minifySymbols html

/-- Repeated minifying settles: without `%`, whatever else a document holds, some run is
the last one to change anything.  It never runs in a circle: when a document is met again,
no run in between or later changes it. -/
theorem repeated_settles {html : String} (plain : '%' ∉ html.toList)
    (choose : Nat → String → Sigil) :
    (∃ n, ∀ m, n ≤ m → repeated choose html m = repeated choose html n) ∧
      ∀ i j, i < j → repeated choose html j = repeated choose html i →
        ∀ m, i ≤ m → repeated choose html m = repeated choose html i := by
  simp only [(repeated_eq_iterate choose plain _).1]
  exact settles_minifySymbols html

/-- A comment whose removal brings another comment together, which the first run leaves for
the second. -/
theorem repeated_settles_comment :
    '%' ∉ "<p>a</p> <!-<!-- b -->- c --> d".toList ∧
      (∃ n, ∀ m, n ≤ m →
        repeated (fun _ => sigilFor 0) "<p>a</p> <!-<!-- b -->- c --> d" m =
          repeated (fun _ => sigilFor 0) "<p>a</p> <!-<!-- b -->- c --> d" n) ∧
      ∀ i j, i < j →
        repeated (fun _ => sigilFor 0) "<p>a</p> <!-<!-- b -->- c --> d" j =
          repeated (fun _ => sigilFor 0) "<p>a</p> <!-<!-- b -->- c --> d" i →
        ∀ m, i ≤ m →
          repeated (fun _ => sigilFor 0) "<p>a</p> <!-<!-- b -->- c --> d" m =
            repeated (fun _ => sigilFor 0) "<p>a</p> <!-<!-- b -->- c --> d" i :=
  ⟨by decide +kernel, repeated_settles (by decide +kernel) fun _ => sigilFor 0⟩

end HtmlMinifier
