import HtmlMinifier.Reader

/-!
# Lines

Lines lose the blanks at their edges, and line feeds are blanks too, so line ends
go with them in places.  The text is walked from left to right.  At the start of a
line a run of blanks goes as a whole, over however many lines it reaches.  Elsewhere
the longest run that stops at the end of a line goes; it may take line feeds with it
and then leaves the walk at the start of a line.
-/

namespace HtmlMinifier.Line

open Alphabet

variable {α : Type} [Alphabet α]

/-- The longest run of blanks at the front of a text that is not empty and stops
at the end of a line. -/
def trailing? : Reader α
  | [] => none
  | a :: text =>
      if isBlank a then
        match trailing? text with
        | some (run, rest) => some (a :: run, rest)
        | none => if endsLine text then some ([a], text) else none
      else
        none

theorem trailing?_faithful : Reader.Faithful (trailing? : Reader α) := by
  intro text
  induction text with
  | nil => simp [trailing?]
  | cons a text ih =>
      intro taken rest read
      simp only [trailing?] at read
      cases blank : isBlank a with
      | false => simp [blank] at read
      | true =>
          cases inner : trailing? text with
          | some pair =>
              simp only [blank, inner, if_true, Option.some.injEq, Prod.mk.injEq] at read
              simp [← read.1, ← read.2, ih inner]
          | none =>
              cases atEnd : endsLine text with
              | false => simp [blank, inner, atEnd] at read
              | true =>
                  simp only [blank, inner, atEnd, if_true, Option.some.injEq,
                    Prod.mk.injEq] at read
                  simp [← read.1, ← read.2]

/-- A run that stops at the end of a line is not empty. -/
theorem trailing?_ne_nil {text run rest : List α} (read : trailing? text = some (run, rest)) :
    run ≠ [] := by
  cases text with
  | nil => simp [trailing?] at read
  | cons a text => grind [trailing?]

theorem length_of_trailing? {text run rest : List α}
    (read : trailing? text = some (run, rest)) : rest.length < text.length := by
  have positive := List.length_pos_iff.mpr (trailing?_ne_nil read)
  rw [← trailing?_faithful read, List.length_append]
  omega

/-- Whether the line after a run of symbols starts right behind it. -/
def startsLine (run : List α) : Bool :=
  match run.getLast? with
  | some a => is '\n' a
  | none => false

/-- Trims the rest of a text.  `atStart` says whether it begins at the start of a
line, and `done` is what is already trimmed, backwards. -/
def trimFrom (atStart : Bool) (done : List α) : List α → List α
  | [] => done.reverse
  | a :: text =>
      if atStart && isBlank a then
        trimFrom false done (text.dropWhile isBlank)
      else
        match _ : trailing? (a :: text) with
        | some (run, rest) => trimFrom (startsLine run) done rest
        | none => trimFrom (is '\n' a) (a :: done) text
termination_by text => text.length
decreasing_by
  · exact Nat.lt_succ_of_le (List.dropWhile_sublist _).length_le
  · exact length_of_trailing? ‹_›
  · exact Nat.lt_succ_self _

/-- Trims the lines of a document and drops blank lines. -/
def trim (text : List α) : List α :=
  trimFrom true [] text

@[simp]
theorem trimFrom_nil (atStart : Bool) (done : List α) :
    trimFrom atStart done [] = done.reverse := by
  simp [trimFrom]

/-- At the start of a line a run of blanks goes as a whole. -/
theorem trimFrom_start {a : α} (blank : isBlank a = true) (done text : List α) :
    trimFrom true done (a :: text) = trimFrom false done (text.dropWhile isBlank) := by
  rw [trimFrom]
  simp [blank]

/-- A run of blanks that stops at the end of a line goes. -/
theorem trimFrom_trailing {text run rest : List α}
    (read : trailing? text = some (run, rest)) (done : List α) :
    trimFrom false done text = trimFrom (startsLine run) done rest := by
  cases text with
  | nil => simp [trailing?] at read
  | cons a text =>
      rw [trimFrom]
      simp only [Bool.false_and, Bool.false_eq_true, if_false]
      split
      next run' rest' read' =>
        simp only [read, Option.some.injEq, Prod.mk.injEq] at read'
        rw [read'.1, read'.2]
      next refused => simp [read] at refused

/-- Any other symbol stays. -/
theorem trimFrom_kept {atStart : Bool} {a : α} {text : List α}
    (inside : (atStart && isBlank a) = false) (refused : trailing? (a :: text) = none)
    (done : List α) :
    trimFrom atStart done (a :: text) = trimFrom (is '\n' a) (a :: done) text := by
  rw [trimFrom]
  simp only [inside, Bool.false_eq_true, if_false]
  split
  next read => simp [refused] at read
  next => rfl

/-- Induction along the walk through a text. -/
theorem trimFrom_induction {motive : Bool → List α → Prop}
    (nil : ∀ atStart, motive atStart [])
    (start : ∀ a text, isBlank a = true → motive false (text.dropWhile isBlank) →
      motive true (a :: text))
    (trailing : ∀ text run rest, trailing? text = some (run, rest) →
      motive (startsLine run) rest → motive false text)
    (kept : ∀ atStart a text, (atStart && isBlank a) = false → trailing? (a :: text) = none →
      motive (is '\n' a) text → motive atStart (a :: text))
    (atStart : Bool) (text : List α) : motive atStart text := by
  induction length : text.length using Nat.strongRecOn generalizing atStart text with
  | ind n ih =>
      cases text with
      | nil => exact nil atStart
      | cons a text =>
          cases skips : atStart && isBlank a with
          | true =>
              obtain ⟨rfl, blank⟩ := Bool.and_eq_true_iff.mp skips
              have shorter := (List.dropWhile_sublist (isBlank (α := α)) (l := text)).length_le
              exact start a text blank
                (ih _ (by simp only [List.length_cons] at length; omega) _ _ rfl)
          | false =>
              cases read : trailing? (a :: text) with
              | none =>
                  exact kept atStart a text skips read
                    (ih _ (by simp only [List.length_cons] at length; omega) _ _ rfl)
              | some pair =>
                  obtain ⟨run, rest⟩ := pair
                  have blank : isBlank a = true := by
                    cases blank : isBlank a with
                    | true => rfl
                    | false => simp [trailing?, blank] at read
                  have within : atStart = false := by simpa [blank] using skips
                  subst within
                  exact trailing _ run rest read
                    (ih _ (length ▸ length_of_trailing? read) _ _ rfl)

/-- What is done already stays in front. -/
theorem trimFrom_eq (atStart : Bool) (done text : List α) :
    trimFrom atStart done text = done.reverse ++ trimFrom atStart [] text := by
  induction atStart, text using trimFrom_induction generalizing done with
  | nil atStart => simp
  | start a text blank ih => rw [trimFrom_start blank, trimFrom_start blank, ih]
  | trailing text run rest read ih => rw [trimFrom_trailing read, trimFrom_trailing read, ih]
  | kept atStart a text inside refused ih =>
      rw [trimFrom_kept inside refused, trimFrom_kept inside refused, ih, ih [a]]
      simp

@[simp]
theorem trim_nil : trim ([] : List α) = [] := by
  simp [trim]

end HtmlMinifier.Line
