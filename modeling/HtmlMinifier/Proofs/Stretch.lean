import HtmlMinifier.Proofs.Polish
import Mathlib.Data.List.SplitBy

/-!
# Stretches

A text consists of stretches: longest runs of blanks and longest runs of other symbols, in
turn.  To trim the lines of a text is a rule for each stretch by itself.  All that the rule
needs to know of the rest is whether the stretch stands at an end of the document.

The walk that trims knows nothing of stretches.  It sees line starts and runs that stop at
line ends, and goes through a run of several lines in more than one step.
-/

namespace HtmlMinifier

open Alphabet

variable {α : Type} [Alphabet α]

/-- Whether two neighbours belong to the same stretch. -/
def alike (a b : α) : Bool :=
  isBlank a == isBlank b

/-- The stretches of a text. -/
def stretches (text : List α) : List (List α) :=
  text.splitBy alike

/-- What is left of a stretch when lines are trimmed.  Blanks at an end of the document go,
blanks elsewhere are settled, and everything else stays. -/
def trimStretch (atEnd : Bool) (stretch : List α) : List α :=
  if stretch.all isBlank then
    if atEnd then [] else BlankRun.settled stretch
  else
    stretch

/-- What is left of the stretches of a document.  `atStart` says whether the first of them
stands at the start of the document. -/
def trimStretches (atStart : Bool) : List (List α) → List α
  | [] => []
  | stretch :: rest =>
      trimStretch (atStart || rest.isEmpty) stretch ++ trimStretches false rest

theorem trimStretch_of_blank {run : List α} (blanks : ∀ a ∈ run, isBlank a = true)
    (atEnd : Bool) : trimStretch atEnd run = if atEnd then [] else BlankRun.settled run := by
  rw [trimStretch, if_pos (List.all_eq_true.mpr blanks)]

theorem trimStretch_of_inked {stretch : List α} (nonempty : stretch ≠ [])
    (inked : ∀ a ∈ stretch, isBlank a = false) (atEnd : Bool) :
    trimStretch atEnd stretch = stretch := by
  rw [trimStretch, if_neg]
  intro blanks
  rcases List.exists_mem_of_ne_nil stretch nonempty with ⟨a, member⟩
  have blank := List.all_eq_true.mp blanks a member
  rw [inked a member] at blank
  contradiction

/-- Stretches in turn: none is empty, each is of one kind, and no blank follows a run of
blanks. -/
inductive InTurn : List (List α) → Prop
  | nil : InTurn []
  | blanks {run : List α} {rest : List (List α)} :
      run ≠ [] → (∀ a ∈ run, isBlank a = true) → (∀ a ∈ rest.flatten.head?, isBlank a = false) →
        InTurn rest → InTurn (run :: rest)
  | inks {stretch : List α} {rest : List (List α)} :
      stretch ≠ [] → (∀ a ∈ stretch, isBlank a = false) → InTurn rest → InTurn (stretch :: rest)

/-- Neighbours of one kind are all of the kind of the first. -/
theorem isBlank_eq_of_isChain {a : α} {stretch : List α}
    (chain : (a :: stretch).IsChain fun b c => alike b c = true) :
    ∀ b ∈ a :: stretch, isBlank b = isBlank a := by
  induction stretch generalizing a with
  | nil => simp
  | cons c stretch ih =>
      rcases List.isChain_cons_cons.mp chain with ⟨first, others⟩
      have same : isBlank a = isBlank c := eq_of_beq first
      intro b member
      rcases List.mem_cons.mp member with rfl | further
      · rfl
      · rw [ih others b further, same]

/-- The stretches of a text are in turn, and make up the text. -/
theorem inTurn_stretches (text : List α) : InTurn (stretches text) := by
  rcases List.splitBy_eq_iff.mp (rfl : text.splitBy alike = stretches text) with
    ⟨-, nonempty, uniform, apart⟩
  rw [← stretches] at nonempty uniform apart
  generalize stretches text = parts at nonempty uniform apart
  induction parts with
  | nil => exact InTurn.nil
  | cons stretch rest ih =>
      rw [List.mem_cons, not_or] at nonempty
      rcases List.forall_mem_cons.mp uniform with ⟨first, others⟩
      have behind : InTurn rest := ih nonempty.2 others apart.tail
      cases stretch with
      | nil => exact absurd rfl nonempty.1
      | cons a stretch =>
          have same := isBlank_eq_of_isChain first
          cases blank : isBlank a with
          | false => exact InTurn.inks (List.cons_ne_nil a stretch) (blank ▸ same) behind
          | true =>
              refine InTurn.blanks (List.cons_ne_nil a stretch) (blank ▸ same) ?_ behind
              cases rest with
              | nil => simp
              | cons next rest =>
                  obtain ⟨⟨_, inNext, differ⟩, -⟩ := List.isChain_cons_cons.mp apart
                  cases next with
                  | nil => exact absurd rfl inNext
                  | cons b next =>
                      have last := same _ (List.getLast_mem (List.cons_ne_nil a stretch))
                      rintro _ ⟨⟩
                      simpa [alike, last, blank] using differ

/-- Stretches in turn are as empty as their text. -/
theorem InTurn.isEmpty_flatten {parts : List (List α)} (inTurn : InTurn parts) :
    parts.flatten.isEmpty = parts.isEmpty := by
  cases inTurn with
  | nil => rfl
  | blanks nonempty _ _ _ => simp [nonempty]
  | inks nonempty _ _ => simp [nonempty]

/-- Behind the start of a document the stretches are settled, without the blanks at the
end. -/
theorem trimStretches_false {parts : List (List α)} (inTurn : InTurn parts) :
    trimStretches false parts = BlankRun.settle (parts.flatten.rdropWhile isBlank) := by
  induction inTurn with
  | nil => simp [trimStretches]
  | @blanks run rest nonempty blanks stops behind ih =>
      rw [trimStretches, trimStretch_of_blank blanks, ih, List.flatten_cons,
        ← behind.isEmpty_flatten]
      cases left : rest.flatten with
      | nil =>
          have all : run.rdropWhile isBlank = [] := List.rdropWhile_eq_nil_iff.mpr blanks
          simp [all]
      | cons a others =>
          have inked : isBlank a = false := stops a (by simp [left])
          have ends := rdropWhile_append_cons inked [] others
          rw [List.nil_append, List.nil_append] at ends
          rw [rdropWhile_append_cons inked run, ends,
            BlankRun.settle_run_append blanks (by simpa using inked)]
          rfl
  | @inks stretch rest nonempty inked behind ih =>
      rw [trimStretches, trimStretch_of_inked nonempty inked, ih, List.flatten_cons,
        ← BlankRun.settle_append_of_inked inked]
      cases stretch using List.reverseRecOn with
      | nil => exact absurd rfl nonempty
      | append_singleton front a _ =>
          have last : isBlank a = false := inked a (by simp)
          rw [List.append_assoc, List.append_assoc, List.singleton_append, List.singleton_append,
            rdropWhile_append_cons last]

/-- At the start of a document blanks go first. -/
theorem trimStretches_true {parts : List (List α)} (inTurn : InTurn parts) :
    trimStretches true parts =
      BlankRun.settle ((parts.flatten.dropWhile isBlank).rdropWhile isBlank) := by
  cases inTurn with
  | nil => simp [trimStretches]
  | @blanks run rest nonempty blanks stops behind =>
      rw [trimStretches, trimStretch_of_blank blanks, trimStretches_false behind,
        List.flatten_cons, List.dropWhile_append_of_pos blanks, dropWhile_eq_self stops]
      rfl
  | @inks stretch rest nonempty inked behind =>
      have stops : ∀ a ∈ (stretch :: rest).flatten.head?, isBlank a = false := by
        cases stretch with
        | nil => exact absurd rfl nonempty
        | cons a stretch =>
            rintro _ ⟨⟩
            exact inked a List.mem_cons_self
      rw [dropWhile_eq_self stops, ← trimStretches_false (.inks nonempty inked behind),
        trimStretches, trimStretches, trimStretch_of_inked nonempty inked,
        trimStretch_of_inked nonempty inked]

namespace Line

/-- To trim lines is to trim each stretch. -/
theorem trim_eq_trimStretches (text : List α) :
    trim text = trimStretches true (stretches text) := by
  rw [trimStretches_true (inTurn_stretches text), trim_eq_settle, stretches, List.flatten_splitBy]

/-- Trimmed lines have nothing left to trim. -/
theorem trim_trim (text : List α) : trim (trim text) = trim text := by
  rw [trim_eq_settle text, trim_eq_settle, ← BlankRun.settle_runwise.dropWhile,
    ← BlankRun.settle_runwise.rdropWhile, BlankRun.settle_settle,
    rdropWhile_dropWhile_of_imp fun _ _ blank => blank]

/-- Trimming lines rewrites each stretch of a document by itself, and doing so again changes
nothing. -/
theorem trim_stretchwise (text : List α) :
    trim text = trimStretches true (stretches text) ∧ trim (trim text) = trim text :=
  ⟨trim_eq_trimStretches text, trim_trim text⟩

/-- The empty line parts nothing, and the blanks around it go with it. -/
example :
    stretches "  a  \n\n   b\n\tc ".toList =
        ["  ", "a", "  \n\n   ", "b", "\n\t", "c", " "].map String.toList ∧
      trim "  a  \n\n   b\n\tc ".toList = "ab\nc".toList := by
  decide +kernel

end Line

end HtmlMinifier
