import HtmlMinifier.Line
import HtmlMinifier.Proofs.Thinning

/-!
# Runs of blanks

Trimming lines is walked through symbol by symbol, with line starts and with runs
that stop at line ends.  What comes out can be said for each run of blanks on its
own, however many lines it reaches over.  A run at an end of the document goes.  A
run without a line feed stays.  Any other run becomes one line feed, or goes when
its last line feed stands right behind another one.

So a single empty line parts nothing: its line feeds go both.
-/

namespace HtmlMinifier

open Alphabet

variable {α : Type} [Alphabet α]

/-- A symbol that is not dropped holds what is behind it. -/
theorem dropWhile_append_cons {α : Type} {test : α → Bool} {a : α} (stays : test a = false)
    (front back : List α) :
    (front ++ a :: back).dropWhile test = front.dropWhile test ++ a :: back := by
  rw [List.dropWhile_append, List.dropWhile_cons_of_neg (by simp [stays])]
  split
  next none => rw [List.isEmpty_iff.mp none, List.nil_append]
  next => rfl

/-- A symbol that is not dropped holds what is in front of it. -/
theorem rdropWhile_append_cons {α : Type} {test : α → Bool} {a : α} (stays : test a = false)
    (front back : List α) :
    (front ++ a :: back).rdropWhile test = front ++ a :: back.rdropWhile test := by
  have stops : (a :: front.reverse).dropWhile test = a :: front.reverse :=
    List.dropWhile_cons_of_neg (by simp [stays])
  rw [List.rdropWhile, List.rdropWhile, List.reverse_append, List.reverse_cons, List.append_assoc,
    List.singleton_append, List.dropWhile_append, stops]
  split
  next none => simp [List.isEmpty_iff.mp none]
  next => simp

theorem rtakeWhile_append_cons {α : Type} {test : α → Bool} {a : α} (stays : test a = false)
    (front back : List α) :
    (front ++ a :: back).rtakeWhile test = back.rtakeWhile test := by
  have stops : (a :: front.reverse).takeWhile test = [] :=
    List.takeWhile_cons_of_neg (by simp [stays])
  rw [List.rtakeWhile, List.rtakeWhile, List.reverse_append, List.reverse_cons, List.append_assoc,
    List.singleton_append, List.takeWhile_append, stops, List.append_nil]
  split
  next all => rw [(List.takeWhile_prefix test).eq_of_length all]
  next => rfl

/-! ## Changes of one kind of symbols -/

/-- A change of symbols of one kind that works on what stands between two others by itself. -/
structure ChangeOf {α : Type} (kind : α → Bool) (change : List α → List α) : Prop where
  nil : change [] = []
  append_cons : ∀ (first : List α) {a : α}, kind a = false →
    ∀ rest, change (first ++ a :: rest) = change first ++ a :: change rest
  forall_mem : ∀ run : List α, (∀ a ∈ run, kind a = true) → ∀ a ∈ change run, kind a = true

namespace ChangeOf

variable {α : Type} {kind : α → Bool} {change : List α → List α}

theorem cons (changes : ChangeOf kind change) {a : α} (other : kind a = false) (text : List α) :
    change (a :: text) = a :: change text := by
  have alone := changes.append_cons [] other text
  rwa [changes.nil] at alone

/-- The kind may go at the front before the others are changed or after that. -/
theorem dropWhile (changes : ChangeOf kind change) (text : List α) :
    change (text.dropWhile kind) = (change text).dropWhile kind := by
  have parts := List.takeWhile_append_dropWhile (p := kind) (l := text)
  have within := changes.forall_mem (text.takeWhile kind) fun _ => List.mem_takeWhile_imp
  cases left : text.dropWhile kind with
  | nil =>
      rw [left, List.append_nil] at parts
      rw [parts] at within
      rw [changes.nil, List.dropWhile_eq_nil_iff.mpr within]
  | cons a rest =>
      have other : kind a = false := by
        simpa [left] using List.head?_dropWhile_not kind text
      rw [left] at parts
      conv_rhs => rw [← parts, changes.append_cons _ other, List.dropWhile_append_of_pos within,
        List.dropWhile_cons_of_neg (by simp [other])]
      rw [changes.cons other]

/-- So may the kind at the back. -/
theorem rdropWhile (changes : ChangeOf kind change) (text : List α) :
    change (text.rdropWhile kind) = (change text).rdropWhile kind := by
  have parts := List.rdropWhile_append_rtakeWhile (p := kind) (l := text)
  have within := changes.forall_mem (text.rtakeWhile kind) fun _ => List.mem_rtakeWhile_imp
  have nothing := List.rdropWhile_eq_nil_iff.mpr within
  cases left : text.rdropWhile kind using List.reverseRecOn with
  | nil =>
      rw [left, List.nil_append] at parts
      rw [parts] at nothing
      rw [nothing, changes.nil]
  | append_singleton front a _ =>
      have other : kind a = false := by
        simpa [left] using List.rdropWhile_last_not (p := kind) (l := text)
      rw [left, List.append_assoc, List.singleton_append] at parts
      conv_rhs => rw [← parts, changes.append_cons front other, rdropWhile_append_cons other,
        nothing]
      rw [changes.append_cons front other, changes.nil]

end ChangeOf

/-! ## Changes of blanks -/

/-- A change of blanks that works on the blanks between two other symbols by itself. -/
structure Runwise (change : List α → List α) : Prop where
  append_cons : ∀ (first : List α) {a : α}, isBlank a = false →
    ∀ rest, change (first ++ a :: rest) = change first ++ a :: change rest
  respaced : ∀ text, Respaced (change text) text

namespace Runwise

variable {change : List α → List α}

theorem nil (runwise : Runwise change) : change [] = [] := by
  have respaced := runwise.respaced []
  generalize change [] = changed at respaced
  cases respaced
  rfl

theorem changeOf (runwise : Runwise change) : ChangeOf isBlank change where
  nil := runwise.nil
  append_cons := runwise.append_cons
  forall_mem run := (runwise.respaced run).forall_isBlank

theorem cons (runwise : Runwise change) {a : α} (inked : isBlank a = false) (text : List α) :
    change (a :: text) = a :: change text :=
  runwise.changeOf.cons inked text

theorem append_of_inked (runwise : Runwise change) {first : List α}
    (inked : ∀ a ∈ first, isBlank a = false) (text : List α) :
    change (first ++ text) = first ++ change text := by
  induction first with
  | nil => rfl
  | cons a first ih =>
      obtain ⟨here, behind⟩ := List.forall_mem_cons.mp inked
      rw [List.cons_append, runwise.cons here, ih behind, List.cons_append]

/-- Where no blank follows a text is changed by itself. -/
theorem append_of_stops (runwise : Runwise change) (first : List α) {text : List α}
    (stops : ∀ a ∈ text.head?, isBlank a = false) :
    change (first ++ text) = change first ++ change text := by
  cases text with
  | nil => rw [List.append_nil, runwise.nil, List.append_nil]
  | cons a text => rw [runwise.append_cons first (stops a rfl), runwise.cons (stops a rfl)]

theorem head?_eq (runwise : Runwise change) {text : List α}
    (stops : ∀ a ∈ text.head?, isBlank a = false) : (change text).head? = text.head? := by
  cases text with
  | nil => rw [runwise.nil]
  | cons a text => rw [runwise.cons (stops a rfl), List.head?_cons, List.head?_cons]

theorem comp {outer : List α → List α} (runwise' : Runwise outer) (runwise : Runwise change) :
    Runwise (outer ∘ change) where
  append_cons first a inked rest := by
    simp only [Function.comp_apply, runwise.append_cons first inked, runwise'.append_cons _ inked]
  respaced text := (runwise'.respaced _).trans (runwise.respaced text)

/-- Blanks at the front may go before the others are changed or after that. -/
theorem dropWhile (runwise : Runwise change) (text : List α) :
    change (text.dropWhile isBlank) = (change text).dropWhile isBlank :=
  runwise.changeOf.dropWhile text

/-- So may blanks at the back. -/
theorem rdropWhile (runwise : Runwise change) (text : List α) :
    change (text.rdropWhile isBlank) = (change text).rdropWhile isBlank :=
  runwise.changeOf.rdropWhile text

end Runwise

/-! ## One run -/

namespace BlankRun

/-- The run of blanks at the front of a text. -/
def read (text : List α) : Option (List α × List α) :=
  match text with
  | [] => none
  | a :: text =>
      if isBlank a then some (a :: text.takeWhile isBlank, text.dropWhile isBlank) else none

/-- The runs of blanks of a text, each as long as it gets. -/
def pattern : Pattern α (List α) where
  read := read
  shrinks text run rest found := by
    cases text with
    | nil => simp [read] at found
    | cons a text =>
        simp only [read, Option.ite_none_right_eq_some, Option.some.injEq, Prod.mk.injEq] at found
        rcases found with ⟨_, _, rfl⟩
        exact Nat.lt_succ_of_le (List.dropWhile_sublist _).length_le

/-- What is left of a run when the lines around it are trimmed. -/
def settled (run : List α) : List α :=
  if run.any (is '\n') then
    if Line.startsLine (run.rdropWhile fun a => !is '\n' a).dropLast then [] else [ofChar '\n']
  else
    run

/-- A text with each of its runs of blanks settled. -/
def settle (text : List α) : List α :=
  pattern.replace settled text

theorem read_eq_some_iff {text run rest : List α} :
    read text = some (run, rest) ↔
      run ≠ [] ∧ (∀ a ∈ run, isBlank a = true) ∧ (∀ a ∈ rest.head?, isBlank a = false) ∧
        text = run ++ rest := by
  constructor
  · intro found
    cases text with
    | nil => simp [read] at found
    | cons a text =>
        simp only [read, Option.ite_none_right_eq_some, Option.some.injEq, Prod.mk.injEq] at found
        rcases found with ⟨blank, rfl, rfl⟩
        refine ⟨by simp, List.forall_mem_cons.mpr ⟨blank, fun _ => List.mem_takeWhile_imp⟩,
          inked_head_dropWhile text, ?_⟩
        rw [List.cons_append, List.takeWhile_append_dropWhile]
  · rintro ⟨nonempty, blanks, stops, rfl⟩
    cases run with
    | nil => exact absurd rfl nonempty
    | cons a run =>
        rcases List.forall_mem_cons.mp blanks with ⟨first, others⟩
        rw [List.cons_append, read, if_pos first, List.takeWhile_append_of_pos others,
          List.dropWhile_append_of_pos others, takeWhile_eq_nil stops, dropWhile_eq_self stops,
          List.append_nil]

@[simp]
theorem settle_nil : settle ([] : List α) = [] := by
  simp [settle]

/-- A symbol that is no blank stays. -/
theorem settle_cons {a : α} (inked : isBlank a = false) (text : List α) :
    settle (a :: text) = a :: settle text :=
  Pattern.replace_cons_of_none (by simp [pattern, read, inked])

theorem settle_append_of_inked {first : List α} (inked : ∀ a ∈ first, isBlank a = false)
    (text : List α) : settle (first ++ text) = first ++ settle text := by
  induction first with
  | nil => rfl
  | cons a first ih =>
      obtain ⟨here, behind⟩ := List.forall_mem_cons.mp inked
      rw [List.cons_append, settle_cons here, ih behind, List.cons_append]

/-- A run is settled for itself where another symbol follows. -/
theorem settle_run_append {run rest : List α} (blanks : ∀ a ∈ run, isBlank a = true)
    (stops : ∀ a ∈ rest.head?, isBlank a = false) :
    settle (run ++ rest) = settled run ++ settle rest := by
  cases run with
  | nil => rfl
  | cons a run =>
      exact Pattern.replace_of_some
        (read_eq_some_iff.mpr ⟨List.cons_ne_nil a run, blanks, stops, rfl⟩)

/-- A run without line feeds stays. -/
theorem settled_of_forall_not {run : List α} (flat : ∀ a ∈ run, is '\n' a = false) :
    settled run = run := by
  rw [settled, if_neg]
  simpa using flat

/-- A run with line feeds is settled by what is in front of the last one. -/
theorem settled_append_cons (front : List α) {back : List α}
    (flat : ∀ a ∈ back, is '\n' a = false) :
    settled (front ++ ofChar '\n' :: back) =
      if Line.startsLine front then [] else [ofChar '\n'] := by
  have lineFeed : is '\n' (ofChar '\n' : α) = true := is_iff.mpr rfl
  have last : (front ++ ofChar '\n' :: back).rdropWhile (fun a => !is '\n' a) =
      front ++ [ofChar '\n'] := by
    have reversed : ∀ a ∈ back.reverse, (!is '\n' a) = true := by simpa using flat
    rw [List.rdropWhile, List.reverse_append, List.reverse_cons, List.append_assoc,
      List.dropWhile_append_of_pos reversed, List.singleton_append,
      List.dropWhile_cons_of_neg (by simp [lineFeed])]
    simp
  rw [settled, if_pos (by simp [lineFeed]), last, List.dropLast_concat]

/-- A run that holds a line feed holds a last one. -/
theorem exists_last {run : List α} (holds : ¬ ∀ a ∈ run, is '\n' a = false) :
    ∃ front back, run = front ++ ofChar '\n' :: back ∧ ∀ a ∈ back, is '\n' a = false := by
  induction run with
  | nil => simp at holds
  | cons a run ih =>
      by_cases flat : ∀ b ∈ run, is '\n' b = false
      · cases lineFeed : is '\n' a with
        | true => exact ⟨[], run, by rw [is_iff.mp lineFeed]; rfl, flat⟩
        | false =>
            have none : ∀ b ∈ a :: run, is '\n' b = false :=
              List.forall_mem_cons.mpr ⟨lineFeed, flat⟩
            exact absurd none holds
      · rcases ih flat with ⟨front, back, rfl, behind⟩
        exact ⟨a :: front, back, rfl, behind⟩

/-- A text up to a symbol that is no blank is settled for itself. -/
theorem settle_append_cons (front : List α) {a : α} (inked : isBlank a = false) (text : List α) :
    settle (front ++ a :: text) = settle front ++ a :: settle text := by
  induction front using (pattern (α := α)).induction with
  | nil => rw [List.nil_append, settle_nil, List.nil_append, settle_cons inked]
  | found front run rest found ih =>
      rcases read_eq_some_iff.mp found with ⟨_, blanks, stops, rfl⟩
      have stops' : ∀ b ∈ (rest ++ a :: text).head?, isBlank b = false := by
        cases rest with
        | nil => simpa using inked
        | cons b rest => simpa using stops
      rw [List.append_assoc, settle_run_append blanks stops', ih,
        settle_run_append blanks stops, List.append_assoc]
  | kept b front refused ih =>
      have inked' : isBlank b = false := by simpa [pattern, read] using refused
      rw [List.cons_append, settle_cons inked', ih, settle_cons inked', List.cons_append]

/-- Settling a run drops blanks only. -/
theorem settled_respaced {run : List α} (blanks : ∀ a ∈ run, isBlank a = true) :
    Respaced (settled run) run := by
  by_cases flat : ∀ a ∈ run, is '\n' a = false
  · rw [settled_of_forall_not flat]
    exact Thinned.refl run
  · rcases exists_last flat with ⟨front, back, rfl, behind⟩
    rw [settled_append_cons front behind]
    split
    · exact Thinned.dropAll blanks
    · obtain ⟨before, after⟩ := List.forall_mem_append.mp blanks
      have dropped : Respaced [] back := Thinned.dropAll (List.forall_mem_cons.mp after).2
      exact (Thinned.dropAll before).append (dropped.keep (ofChar '\n'))

theorem settle_respaced (text : List α) : Respaced (settle text) text := by
  apply Pattern.thinned_replace
  intro text run rest found
  rcases read_eq_some_iff.mp found with ⟨_, blanks, _, rfl⟩
  exact ⟨run, rfl, settled_respaced blanks⟩

/-- A run without an empty line stays or becomes one line feed. -/
theorem settled_eq_or {run : List α}
    (noEmptyLine : ¬ [ofChar '\n', ofChar '\n'].IsInfix run) :
    settled run = run ∨ settled run = [ofChar '\n'] := by
  by_cases flat : ∀ a ∈ run, is '\n' a = false
  · exact Or.inl (settled_of_forall_not flat)
  · rcases exists_last flat with ⟨front, back, rfl, behind⟩
    rw [settled_append_cons front behind]
    right
    apply if_neg
    intro starts
    cases front using List.reverseRecOn with
    | nil => simp [Line.startsLine] at starts
    | append_singleton front a _ =>
        have lineFeed : a = ofChar '\n' := by simpa [Line.startsLine, is_iff] using starts
        exact noEmptyLine ⟨front, back, by simp [lineFeed]⟩

end BlankRun

/-! ## Trimmed lines -/

namespace Line

/-- No run stops at the end of a line where only the first symbol can be a line
feed. -/
theorem trailing?_cons_of_flat (a : α) {back : List α} (flat : ∀ b ∈ back, is '\n' b = false)
    {b : α} (inked : isBlank b = false) (rest : List α) :
    trailing? (a :: (back ++ b :: rest)) = none := by
  have within := is_lineFeed_of_inked inked
  induction back generalizing a with
  | nil => simp [trailing?, inked, endsLine, within]
  | cons c back ih =>
      rcases List.forall_mem_cons.mp flat with ⟨first, others⟩
      rw [List.cons_append, trailing?, ih c others]
      simp [endsLine, first]

/-- The longest run that stops at the end of a line. -/
theorem trailing?_append {run rest : List α} (nonempty : run ≠ [])
    (blanks : ∀ a ∈ run, isBlank a = true) (stops : endsLine rest = true)
    (longest : trailing? rest = none) : trailing? (run ++ rest) = some (run, rest) := by
  induction run with
  | nil => exact absurd rfl nonempty
  | cons a run ih =>
      obtain ⟨blank, others⟩ := List.forall_mem_cons.mp blanks
      rw [List.cons_append, trailing?, if_pos blank]
      cases run with
      | nil => rw [List.nil_append, longest]; simp [stops]
      | cons b run => rw [ih (List.cons_ne_nil b run) others]

/-- At the start of a line the blanks go first. -/
theorem trimFrom_true (text : List α) :
    trimFrom true [] text = trimFrom false [] (text.dropWhile isBlank) := by
  cases text with
  | nil => rw [List.dropWhile_nil, trimFrom_nil, trimFrom_nil]
  | cons a text =>
      cases blank : isBlank a with
      | true => rw [trimFrom_start blank, List.dropWhile_cons_of_pos blank]
      | false =>
          have refused : trailing? (a :: text) = none := by simp [trailing?, blank]
          rw [List.dropWhile_cons_of_neg (by simp [blank]), trimFrom_kept (by simp [blank]) refused,
            trimFrom_kept rfl refused]

/-- A symbol that is no blank stays. -/
theorem trimFrom_cons {a : α} (inked : isBlank a = false) (text : List α) :
    trimFrom false [] (a :: text) = a :: trimFrom false [] text := by
  rw [trimFrom_kept rfl (by simp [trailing?, inked]), is_lineFeed_of_inked inked, trimFrom_eq]
  rfl

/-- A line feed behind which no other one stands in its run. -/
theorem trimFrom_lineFeed (atStart : Bool) {back : List α} (blanks : ∀ a ∈ back, isBlank a = true)
    (flat : ∀ a ∈ back, is '\n' a = false) {b : α} (inked : isBlank b = false) (rest : List α) :
    trimFrom atStart [] (ofChar '\n' :: (back ++ b :: rest)) =
      (if atStart then [] else [ofChar '\n']) ++ trimFrom false [] (b :: rest) := by
  have blank : isBlank (ofChar '\n' : α) = true := by simp [isBlank]
  have lineFeed : is '\n' (ofChar '\n' : α) = true := is_iff.mpr rfl
  have stops : (back ++ b :: rest).dropWhile isBlank = b :: rest := by
    rw [List.dropWhile_append_of_pos blanks, List.dropWhile_cons_of_neg (by simp [inked])]
  cases atStart with
  | true => rw [trimFrom_true, List.dropWhile_cons_of_pos blank, stops]; rfl
  | false =>
      rw [trimFrom_kept rfl (trailing?_cons_of_flat _ flat inked rest), lineFeed, trimFrom_eq,
        trimFrom_true, stops]
      rfl

/-- A run of blanks within a text is settled. -/
theorem trimFrom_run {run : List α} (blanks : ∀ a ∈ run, isBlank a = true) {b : α}
    (inked : isBlank b = false) (rest : List α) :
    trimFrom false [] (run ++ b :: rest) =
      BlankRun.settled run ++ trimFrom false [] (b :: rest) := by
  by_cases flat : ∀ a ∈ run, is '\n' a = false
  · rw [BlankRun.settled_of_forall_not flat]
    clear blanks
    induction run with
    | nil => rfl
    | cons a run ih =>
        rcases List.forall_mem_cons.mp flat with ⟨first, others⟩
        rw [List.cons_append, trimFrom_kept rfl (trailing?_cons_of_flat a others inked rest), first,
          trimFrom_eq, ih others]
        rfl
  · rcases BlankRun.exists_last flat with ⟨front, back, rfl, behind⟩
    rcases List.forall_mem_append.mp blanks with ⟨frontBlanks, backBlanks⟩
    have others := (List.forall_mem_cons.mp backBlanks).2
    rw [BlankRun.settled_append_cons front behind, List.append_assoc, List.cons_append]
    cases front with
    | nil => exact trimFrom_lineFeed false others behind inked rest
    | cons a front =>
        rw [trimFrom_trailing (trailing?_append (List.cons_ne_nil a front) frontBlanks
          (by simp [endsLine, is_iff]) (trailing?_cons_of_flat _ behind inked rest))]
        exact trimFrom_lineFeed _ others behind inked rest

/-- Trimming lines takes the blanks off both ends of a text and settles the runs
of blanks within it. -/
theorem trim_eq_settle (text : List α) :
    trim text = BlankRun.settle ((text.dropWhile isBlank).rdropWhile isBlank) := by
  rw [trim, trimFrom_true]
  induction text.dropWhile isBlank using (BlankRun.pattern (α := α)).induction with
  | nil => simp
  | found text run rest found ih =>
      obtain ⟨nonempty, blanks, stops, rfl⟩ := BlankRun.read_eq_some_iff.mp found
      cases rest with
      | nil =>
          have all : (run ++ []).rdropWhile isBlank = [] := by simpa using blanks
          rw [all, trimFrom_trailing (trailing?_append nonempty blanks rfl rfl), trimFrom_nil,
            BlankRun.settle_nil, List.reverse_nil]
      | cons b rest =>
          have inked : isBlank b = false := stops b rfl
          have ends := rdropWhile_append_cons inked [] rest
          rw [List.nil_append, List.nil_append] at ends
          rw [trimFrom_run blanks inked, ih, rdropWhile_append_cons inked run,
            BlankRun.settle_run_append blanks (by simpa using inked), ends]
  | kept a text refused ih =>
      have inked : isBlank a = false := by simpa [BlankRun.pattern, BlankRun.read] using refused
      have ends := rdropWhile_append_cons inked [] text
      rw [List.nil_append, List.nil_append] at ends
      rw [trimFrom_cons inked, ih, ends, BlankRun.settle_cons inked]

end Line

end HtmlMinifier
