import HtmlMinifier.Proofs.Stretch

/-!
# Padding

Spaces and tabs in front of a line end show nowhere.  Still they are not always trimmed
without a trace.  A line of nothing but padding is no empty line: where an empty line
takes both its line ends with it, a padded one leaves one of them.

So a text and the same text without padding are trimmed alike unless padding hides an empty
line.  It does so only in the last line of a run of blanks, and only within the document.
-/

namespace HtmlMinifier

open Alphabet

/-! ## Changes of blanks compared -/

/-- A text is parted in one way only at a symbol with a given number of its kind in
front. -/
theorem append_cons_inj_of_countP {α : Type} {kind : α → Bool} {a : α} (ofKind : kind a = true)
    {first first' rest rest' : List α} (same : first ++ a :: rest = first' ++ a :: rest')
    (count : first.countP kind = first'.countP kind) : first = first' ∧ rest = rest' := by
  rcases List.append_eq_append_iff.mp same with ⟨between, rfl, right⟩ | ⟨between, rfl, right⟩
  all_goals
    cases between with
    | nil => simp_all
    | cons b between =>
        obtain ⟨rfl, -⟩ := List.cons.inj right
        simp [ofKind] at count

variable {α : Type} [Alphabet α]

/-- A run of blanks with what stands around it, as long as it gets. -/
structure Maximal (front run back : List α) : Prop where
  inked_last : ∀ a ∈ front.getLast?, isBlank a = false
  blanks : ∀ a ∈ run, isBlank a = true
  inked_head : ∀ a ∈ back.head?, isBlank a = false

/-- Blanks do not count among the symbols that stay. -/
theorem Respaced.countP_eq {text text' : List α} (respaced : Respaced text' text) :
    text'.countP (fun a => !isBlank a) = text.countP (fun a => !isBlank a) := by
  induction respaced with
  | nil => rfl
  | keep a _ ih => rw [List.countP_cons, List.countP_cons, ih]
  | drop blank _ ih => rw [List.countP_cons, ih, blank]; rfl
  | exchange written blank _ ih =>
      rw [List.countP_cons, List.countP_cons, ih, blank, Thinned.isBlank_of_written written]

/-- Blanks in front of a symbol that is none are parted from it in one way. -/
theorem append_inj_of_isBlank {run run' rest rest' : List α}
    (blanks : ∀ a ∈ run, isBlank a = true) (blanks' : ∀ a ∈ run', isBlank a = true)
    (stops : ∀ a ∈ rest.head?, isBlank a = false) (stops' : ∀ a ∈ rest'.head?, isBlank a = false)
    (same : run ++ rest = run' ++ rest') : run = run' ∧ rest = rest' := by
  have taken := congrArg (List.takeWhile isBlank) same
  have left := congrArg (List.dropWhile isBlank) same
  rw [List.takeWhile_append_of_pos blanks, List.takeWhile_append_of_pos blanks',
    takeWhile_eq_nil stops, takeWhile_eq_nil stops', List.append_nil, List.append_nil] at taken
  rw [List.dropWhile_append_of_pos blanks, List.dropWhile_append_of_pos blanks',
    dropWhile_eq_self stops, dropWhile_eq_self stops'] at left
  exact ⟨taken, left⟩

namespace Runwise

variable {change change' : List α → List α}

/-- Two changes of blanks agree on a text if and only if they agree on each of its runs. -/
theorem eq_iff (runwise : Runwise change) (runwise' : Runwise change') (text : List α) :
    change text = change' text ↔
      ∀ front run back, Maximal front run back → text = front ++ (run ++ back) →
        change run = change' run := by
  constructor
  · rintro same front run back maximal rfl
    have parted : change run ++ change back = change' run ++ change' back := by
      cases front using List.reverseRecOn with
      | nil =>
          rwa [List.nil_append, runwise.append_of_stops run maximal.inked_head,
            runwise'.append_of_stops run maximal.inked_head] at same
      | append_singleton front a _ =>
          have inked : isBlank a = false := maximal.inked_last a (by simp)
          rw [List.append_assoc, List.singleton_append, runwise.append_cons front inked,
            runwise'.append_cons front inked, runwise.append_of_stops run maximal.inked_head,
            runwise'.append_of_stops run maximal.inked_head] at same
          have count : (change front).countP (fun a => !isBlank a) =
              (change' front).countP fun a => !isBlank a :=
            (runwise.respaced front).countP_eq.trans (runwise'.respaced front).countP_eq.symm
          exact (append_cons_inj_of_countP (by simp [inked]) same count).2
    have blanks := (runwise.respaced run).forall_isBlank maximal.blanks
    have blanks' := (runwise'.respaced run).forall_isBlank maximal.blanks
    have stops := (runwise.respaced back).inked_head maximal.inked_head
    have stops' := (runwise'.respaced back).inked_head maximal.inked_head
    exact (append_inj_of_isBlank blanks blanks' stops stops' parted).1
  · intro agree
    induction text using (BlankRun.pattern (α := α)).induction with
    | nil => rw [runwise.nil, runwise'.nil]
    | found text run rest found ih =>
        obtain ⟨nonempty, blanks, stops, rfl⟩ := BlankRun.read_eq_some_iff.mp found
        have here : change run = change' run :=
          agree [] run rest ⟨by simp, blanks, stops⟩ rfl
        rw [runwise.append_of_stops run stops, runwise'.append_of_stops run stops, here]
        refine congrArg _ (ih ?_)
        rintro front run' back maximal rfl
        cases front with
        | nil =>
            cases run' with
            | nil => rw [runwise.nil, runwise'.nil]
            | cons a run' =>
                have blank := maximal.blanks a List.mem_cons_self
                rw [stops a rfl] at blank
                contradiction
        | cons a front =>
            refine agree (run ++ a :: front) run' back ⟨?_, maximal.blanks, maximal.inked_head⟩
              (by simp)
            simpa using maximal.inked_last
    | kept a text refused ih =>
        have inked : isBlank a = false := by
          simpa [BlankRun.pattern, BlankRun.read] using refused
        rw [runwise.cons inked, runwise'.cons inked]
        refine congrArg _ (ih ?_)
        rintro front run back maximal rfl
        refine agree (a :: front) run back ⟨?_, maximal.blanks, maximal.inked_head⟩ rfl
        cases front with
        | nil => simpa using inked
        | cons b front => simpa using maximal.inked_last

end Runwise

/-! ## Padding dropped -/

/-- Whether a symbol is a space or a tab. -/
def isPadding : α → Bool :=
  satisfies fun c => c == ' ' || c == '\t'

/-- Whether nothing but padding stands in front of the next line feed. -/
def leadsToLineEnd (text : List α) : Bool :=
  (text.dropWhile isPadding).head?.any (is '\n')

/-- A text without the spaces and tabs in front of its line feeds. -/
def unpad : List α → List α
  | [] => []
  | a :: text => if isPadding a && leadsToLineEnd text then unpad text else a :: unpad text

theorem isBlank_of_isPadding {a : α} (padding : isPadding a = true) : isBlank a = true := by
  obtain ⟨c, rfl, padding⟩ := satisfies_iff.mp padding
  rw [isBlank, satisfies_ofChar]
  grind

theorem isPadding_of_inked {a : α} (inked : isBlank a = false) : isPadding a = false := by
  rw [Bool.eq_false_iff]
  intro padding
  rw [isBlank_of_isPadding padding] at inked
  contradiction

theorem is_lineFeed_of_isPadding {a : α} (padding : isPadding a = true) : is '\n' a = false := by
  rw [Bool.eq_false_iff, ne_eq, is_iff]
  rintro rfl
  simp [isPadding] at padding

@[simp]
theorem isPadding_lineFeed : isPadding (ofChar '\n' : α) = false := by
  simp [isPadding]

/-- A symbol that is no padding decides what the padding in front of it leads to. -/
theorem leadsToLineEnd_append_cons {a : α} (other : isPadding a = false) (front rest : List α) :
    leadsToLineEnd (front ++ a :: rest) = leadsToLineEnd (front ++ [a]) := by
  rw [leadsToLineEnd, leadsToLineEnd, dropWhile_append_cons other, dropWhile_append_cons other]
  cases front.dropWhile isPadding <;> rfl

/-- A text is parted behind a symbol that is no padding. -/
theorem unpad_append_cons {a : α} (other : isPadding a = false) (front rest : List α) :
    unpad (front ++ a :: rest) = unpad (front ++ [a]) ++ unpad rest := by
  induction front with
  | nil => simp [unpad, other]
  | cons b front ih =>
      rw [List.cons_append, List.cons_append, unpad, unpad, ih,
        leadsToLineEnd_append_cons other front rest]
      split <;> simp

/-- Padding in front of a symbol that is no line feed stays. -/
theorem unpad_append_inked {a : α} (inked : isBlank a = false) (front : List α) :
    unpad (front ++ [a]) = unpad front ++ [a] := by
  have other := isPadding_of_inked inked
  induction front with
  | nil => simp [unpad, other]
  | cons b front ih =>
      have same : leadsToLineEnd (front ++ [a]) = leadsToLineEnd front := by
        rw [leadsToLineEnd, leadsToLineEnd, dropWhile_append_cons other]
        cases front.dropWhile isPadding <;> simp [is_lineFeed_of_inked inked]
      rw [List.cons_append, unpad, unpad, ih, same]
      split <;> simp

/-- Padding in front of a line feed goes. -/
theorem unpad_padding_append {padding : List α} (all : ∀ a ∈ padding, isPadding a = true)
    (rest : List α) : unpad (padding ++ ofChar '\n' :: rest) = ofChar '\n' :: unpad rest := by
  induction padding with
  | nil => simp [unpad]
  | cons a padding ih =>
      rcases List.forall_mem_cons.mp all with ⟨first, others⟩
      have leads : leadsToLineEnd (padding ++ ofChar '\n' :: rest) = true := by
        rw [leadsToLineEnd, List.dropWhile_append_of_pos others,
          List.dropWhile_cons_of_neg (by simp)]
        simp [is_iff]
      rw [List.cons_append, unpad, first, leads, Bool.and_self, if_pos rfl, ih others]

theorem unpad_respaced (text : List α) : Respaced (unpad text) text := by
  induction text with
  | nil => exact Thinned.nil
  | cons a text ih =>
      rw [unpad]
      split
      next dropped =>
        exact Thinned.drop (isBlank_of_isPadding (Bool.and_eq_true_iff.mp dropped).1) ih
      next => exact Thinned.keep a ih

/-- Padding is dropped from each run of blanks by itself. -/
theorem unpad_runwise : Runwise (unpad (α := α)) where
  append_cons front a inked rest := by
    rw [unpad_append_cons (isPadding_of_inked inked), unpad_append_inked inked, List.append_assoc,
      List.singleton_append]
  respaced := unpad_respaced

/-- Without a line feed there is nothing to drop. -/
theorem unpad_of_flat {text : List α} (flat : ∀ a ∈ text, is '\n' a = false) :
    unpad text = text := by
  induction text with
  | nil => rfl
  | cons a text ih =>
      rcases List.forall_mem_cons.mp flat with ⟨-, others⟩
      have stays : leadsToLineEnd text = false := by
        cases left : text.dropWhile isPadding with
        | nil => rw [leadsToLineEnd, left]; rfl
        | cons b rest =>
            have member : b ∈ text := by
              apply (List.dropWhile_suffix isPadding).subset
              rw [left]
              exact List.mem_cons_self
            rw [leadsToLineEnd, left]
            exact others b member
      rw [unpad, stays, Bool.and_false, if_neg Bool.false_ne_true, ih others]

/-- What is left in front of padding ends in another symbol. -/
theorem isPadding_of_rdropWhile {text front : List α} {a : α}
    (core : text.rdropWhile isPadding = front ++ [a]) : isPadding a = false := by
  simpa [core] using List.rdropWhile_last_not (p := isPadding) (l := text)

/-- Dropping padding in front of a line feed, and elsewhere in front of that. -/
theorem unpad_append_lineFeed (front rest : List α) :
    unpad (front ++ ofChar '\n' :: rest) =
      unpad (front.rdropWhile isPadding) ++ ofChar '\n' :: unpad rest := by
  have parts := List.rdropWhile_append_rtakeWhile (p := isPadding) (l := front)
  have padding : ∀ a ∈ front.rtakeWhile isPadding, isPadding a = true :=
    fun _ => List.mem_rtakeWhile_imp
  cases core : front.rdropWhile isPadding using List.reverseRecOn with
  | nil =>
      rw [core, List.nil_append] at parts
      rw [parts] at padding
      exact unpad_padding_append padding rest
  | append_singleton first a _ =>
      have other := isPadding_of_rdropWhile core
      rw [core, List.append_assoc, List.singleton_append] at parts
      rw [← parts, List.append_assoc, List.cons_append, unpad_append_cons other,
        unpad_padding_append padding]

/-- A last symbol that is no padding stays the last one. -/
theorem getLast?_unpad {a : α} (other : isPadding a = false) (front : List α) :
    (unpad (front ++ [a])).getLast? = some a := by
  induction front with
  | nil => simp [unpad, other]
  | cons b front ih =>
      rw [List.cons_append, unpad]
      split
      next => exact ih
      next => rw [List.getLast?_cons, ih]; rfl

/-! ## Empty lines that padding hides -/

/-- Whether the last line feed of a run stands behind a line of padding. -/
def HidesEmptyLine (run : List α) : Prop :=
  ∃ front padding back, run = front ++ ofChar '\n' :: (padding ++ ofChar '\n' :: back) ∧
    padding ≠ [] ∧ (∀ a ∈ padding, isPadding a = true) ∧ ∀ a ∈ back, is '\n' a = false

theorem startsLine_append_singleton (front : List α) (a : α) :
    Line.startsLine (front ++ [a]) = is '\n' a := by
  rw [Line.startsLine, List.getLast?_concat]

/-- A text behind which a line starts ends in a line feed. -/
theorem exists_of_startsLine {text : List α} (starts : Line.startsLine text = true) :
    ∃ front, text = front ++ [ofChar '\n'] := by
  cases text using List.reverseRecOn with
  | nil => simp [Line.startsLine] at starts
  | append_singleton front a _ =>
      rw [startsLine_append_singleton, is_iff] at starts
      exact ⟨front, by rw [starts]⟩

/-- A line that starts behind a text starts there also without padding. -/
theorem startsLine_rdropWhile {text : List α} (starts : Line.startsLine text = true) :
    Line.startsLine (text.rdropWhile isPadding) = true := by
  obtain ⟨front, rfl⟩ := exists_of_startsLine starts
  rw [List.rdropWhile_concat_neg _ _ _ (by simp)]
  exact starts

/-- Padding hides an empty line where a line starts in front of it and none behind it. -/
theorem hidesEmptyLine_iff (front : List α) {back : List α}
    (flat : ∀ a ∈ back, is '\n' a = false) :
    HidesEmptyLine (front ++ ofChar '\n' :: back) ↔
      Line.startsLine front = false ∧ Line.startsLine (front.rdropWhile isPadding) = true := by
  have lineFeed : is '\n' (ofChar '\n' : α) = true := is_iff.mpr rfl
  constructor
  · rintro ⟨first, padding, back', same, nonempty, all, flat'⟩
    -- Both sides show the same line feed, the last one of the run.
    have none : ∀ {rest : List α}, (∀ a ∈ rest, is '\n' a = false) → rest.countP (is '\n') = 0 :=
      fun flat => List.countP_eq_zero.mpr fun a member => by simp [flat a member]
    have regrouped : front ++ ofChar '\n' :: back =
        (first ++ ofChar '\n' :: padding) ++ ofChar '\n' :: back' := by
      rw [same, List.append_assoc, List.cons_append]
    have count := congrArg (List.countP (is '\n')) regrouped
    simp only [List.countP_append, List.countP_cons, lineFeed, none flat, none flat', if_true]
      at count
    have equal : front = first ++ ofChar '\n' :: padding :=
      (append_cons_inj_of_countP lineFeed regrouped
        (by simp only [List.countP_append, List.countP_cons, lineFeed, if_true]; omega)).1
    subst front
    refine ⟨?_, ?_⟩
    · cases padding using List.reverseRecOn with
      | nil => exact absurd rfl nonempty
      | append_singleton padding a _ =>
          rw [← List.cons_append, ← List.append_assoc, startsLine_append_singleton]
          exact is_lineFeed_of_isPadding (all a (by simp))
    · rw [rdropWhile_append_cons isPadding_lineFeed, List.rdropWhile_eq_nil_iff.mpr all,
        startsLine_append_singleton, lineFeed]
  · rintro ⟨within, starts⟩
    rcases exists_of_startsLine starts with ⟨first, core⟩
    have parts := List.rdropWhile_append_rtakeWhile (p := isPadding) (l := front)
    rw [core] at parts
    refine ⟨first, front.rtakeWhile isPadding, back, ?_, ?_, fun _ => List.mem_rtakeWhile_imp,
      flat⟩
    · conv_lhs => rw [← parts]
      simp
    · intro none
      rw [none, List.append_nil] at parts
      rw [← parts, startsLine_append_singleton, lineFeed] at within
      contradiction

/-- What is left of a run behind which no line feed follows, without its padding. -/
theorem settled_unpad_append_cons (front : List α) {back : List α}
    (flat : ∀ a ∈ back, is '\n' a = false) :
    BlankRun.settled (unpad (front ++ ofChar '\n' :: back)) =
      if Line.startsLine (front.rdropWhile isPadding) then [] else [ofChar '\n'] := by
  have starts : Line.startsLine (unpad (front.rdropWhile isPadding)) =
      Line.startsLine (front.rdropWhile isPadding) := by
    cases core : front.rdropWhile isPadding using List.reverseRecOn with
    | nil => rfl
    | append_singleton first a _ =>
        have other := isPadding_of_rdropWhile core
        rw [Line.startsLine, Line.startsLine, getLast?_unpad other, List.getLast?_concat]
  rw [unpad_append_lineFeed, unpad_of_flat flat, BlankRun.settled_append_cons _ flat, starts]

/-- A run is settled alike without its padding unless the padding hides an empty line. -/
theorem settled_unpad_eq_iff (run : List α) :
    BlankRun.settled (unpad run) = BlankRun.settled run ↔ ¬ HidesEmptyLine run := by
  by_cases flat : ∀ a ∈ run, is '\n' a = false
  · rw [unpad_of_flat flat]
    refine iff_of_true rfl ?_
    rintro ⟨front, padding, back, rfl, -⟩
    have lineFeed := flat (ofChar '\n') (by simp)
    simp [is] at lineFeed
  · rcases BlankRun.exists_last flat with ⟨front, back, rfl, behind⟩
    rw [settled_unpad_append_cons front behind, BlankRun.settled_append_cons front behind,
      hidesEmptyLine_iff front behind]
    have stays : Line.startsLine front = true →
        Line.startsLine (front.rdropWhile isPadding) = true := startsLine_rdropWhile
    cases starts : Line.startsLine front with
    | true => simp [stays starts]
    | false => cases Line.startsLine (front.rdropWhile isPadding) <;> simp

/-! ## Trimmed lines -/

/-- A run of blanks within a document, between two other symbols. -/
structure Within (text run : List α) : Prop where
  blanks : ∀ a ∈ run, isBlank a = true
  between : ∃ front a b back, text = front ++ a :: (run ++ b :: back) ∧
    isBlank a = false ∧ isBlank b = false

/-- The runs of blanks within a document are those of the document without its blanks at both
ends, where only empty runs are left. -/
theorem Maximal.within_or {front run back text : List α} (maximal : Maximal front run back)
    (inner : (text.dropWhile isBlank).rdropWhile isBlank = front ++ (run ++ back)) :
    run = [] ∨ Within text run := by
  have inset := TextEdge.inset_text text
  have fronts := List.takeWhile_append_dropWhile (p := isBlank) (l := text)
  have backs := List.rdropWhile_append_rtakeWhile (p := isBlank) (l := text.dropWhile isBlank)
  have first := inset.inked_head
  have last := inset.inked_last
  rw [inner] at first last backs
  by_cases empty : run = []
  · exact Or.inl empty
  · right
    refine ⟨maximal.blanks, ?_⟩
    cases front using List.reverseRecOn with
    | nil =>
        cases run with
        | nil => exact absurd rfl empty
        | cons c run =>
            have blank := maximal.blanks c List.mem_cons_self
            rw [first c rfl] at blank
            contradiction
    | append_singleton front a _ =>
        cases back with
        | nil =>
            have shown : (front ++ [a] ++ (run ++ [])).getLast? = some (run.getLast empty) := by
              rw [List.append_nil, List.getLast?_append, List.getLast?_eq_some_getLast empty]
              rfl
            have blank := maximal.blanks _ (List.getLast_mem empty)
            rw [last _ shown] at blank
            contradiction
        | cons b back =>
            refine ⟨text.takeWhile isBlank ++ front, a, b,
              back ++ (text.dropWhile isBlank).rtakeWhile isBlank, ?_,
              maximal.inked_last a (by simp), maximal.inked_head b rfl⟩
            conv_lhs => rw [← fronts, ← backs]
            simp

theorem Within.exists_maximal {text run : List α} (within : Within text run) :
    ∃ front back, Maximal front run back ∧
      (text.dropWhile isBlank).rdropWhile isBlank = front ++ (run ++ back) := by
  obtain ⟨front, a, b, back, rfl, inked, inked'⟩ := within.between
  refine ⟨front.dropWhile isBlank ++ [a], b :: back.rdropWhile isBlank,
    ⟨by simpa using inked, within.blanks, by simpa using inked'⟩, ?_⟩
  rw [dropWhile_append_cons inked, ← List.cons_append, ← List.append_assoc,
    rdropWhile_append_cons inked']
  simp

/-- A document is trimmed alike without its padding if and only if in none of the runs of
blanks within it padding hides an empty line. -/
theorem trim_unpad_eq_iff (text : List α) :
    Line.trim (unpad text) = Line.trim text ↔ ∀ run, Within text run → ¬ HidesEmptyLine run := by
  have whole : Runwise (BlankRun.settle ∘ unpad (α := α)) :=
    BlankRun.settle_runwise.comp unpad_runwise
  rw [Line.trim_eq_settle, Line.trim_eq_settle, ← unpad_runwise.dropWhile,
    ← unpad_runwise.rdropWhile]
  refine (whole.eq_iff BlankRun.settle_runwise _).trans ?_
  have each : ∀ run : List α, (∀ a ∈ run, isBlank a = true) →
      ((BlankRun.settle ∘ unpad) run = BlankRun.settle run ↔ ¬ HidesEmptyLine run) := by
    intro run blanks
    have unpadded := (unpad_respaced run).forall_isBlank blanks
    rw [Function.comp_apply, BlankRun.settle_of_blank unpadded, BlankRun.settle_of_blank blanks,
      settled_unpad_eq_iff]
  constructor
  · intro agree run within
    obtain ⟨front, back, maximal, inner⟩ := within.exists_maximal
    exact (each run within.blanks).mp (agree front run back maximal inner)
  · intro shown front run back maximal inner
    rcases maximal.within_or inner with rfl | within
    · rfl
    · exact (each run within.blanks).mpr (shown run within)

/-- A line of one space, unlike an empty one, leaves the words around it on lines of their
own. -/
theorem trim_unpad_ne_of_space :
    unpad "a\n \nb".toList = "a\n\nb".toList ∧
      Line.trim "a\n \nb".toList = "a\nb".toList ∧
      Line.trim (unpad "a\n \nb".toList) = "ab".toList := by
  decide +kernel

end HtmlMinifier
