import HtmlMinifier.Proofs.Polish
import HtmlMinifier.Proofs.SigilChoice
import Mathlib.Data.List.Flatten

/-!
# What every stage calms down

A stage can do three things to a document: leave it, make it shorter, or exchange
characters for others.  The third would never end if one stage undid what another does,
and two of them write a single blank anew: a space at the edge of a text, a line feed in
front of a first attribute.  They never meet, because a text begins behind a `>` and an
attribute behind a `<`.  So the last angle bracket in front of a blank says which of the
two it can still become.

The unrest of a text counts the characters that can still be exchanged: capitals, since
close tags are written anew in small letters, and the blanks that are not what they can
become.  An exchange lowers it.
-/

namespace HtmlMinifier

open Alphabet

/-! ## The unrest of a text -/

namespace Unrest

/-- Whether a text is inside of a tag behind a character. -/
def step (inside : Bool) (c : Char) : Bool :=
  if c = '<' then true else if c = '>' then false else inside

/-- Whether a text is inside of a tag at its end. -/
def within (inside : Bool) (text : List Char) : Bool :=
  text.foldl step inside

/-- What a blank can still become. -/
def calm (inside : Bool) : Char :=
  if inside then '\n' else ' '

/-- Whether a character can still be exchanged. -/
def restless (inside : Bool) (c : Char) : Bool :=
  c.isUpper || (isBlank c && c != calm inside)

/-- How many characters of a text can still be exchanged. -/
def count (inside : Bool) : List Char → Nat
  | [] => 0
  | c :: text => (restless inside c).toNat + count (step inside c) text

variable {inside : Bool} {text text' text'' first first' second second' : List Char}

@[simp]
theorem within_append (inside : Bool) (first second : List Char) :
    within inside (first ++ second) = within (within inside first) second :=
  List.foldl_append

theorem count_append (inside : Bool) (first second : List Char) :
    count inside (first ++ second) = count inside first + count (within inside first) second := by
  induction first generalizing inside with
  | nil => simp [count, within]
  | cons c first ih =>
      rw [List.cons_append, count, ih, count, Nat.add_assoc]
      rfl

/-- `Calms inside text' text` says that a text, which begins inside of a tag or not, has
stayed, has become shorter, or has come to rest at some of its characters. -/
inductive Calms (inside : Bool) (text' text : List Char) : Prop
  | same (equal : text' = text) : Calms inside text' text
  | shorter (less : text'.length < text.length) : Calms inside text' text
  | calmer (length_eq : text'.length = text.length)
      (within_eq : within inside text' = within inside text)
      (less : count inside text' < count inside text) : Calms inside text' text

namespace Calms

theorem length_le (calms : Calms inside text' text) : text'.length ≤ text.length := by
  cases calms with
  | same equal => rw [equal]
  | shorter less => exact less.le
  | calmer length_eq _ _ => exact length_eq.le

theorem of_sublist (sublist : text'.Sublist text) : Calms inside text' text := by
  rcases sublist.length_le.lt_or_eq with less | equal
  · exact shorter less
  · exact same (sublist.eq_of_length equal)

theorem trans (outer : Calms inside text'' text') (inner : Calms inside text' text) :
    Calms inside text'' text := by
  cases inner with
  | same equal => exact equal ▸ outer
  | shorter less => exact shorter (outer.length_le.trans_lt less)
  | calmer length_eq within_eq less =>
      cases outer with
      | same equal => exact equal ▸ calmer length_eq within_eq less
      | shorter less' => exact shorter (less'.trans_eq length_eq)
      | calmer length_eq' within_eq' less' =>
          exact calmer (length_eq'.trans length_eq) (within_eq'.trans within_eq) (less'.trans less)

/-- Two texts in a row come to rest one by one. -/
theorem append (front : Calms inside first' first)
    (back : Calms (within inside first) second' second) :
    Calms inside (first' ++ second') (first ++ second) := by
  have lengths := back.length_le
  cases front with
  | same equal =>
      subst equal
      cases back with
      | same equal => exact same (congrArg (first' ++ ·) equal)
      | shorter less => exact shorter (by simpa using less)
      | calmer length_eq within_eq less =>
          exact calmer (by simp [length_eq]) (by simp [within_eq])
            (by simpa [count_append] using less)
  | shorter less => exact shorter (by simp only [List.length_append]; omega)
  | calmer length_eq within_eq less =>
      cases back with
      | same equal =>
          subst equal
          exact calmer (by simp [length_eq]) (by simp [within_eq])
            (by rw [count_append, count_append, within_eq]; omega)
      | shorter less' => exact shorter (by simp only [List.length_append]; omega)
      | calmer length_eq' within_eq' less' =>
          exact calmer (by simp [length_eq, length_eq']) (by simp [within_eq, within_eq'])
            (by rw [count_append, count_append, within_eq]; omega)

/-- Two texts that calm each other down are the same. -/
theorem antisymm (calms : Calms inside text' text) (back : Calms inside text text') :
    text' = text := by
  cases calms with
  | same equal => exact equal
  | shorter less => exact absurd back.length_le (Nat.not_le.mpr less)
  | calmer length_eq _ less =>
      cases back with
      | same equal => exact equal.symm
      | shorter less' => exact absurd length_eq.symm less'.ne
      | calmer _ _ less' => exact absurd less' less.asymm

/-- A run of blanks comes to rest as the one that can stand there. -/
theorem run {run : List Char} (nonempty : run ≠ []) (blanks : ∀ c ∈ run, isBlank c = true) :
    Calms inside [calm inside] run := by
  cases run with
  | nil => exact absurd rfl nonempty
  | cons c others =>
      cases others with
      | cons d others => exact shorter (by simp)
      | nil =>
          by_cases same : c = calm inside
          · exact .same (by rw [same])
          · have blank := blanks c List.mem_cons_self
            have stays : step inside c = inside :=
              of_isBlank (fun c => step inside c = inside) (by cases inside <;> decide) blank
            have restless : restless inside c = true := by simp [restless, blank, same]
            have calmed : Unrest.restless inside (calm inside) = false ∧
                step inside (calm inside) = inside := by
              cases inside <;> decide
            exact calmer rfl (by simp [within, stays, calmed])
              (by simp [count, restless, calmed])

/-- Letters come to rest as small ones. -/
theorem lower (text : List Char) : Calms inside (text.map Char.toLower) text := by
  induction text generalizing inside with
  | nil => exact same rfl
  | cons c text ih =>
      have here : Calms inside [c.toLower] [c] := by
        rcases toLower_cases c with equal | ⟨n, capital, small⟩
        · exact same (by rw [equal])
        · have letters : ∀ n : Fin 26, ∀ inside,
              restless inside (Char.ofNat (65 + n)) = true ∧
                restless inside (Char.ofNat (97 + n)) = false ∧
                  step inside (Char.ofNat (65 + n)) = inside ∧
                    step inside (Char.ofNat (97 + n)) = inside := by decide
          obtain ⟨restless, calmed, stays, stays'⟩ := letters n inside
          rw [small, capital]
          exact calmer rfl (by simp [within, stays, stays'])
            (by simp [count, restless, calmed])
      exact here.append ih

end Calms

end Unrest

/-! ## Stages that only drop symbols -/

section Dropping

variable {α : Type} [Alphabet α]

omit [Alphabet α] in
/-- Replacing drops symbols only where every match is replaced by some of its symbols. -/
theorem Pattern.replace_sublist {β : Type} {pattern : Pattern α β} {write : β → List α}
    (each : ∀ text found rest, pattern.read text = some (found, rest) →
      ∃ matched, text = matched ++ rest ∧ (write found).Sublist matched) (text : List α) :
    (pattern.replace write text).Sublist text :=
  related_replace List.Sublist List.Sublist.refl List.Sublist.append each text

theorem Pattern.phrase_replace_sublist {letters : List Char} (nonempty : letters ≠ [])
    {word : List α} (within : word.Sublist (spell letters)) (text : List α) :
    ((Pattern.phrase letters nonempty).replace (fun _ => word) text).Sublist text :=
  replace_sublist (fun _ _ _ read => ⟨_, append_of_read_phrase read, within⟩) text

theorem Margin.normalize_sublist (text : List α) : (normalize text).Sublist text :=
  (Pattern.phrase_replace_sublist (by decide) (List.sublist_cons_self _ _) _).trans
    (trim_isInfix text).sublist

namespace Wrapper

theorem eraseCdata_sublist (body : List α) : (eraseCdata body).Sublist body := by
  unfold eraseCdata
  split
  · exact (Pattern.phrase_replace_sublist (by decide) (List.nil_sublist _) _).trans
      (Pattern.phrase_replace_sublist (by decide) (List.nil_sublist _) body)
  · exact List.Sublist.refl body

theorem script_sublist (body : List α) : (script body).Sublist body :=
  (Margin.trim_isInfix _).sublist.trans
    ((eraseCdata_sublist _).trans (uncommentScript_isInfix body).sublist)

theorem style_sublist (body : List α) : (style body).Sublist body :=
  (Margin.trim_isInfix _).sublist.trans
    ((eraseCdata_sublist _).trans (uncommentStyle_isInfix body).sublist)

end Wrapper

theorem Comment.strip_sublist (text : List α) : (strip text).Sublist text := by
  apply Pattern.replace_sublist
  intro text content rest found
  refine ⟨_, append_of_read found, ?_⟩
  unfold residue
  split
  · exact List.Sublist.refl _
  · exact List.nil_sublist _

theorem BlankRun.settled_sublist (run : List α) : (settled run).Sublist run := by
  by_cases flat : ∀ a ∈ run, is '\n' a = false
  · rw [settled_of_forall_not flat]
  · obtain ⟨front, back, rfl, behind⟩ := exists_last flat
    rw [settled_append_cons front behind]
    split
    · exact List.nil_sublist _
    · simp

theorem Line.trim_sublist (text : List α) : (trim text).Sublist text := by
  have settled : ∀ text : List α, (BlankRun.settle text).Sublist text := by
    apply Pattern.replace_sublist
    intro text run rest found
    obtain ⟨-, -, -, shape⟩ := BlankRun.read_eq_some_iff.mp found
    exact ⟨run, shape, BlankRun.settled_sublist run⟩
  rw [trim_eq_settle]
  exact (settled _).trans
    ((List.rdropWhile_prefix isBlank _).sublist.trans (List.dropWhile_sublist isBlank))

theorem BlockTag.moveUp_sublist (text : List α) : (moveUp text).Sublist text := by
  apply Pattern.replace_sublist
  intro text taken rest found
  obtain ⟨run, -, -, -, shape⟩ := exists_of_read found
  exact ⟨run ++ taken, shape, List.sublist_append_right run taken⟩

end Dropping

/-! ## Documents of symbols -/

namespace Symbol

open Unrest

/-- A document has come to rest when its text has, wherever it begins. -/
def Calms (text' text : List Symbol) : Prop :=
  ∀ inside, Unrest.Calms inside (flattenAll text') (flattenAll text)

variable {text' text first first' second second' : List Symbol}

theorem Calms.refl (text : List Symbol) : Calms text text :=
  fun _ => .same rfl

theorem Calms.append (front : Calms first' first) (back : Calms second' second) :
    Calms (first' ++ second') (first ++ second) := by
  intro inside
  rw [flattenAll_append, flattenAll_append]
  exact (front inside).append (back _)

theorem Calms.of_sublist (sublist : text'.Sublist text) : Calms text' text := by
  intro inside
  apply Unrest.Calms.of_sublist
  rw [flattenAll_eq_flatMap, flattenAll_eq_flatMap]
  exact sublist.flatMap flatten

/-- Blanks stand for themselves. -/
theorem exists_map_char_of_blanks {run : List Symbol} (blanks : ∀ a ∈ run, isBlank a = true) :
    ∃ letters : List Char, run = letters.map char ∧ ∀ c ∈ letters, isBlank c = true := by
  induction run with
  | nil => exact ⟨[], rfl, by simp⟩
  | cons a run ih =>
      obtain ⟨first, others⟩ := List.forall_mem_cons.mp blanks
      obtain ⟨letters, rfl, behind⟩ := ih others
      obtain ⟨c, rfl⟩ := exists_ofChar_of_isBlank first
      exact ⟨c :: letters, rfl, List.forall_mem_cons.mpr ⟨first, behind⟩⟩

/-- A run of blanks in a document comes to rest. -/
theorem calms_run {run : List Symbol} (nonempty : run ≠ []) (blanks : ∀ a ∈ run, isBlank a = true)
    (inside : Bool) :
    Unrest.Calms inside (flattenAll [char (calm inside)]) (flattenAll run) := by
  obtain ⟨letters, rfl, known⟩ := exists_map_char_of_blanks blanks
  rw [flattenAll_map_char]
  exact .run (by simpa using nonempty) known

/-- What is kept of a region has come to rest: it is part of the region, but for a close
tag in small letters. -/
theorem calms_of_read {region : Region} {text content rest : List Symbol}
    (found : region.pattern.read text = some (content, rest)) :
    ∃ matched, text = matched ++ rest ∧ Calms content matched := by
  obtain ⟨before, element, behind, -, -, shape, rfl, written, sameCase, closing⟩ :=
    Region.exists_of_read found
  have tag : Calms (spell (Markup.closeTag region.name)) element.closing := by
    have small : (Markup.closeTag region.name).map Char.toLower = Markup.closeTag region.name := by
      cases region <;> decide
    intro inside
    change Unrest.Calms inside (flattenAll ((Markup.closeTag region.name).map char)) _
    rw [closing, ← small, ← sameCase, show spell written = written.map char from rfl,
      flattenAll_map_char, flattenAll_map_char]
    exact .lower written
  have kept : Calms (region.content element) element.text := by
    have opening := List.Sublist.refl element.opening
    cases region with
    | script =>
        exact (Calms.of_sublist (opening.append (Wrapper.script_sublist element.body))).append tag
    | style =>
        exact (Calms.of_sublist (opening.append (Wrapper.style_sublist element.body))).append tag
    | pre | textarea => exact Calms.refl element.text
  have inside : element.text.Sublist (before ++ element.text ++ behind) :=
    (List.sublist_append_right before _).trans (List.sublist_append_left _ behind)
  exact ⟨_, shape, fun start => (kept start).trans (Calms.of_sublist inside start)⟩

/-- Behind a text without `<` a document is outside of tags: what is set aside ends with
a `>`. -/
theorem within_flattenAll (bracketed : Bracketed text) (unopened : char '<' ∉ text) :
    within false (flattenAll text) = false := by
  induction text with
  | nil => rfl
  | cons a text ih =>
      rw [List.mem_cons, not_or] at unopened
      have behind := ih (bracketed.of_forall_mem fun _ => List.mem_cons_of_mem a) unopened.2
      rw [flattenAll, within_append]
      cases a with
      | char c =>
          have other : c ≠ '<' := fun same => unopened.1 (congrArg char same.symm)
          have stays : within false (flatten (char c)) = false := by
            simp [flatten, within, step, other]
          rw [stays, behind]
      | stored content =>
          obtain ⟨inner, rfl⟩ := bracketed.exists_content_eq List.mem_cons_self
          have ends :
              within false (flatten (stored (char '<' :: (inner ++ [char '>'])))) = false := by
            simp [flatten, flattenAll, within, step]
          rw [ends, behind]

/-- Outside of tags the edges of a text come to rest as spaces. -/
theorem calms_soften (bracketed : Bracketed text) (unopened : char '<' ∉ text) :
    Unrest.Calms false (flattenAll (TextEdge.soften text)) (flattenAll text) := by
  have space : ∀ run : List Symbol, (∀ a ∈ run, isBlank a = true) →
      Unrest.Calms false (flattenAll (TextEdge.space run)) (flattenAll run) := by
    intro run blanks
    cases run with
    | nil => exact .same rfl
    | cons a run => exact calms_run (List.cons_ne_nil a run) blanks false
  have outside : ∀ part : List Symbol, part.IsInfix text →
      within false (flattenAll part) = false := fun part inside =>
    within_flattenAll (bracketed.of_forall_mem fun _ member => inside.subset member)
      fun member => unopened (inside.subset member)
  have core := outside _ ((List.rdropWhile_prefix isBlank _).isInfix.trans
    (List.dropWhile_suffix (isBlank (α := Symbol)) (l := text)).isInfix)
  have lead := outside _ (List.takeWhile_prefix (isBlank (α := Symbol)) (l := text)).isInfix
  have inset := TextEdge.inset_text text
  have parts : text = text.takeWhile isBlank ++ ((text.dropWhile isBlank).rdropWhile isBlank ++
      (text.dropWhile isBlank).rtakeWhile isBlank) := by
    rw [List.rdropWhile_append_rtakeWhile, List.takeWhile_append_dropWhile]
  rw [TextEdge.soften_text]
  conv_rhs => rw [parts]
  simp only [flattenAll_append]
  refine (space _ inset.leading_blank).append ?_
  rw [lead]
  refine (Unrest.Calms.same rfl).append ?_
  rw [core]
  exact space _ inset.trailing_blank

theorem calms_collapse (bracketed : Bracketed text) : Calms (TextEdge.collapse text) text := by
  refine Pattern.related_replace (fun text' text => Bracketed text → Calms text' text)
    (fun text _ => Calms.refl text) ?_ ?_ text bracketed
  · intro first first' second second' front back bracketed
    exact (front (bracketed.of_forall_mem fun _ => List.mem_append_left second)).append
      (back (bracketed.of_forall_mem fun _ => List.mem_append_right first))
  · intro text content rest found
    refine ⟨_, TextEdge.append_of_read found, fun bracketed inside => ?_⟩
    obtain ⟨named, -, rfl, -⟩ := TextEdge.read_eq_some_iff.mp found
    have unopened : char '<' ∉ named.takeWhile fun a => !is '<' a := by
      intro member
      have other := List.mem_takeWhile_imp member
      simp [is, ← ofChar_eq] at other
    have edges := calms_soften (bracketed.of_forall_mem fun _ member =>
      List.mem_cons_of_mem _ (List.mem_append_left _ member)) unopened
    simp only [TextEdge.write, flattenAll_append, flattenAll, ofChar_eq, flatten]
    refine (Unrest.Calms.same rfl).append ?_
    rw [show within inside ['>'] = false from rfl]
    exact edges.append (.same rfl)

/-- Behind `<` and a name a document is inside of a tag. -/
theorem within_head {name : List Symbol} (named : ∀ a ∈ name, isNameSymbol a = true)
    (inside : Bool) : within inside (flattenAll (char '<' :: name)) = true := by
  change within true (flattenAll name) = true
  induction name with
  | nil => rfl
  | cons a name ih =>
      obtain ⟨first, others⟩ := List.forall_mem_cons.mp named
      obtain ⟨c, rfl, letter⟩ := satisfies_iff.mp first
      have stays : step true c = true := by
        unfold step
        split
        next => rfl
        next =>
          rw [if_neg]
          rintro rfl
          exact absurd letter (by decide)
      change within (step true c) (flattenAll name) = true
      rw [stays]
      exact ih others

/-- Inside of tags the blanks in front of a first attribute come to rest as a line feed. -/
theorem calms_reflow (text : List Symbol) : Calms (Attribute.reflow text) text := by
  apply Pattern.related_replace Calms Calms.refl Calms.append
  intro text tag rest found
  obtain ⟨a, run, kept, part, blanks, ⟨dropped, rfl⟩, shape, whole⟩ :=
    Attribute.exists_of_read found
  obtain ⟨named, tail, -, -, -, rfl⟩ := Attribute.read_eq_some_iff.mp found
  refine ⟨_, whole, fun inside => ?_⟩
  have head : within inside (flattenAll (char '<' :: named.takeWhile isNameSymbol)) = true :=
    within_head (fun _ => List.mem_takeWhile_imp) inside
  have gone : ∀ b ∈ a :: dropped, isBlank b = true := fun b member =>
    blanks b (List.mem_append_left kept member)
  have parts : a :: (dropped ++ kept) ++ part = (a :: dropped) ++ (kept ++ part) := by simp
  have written : ∀ tail : List Symbol, ofChar '\n' :: tail = [char (calm true)] ++ tail :=
    fun _ => rfl
  rw [Attribute.write, shape, parts, written]
  simp only [flattenAll_append, ofChar_eq]
  refine (Unrest.Calms.same rfl).append ?_
  rw [head]
  exact (calms_run (List.cons_ne_nil a dropped) gone true).append (.same rfl)

/-- Every stage calms a document down. -/
theorem calms_apply (bracketed : Bracketed text) (stage : Stage) :
    ∀ inside, Unrest.Calms inside (flattenAll (apply text stage)) (flattenAll text) := by
  rw [flattenAll_apply]
  change Calms _ _
  have kept : ∀ {result : List Symbol}, Calms result text →
      Calms ((result.map (.kept : Symbol → Piece Symbol (List Symbol))).flatMap (Piece.text id))
        text := by
    intro result calms
    rwa [Piece.flatMap_text_kept]
  cases stage with
  | normalize => exact kept (.of_sublist (Margin.normalize_sublist text))
  | protect region =>
      exact Pattern.related_replace Calms Calms.refl Calms.append
        (fun _ _ _ found => calms_of_read found) text
  | comments => exact kept (.of_sublist (Comment.strip_sublist text))
  | lines => exact kept (.of_sublist (Line.trim_sublist text))
  | blocks => exact kept (.of_sublist (BlockTag.moveUp_sublist text))
  | texts => exact kept (calms_collapse bracketed)
  | attributes => exact kept (calms_reflow text)

/-- So does every sequence of stages. -/
theorem calms_run_stages (bracketed : Bracketed text) (stages : List Stage) :
    Calms (run text stages) text := by
  induction stages generalizing text with
  | nil => exact Calms.refl text
  | cons stage stages ih =>
      exact fun inside =>
        (ih (bracketed.apply stage) inside).trans (calms_apply bracketed stage inside)

end Symbol

/-- Minifying without tokens calms a document down. -/
theorem calms_minifySymbols (document : String) :
    Unrest.Calms false (minifySymbols document).toList document.toList := by
  have calms := Symbol.calms_run_stages (Symbol.bracketed_start document) Stage.order false
  rw [minifySymbols, String.toList_ofList]
  rwa [Symbol.start, Symbol.flattenAll_map_char, ← Symbol.start] at calms

end HtmlMinifier
