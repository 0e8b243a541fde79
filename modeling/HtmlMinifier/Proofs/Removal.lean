import HtmlMinifier.Proofs.Literal

/-!
# What is taken out of a document

The minifier takes stretches of text out of a document and leaves nothing in their place:
comments, the markers of CDATA sections, and blanks that reach over an empty line.  What
stood on both sides of such a stretch stands together then, and can become a tag.

`Bared` says that a text is left when some such stretches are taken out of another, one
after the other.  All else that happens to a document brings no letters together:
regions are set aside behind tokens (`Masked`), and blanks are changed where some blank
stays or where a tag begins (`Regapped`).
-/

namespace HtmlMinifier

open Alphabet

/-! ## What goes without a trace -/

/-- A stretch of text that is taken out with nothing left in its place. -/
inductive Removable : List Char → Prop
  | comment (inner : List Char) :
      Removable (Markup.commentOpen ++ inner ++ Markup.commentClose)
  | cdataOpen : Removable Markup.cdataOpen
  | cdataClose : Removable Markup.cdataClose
  | emptyLine {run : List Char} (blanks : ∀ c ∈ run, isBlank c = true)
      (empty : ['\n', '\n'].IsInfix run) : Removable run

/-- `Bared left text` says that `left` is left of `text` when removable stretches are taken
out and CR LF is written as LF, in some order. -/
inductive Bared (left : List Char) : List Char → Prop
  | refl : Bared left left
  | remove (front back : List Char) {stretch : List Char} :
      Removable stretch → Bared left (front ++ back) → Bared left (front ++ stretch ++ back)
  | lineEnd (front back : List Char) :
      Bared left (front ++ '\n' :: back) → Bared left (front ++ '\r' :: '\n' :: back)

namespace Bared

variable {left middle text : List Char}

theorem trans (outer : Bared left middle) (inner : Bared middle text) : Bared left text := by
  induction inner with
  | refl => exact outer
  | remove front back removable _ ih => exact ih.remove front back removable
  | lineEnd front back _ ih => exact ih.lineEnd front back

/-- What stands around a text may stay. -/
theorem around (before behind : List Char) (bared : Bared left text) :
    Bared (before ++ left ++ behind) (before ++ text ++ behind) := by
  induction bared with
  | refl => exact refl
  | remove front back removable _ ih =>
      have shape : ∀ stretch : List Char, before ++ (front ++ stretch ++ back) ++ behind =
          (before ++ front) ++ stretch ++ (back ++ behind) := by
        simp
      rw [shape]
      exact remove _ _ removable (by simpa using ih)
  | lineEnd front back _ ih =>
      have ih' : Bared (before ++ left ++ behind)
          ((before ++ front) ++ '\n' :: (back ++ behind)) := by
        simpa using ih
      simpa using ih'.lineEnd (before ++ front) (back ++ behind)

theorem append {first first' second second' : List Char} (front : Bared first' first)
    (back : Bared second' second) : Bared (first' ++ second') (first ++ second) := by
  have before := back.around first' []
  have behind := front.around [] second
  simp only [List.append_nil, List.nil_append] at before behind
  exact before.trans behind

theorem removed {stretch : List Char} (removable : Removable stretch) : Bared [] stretch := by
  have bared := remove [] [] removable refl
  rwa [List.nil_append, List.append_nil] at bared

/-- Nothing is new in what is left. -/
theorem sublist (bared : Bared left text) : left.Sublist text := by
  induction bared with
  | refl => exact List.Sublist.refl _
  | remove front back _ _ ih =>
      exact ih.trans ((List.sublist_append_left front _).append_right back)
  | lineEnd front back _ ih => exact ih.trans ((List.sublist_cons_self _ _).append_left front)

/-- Replacing bares a text when every match is replaced by a bared match. -/
theorem replace {β : Type} {pattern : Pattern Char β} {write : β → List Char}
    (each : ∀ text found rest, pattern.read text = some (found, rest) →
      ∃ matched, text = matched ++ rest ∧ Bared (write found) matched)
    (text : List Char) : Bared (pattern.replace write text) text :=
  Pattern.related_replace Bared (fun _ => refl) append each text

/-- A phrase that can be removed can be removed everywhere. -/
theorem replace_phrase {letters : List Char} (nonempty : letters ≠ []) {word : List Char}
    (bared : Bared word letters) (text : List Char) :
    Bared ((Pattern.phrase letters nonempty).replace (fun _ => word) text) text := by
  apply replace
  intro text found rest read
  exact ⟨letters, by rw [Pattern.append_of_read_phrase read, spell_char], bared⟩

end Bared

theorem Margin.joinLines_bared (text : List Char) : Bared (joinLines text) text :=
  Bared.replace_phrase (by decide) (Bared.lineEnd [] [] Bared.refl) text

theorem Wrapper.eraseCdata_bared (body : List Char) : Bared (eraseCdata body) body := by
  unfold eraseCdata
  split
  · exact (Bared.replace_phrase (by decide) (Bared.removed .cdataClose) _).trans
      (Bared.replace_phrase (by decide) (Bared.removed .cdataOpen) body)
  · exact Bared.refl

theorem Comment.strip_bared (text : List Char) : Bared (strip text) text := by
  apply Bared.replace
  intro text content rest found
  refine ⟨_, append_of_read found, ?_⟩
  unfold residue
  rw [spell_char, spell_char]
  split
  · exact Bared.refl
  · exact Bared.removed (.comment content)

/-! ## Words that stand together -/

section Words

variable {α : Type} {a : α} {word front back : List α}

/-- A word does not begin in a text without its first symbol. -/
theorem isInfix_of_isInfix_append_of_notMem (absent : a ∉ front)
    (inside : (a :: word).IsInfix (front ++ back)) : (a :: word).IsInfix back := by
  rcases List.infix_append_iff_ne_nil.mp inside with
    before | behind | ⟨first, second, first_ne_nil, -, halves, ending, -⟩
  · exact absurd (before.subset List.mem_cons_self) absent
  · exact behind
  · obtain ⟨b, first, rfl⟩ := List.exists_cons_of_ne_nil first_ne_nil
    obtain ⟨rfl, -⟩ := List.cons.inj halves
    exact absurd (ending.subset List.mem_cons_self) absent

/-- A word that begins with one bracket and holds no other stands in what the two brackets
enclose, or it does not reach into it. -/
theorem isInfix_bracketed {b : α} {inner : List α} (noOpen : a ∉ word) (noClose : b ∉ a :: word)
    (inside : (a :: word).IsInfix (front ++ a :: (inner ++ b :: back))) :
    (a :: word).IsInfix front ∨ (a :: word).IsInfix (a :: (inner ++ [b])) ∨
      (a :: word).IsInfix back := by
  obtain ⟨other, absent⟩ := not_or.mp (mt List.mem_cons.mpr noClose)
  have parted : front ++ a :: (inner ++ b :: back) = (front ++ a :: inner) ++ b :: back := by
    simp
  have closed : (a :: inner).IsInfix (a :: (inner ++ [b])) :=
    (List.prefix_append (a :: inner) [b]).isInfix
  rw [parted] at inside
  rcases isInfix_append_cons absent inside with before | start | behind
  · rcases isInfix_append_cons noOpen before with outside | start | within
    · exact Or.inl outside
    · exact Or.inr (Or.inl (start.isInfix.trans closed))
    · exact Or.inr (Or.inl ((within.trans (List.suffix_cons a inner).isInfix).trans closed))
  · exact absurd (List.cons_prefix_cons.mp start).1.symm other
  · exact Or.inr (Or.inr behind)

end Words

/-! ## Regions behind tokens -/

/-- `Masked known text' text` says that `text'` is `text` with words in place of some
stretches that are known.  Such a word begins with `%` and holds no marks. -/
inductive Masked (known : List Char → Prop) : List Char → List Char → Prop
  | nil : Masked known [] []
  | keep (c : Char) {text' text : List Char} :
      Masked known text' text → Masked known (c :: text') (c :: text)
  | mask {word stretch text' text : List Char} :
      (∀ c ∈ '%' :: word, isMark c = false) → known stretch → Masked known text' text →
        Masked known ('%' :: word ++ text') (stretch ++ text)

namespace Masked

variable {known : List Char → Prop} {text text' front back : List Char}

theorem refl (text : List Char) : Masked known text text := by
  induction text with
  | nil => exact nil
  | cons c text ih => exact keep c ih

theorem append {first first' second second' : List Char} (front : Masked known first' first)
    (back : Masked known second' second) :
    Masked known (first' ++ second') (first ++ second) := by
  induction front with
  | nil => exact back
  | keep c _ ih => exact keep c ih
  | @mask word stretch _ _ inert within _ ih =>
      rw [List.append_assoc, List.append_assoc]
      exact mask inert within ih

/-- A masked text is parted in front of a mark. -/
theorem exists_of_mark {c : Char} (mark : isMark c = true)
    (masked : Masked known (front ++ c :: back) text) :
    ∃ first second, text = first ++ second ∧ Masked known front first ∧
      Masked known (c :: back) second := by
  generalize shape : front ++ c :: back = whole at masked
  induction masked generalizing front with
  | nil => simp at shape
  | @keep d text' text masked ih =>
      cases front with
      | nil =>
          obtain ⟨rfl, rfl⟩ := List.cons.inj shape
          exact ⟨[], c :: text, rfl, nil, masked.keep c⟩
      | cons e front =>
          obtain ⟨rfl, behind⟩ := List.cons.inj shape
          obtain ⟨first, second, rfl, masked', rest⟩ := ih behind
          exact ⟨e :: first, second, rfl, masked'.keep e, rest⟩
  | @mask word stretch text' text inert within _ ih =>
      have absent : c ∉ '%' :: word := by
        intro member
        rw [inert c member] at mark
        contradiction
      obtain ⟨between, rfl, behind⟩ := exists_of_append_eq_append_cons absent shape.symm
      obtain ⟨first, second, rfl, masked', rest⟩ := ih behind.symm
      exact ⟨stretch ++ first, second, (List.append_assoc _ _ _).symm,
        mask inert within masked', rest⟩

/-- A word without `%` at the front of a masked text stands at the front of the text. -/
theorem exists_of_word {word : List Char} (without : '%' ∉ word)
    (masked : Masked known (word ++ back) text) :
    ∃ rest, text = word ++ rest ∧ Masked known back rest := by
  induction word generalizing text with
  | nil => exact ⟨text, rfl, masked⟩
  | cons c word ih =>
      generalize shape : c :: word ++ back = whole at masked
      cases masked with
      | nil => simp at shape
      | @keep d text' text masked =>
          obtain ⟨rfl, rfl⟩ := List.cons.inj shape
          have without' : '%' ∉ word := fun member => without (List.mem_cons_of_mem c member)
          obtain ⟨rest, rfl, behind⟩ := ih without' masked
          exact ⟨rest, rfl, behind⟩
      | mask _ _ _ =>
          obtain ⟨rfl, -⟩ := List.cons.inj shape
          exact absurd List.mem_cons_self without

/-- So does such a word that begins with a mark, wherever it stands. -/
theorem exists_of_phrase {c : Char} {word : List Char} (mark : isMark c = true)
    (without : '%' ∉ c :: word) (masked : Masked known (front ++ c :: word ++ back) text) :
    ∃ first second, text = first ++ c :: word ++ second ∧ Masked known front first ∧
      Masked known back second := by
  rw [List.append_assoc, List.cons_append] at masked
  obtain ⟨first, second, rfl, before, behind⟩ := masked.exists_of_mark mark
  rw [← List.cons_append] at behind
  obtain ⟨rest, rfl, after⟩ := behind.exists_of_word without
  exact ⟨first, rest, (List.append_assoc _ _ _).symm, before, after⟩

theorem isInfix {c : Char} {word : List Char} (mark : isMark c = true)
    (without : '%' ∉ c :: word) (masked : Masked known text' text)
    (inside : (c :: word).IsInfix text') : (c :: word).IsInfix text := by
  obtain ⟨front, back, rfl⟩ := inside
  obtain ⟨first, second, rfl, -, -⟩ := masked.exists_of_phrase mark without
  exact List.infix_append first (c :: word) second

/-- What can be removed from a masked text can be removed from the text. -/
theorem exists_of_removable {stretch : List Char} (removable : Removable stretch)
    (masked : Masked known (front ++ stretch ++ back) text) :
    ∃ first stretch' second, text = first ++ stretch' ++ second ∧ Removable stretch' ∧
      Masked known front first ∧ Masked known back second := by
  cases removable with
  | comment inner =>
      have shape : front ++ (Markup.commentOpen ++ inner ++ Markup.commentClose) ++ back =
          (front ++ Markup.commentOpen ++ inner) ++ Markup.commentClose ++ back := by
        simp
      rw [shape] at masked
      obtain ⟨first, second, rfl, before, behind⟩ :=
        masked.exists_of_phrase (c := '-') (by decide) (by decide)
      obtain ⟨first, inner', rfl, before, -⟩ :=
        before.exists_of_phrase (c := '<') (by decide) (by decide)
      exact ⟨first, Markup.commentOpen ++ inner' ++ Markup.commentClose, second,
        by simp [Markup.commentOpen, Markup.commentClose], .comment inner', before, behind⟩
  | cdataOpen =>
      obtain ⟨first, second, rfl, before, behind⟩ :=
        masked.exists_of_phrase (c := '<') (by decide) (by decide)
      exact ⟨first, _, second, rfl, .cdataOpen, before, behind⟩
  | cdataClose =>
      obtain ⟨first, second, rfl, before, behind⟩ :=
        masked.exists_of_phrase (c := ']') (by decide) (by decide)
      exact ⟨first, _, second, rfl, .cdataClose, before, behind⟩
  | emptyLine blanks empty =>
      cases stretch with
      | nil => simp at empty
      | cons c run =>
          have without : '%' ∉ c :: run := fun member => absurd (blanks _ member) (by decide)
          obtain ⟨first, second, rfl, before, behind⟩ :=
            masked.exists_of_phrase (mark_of_isBlank (blanks c List.mem_cons_self)) without
          exact ⟨first, _, second, rfl, .emptyLine blanks empty, before, behind⟩

/-- So a masked text can be bared only as the text can. -/
theorem exists_bared {left' : List Char} (masked : Masked known text' text)
    (bared : Bared left' text') : ∃ left, Bared left text ∧ Masked known left' left := by
  induction bared generalizing text with
  | refl => exact ⟨text, .refl, masked⟩
  | remove front back removable _ ih =>
      obtain ⟨first, stretch, second, rfl, removable', before, behind⟩ :=
        masked.exists_of_removable removable
      obtain ⟨left, bared, masked'⟩ := ih (before.append behind)
      exact ⟨left, bared.remove first second removable', masked'⟩
  | lineEnd front back _ ih =>
      have shape : front ++ '\r' :: '\n' :: back = front ++ ['\r', '\n'] ++ back := by
        simp
      rw [shape] at masked
      obtain ⟨first, second, rfl, before, behind⟩ :=
        masked.exists_of_phrase (by decide) (by decide)
      obtain ⟨left, bared, masked'⟩ := ih (before.append (behind.keep '\n'))
      have step := bared.lineEnd first second
      exact ⟨left, by simpa using step, masked'⟩

variable {letters : List Char}

theorem isPrefix_of_isPrefix (noOpen : '<' ∉ letters)
    (bracketed : ∀ stretch, known stretch → ∃ inner, stretch = '<' :: inner)
    (masked : Masked known text' text) (start : letters.IsPrefix text) :
    letters.IsPrefix text' := by
  induction masked generalizing letters with
  | nil => exact start
  | keep c _ ih =>
      cases letters with
      | nil => exact List.nil_prefix
      | cons d letters =>
          obtain ⟨rfl, further⟩ := List.cons_prefix_cons.mp start
          exact List.cons_prefix_cons.mpr
            ⟨rfl, ih (fun member => noOpen (List.mem_cons_of_mem d member)) further⟩
  | mask _ within _ _ =>
      cases letters with
      | nil => exact List.nil_prefix
      | cons d letters =>
          obtain ⟨inner, rfl⟩ := bracketed _ within
          obtain ⟨rfl, -⟩ := List.cons_prefix_cons.mp start
          exact absurd List.mem_cons_self noOpen

/-- A tag that stands in no masked stretch stands between them, when each of them stands
between angle brackets. -/
theorem isInfix_of_isInfix (noOpen : '<' ∉ letters) (noClose : '>' ∉ letters)
    (bracketed : ∀ stretch, known stretch → ∃ inner, stretch = '<' :: (inner ++ ['>']))
    (closed : ∀ stretch, known stretch → ¬ ('<' :: letters).IsInfix stretch)
    (masked : Masked known text' text) (inside : ('<' :: letters).IsInfix text) :
    ('<' :: letters).IsInfix text' := by
  induction masked with
  | nil => exact inside
  | @keep c text' text masked ih =>
      rcases List.infix_cons_iff.mp inside with start | behind
      · obtain ⟨rfl, further⟩ := List.cons_prefix_cons.mp start
        have opened : ∀ stretch, known stretch → ∃ inner, stretch = '<' :: inner := by
          intro stretch within
          obtain ⟨inner, shape⟩ := bracketed stretch within
          exact ⟨_, shape⟩
        have start' := masked.isPrefix_of_isPrefix noOpen opened further
        exact (List.cons_prefix_cons.mpr ⟨rfl, start'⟩).isInfix
      · exact (ih behind).trans (List.suffix_cons c text').isInfix
  | @mask word stretch text' text _ within _ ih =>
      obtain ⟨inner, rfl⟩ := bracketed stretch within
      have shape : '<' :: (inner ++ ['>']) ++ text = [] ++ '<' :: (inner ++ '>' :: text) := by
        simp
      rw [shape] at inside
      rcases isInfix_bracketed noOpen (by simp [noClose]) inside with before | here | behind
      · simp at before
      · exact absurd here (closed _ within)
      · exact (ih behind).trans (List.suffix_append ('%' :: word) text').isInfix

end Masked

/-! ## Blanks that are changed -/

/-- `Regapped text' text` says that `text'` is `text` with other blanks in place of some
stretches.  Where no blank is left a tag begins. -/
inductive Regapped : List Char → List Char → Prop
  | nil : Regapped [] []
  | keep (c : Char) {text' text : List Char} :
      Regapped text' text → Regapped (c :: text') (c :: text)
  | gap {run' run text' text : List Char} :
      (∀ c ∈ run', isBlank c = true) → (run' = [] → ∃ rest, text' = '<' :: rest) →
        Regapped text' text → Regapped (run' ++ text') (run ++ text)

namespace Regapped

variable {text text' letters : List Char}

theorem refl (text : List Char) : Regapped text text := by
  induction text with
  | nil => exact nil
  | cons c text ih => exact keep c ih

theorem append {first first' second second' : List Char} (front : Regapped first' first)
    (back : Regapped second' second) : Regapped (first' ++ second') (first ++ second) := by
  induction front with
  | nil => exact back
  | keep c _ ih => exact keep c ih
  | gap blanks parts _ ih =>
      rw [List.append_assoc, List.append_assoc]
      refine gap blanks (fun none => ?_) ih
      obtain ⟨rest, rfl⟩ := parts none
      exact ⟨rest ++ second', rfl⟩

/-- Replacing changes blanks when in every match it does. -/
theorem replace {β : Type} {pattern : Pattern Char β} {write : β → List Char}
    (each : ∀ text found rest, pattern.read text = some (found, rest) →
      ∃ matched, text = matched ++ rest ∧ Regapped (write found) matched)
    (text : List Char) : Regapped (pattern.replace write text) text :=
  Pattern.related_replace Regapped refl append each text

theorem isPrefix (noOpen : '<' ∉ letters) (inked : ∀ c ∈ letters, isBlank c = false)
    (regapped : Regapped text' text) (start : letters.IsPrefix text') :
    letters.IsPrefix text := by
  induction regapped generalizing letters with
  | nil => exact start
  | keep c _ ih =>
      cases letters with
      | nil => exact List.nil_prefix
      | cons d letters =>
          obtain ⟨rfl, further⟩ := List.cons_prefix_cons.mp start
          exact List.cons_prefix_cons.mpr ⟨rfl,
            ih (fun member => noOpen (List.mem_cons_of_mem d member))
              (fun e member => inked e (List.mem_cons_of_mem d member)) further⟩
  | @gap run' run text' text blanks parts _ _ =>
      cases letters with
      | nil => exact List.nil_prefix
      | cons d letters =>
          cases run' with
          | nil =>
              obtain ⟨rest, rfl⟩ := parts rfl
              obtain ⟨rfl, -⟩ := List.cons_prefix_cons.mp start
              exact absurd List.mem_cons_self noOpen
          | cons c run' =>
              obtain ⟨rfl, -⟩ := List.cons_prefix_cons.mp start
              have blank := blanks d List.mem_cons_self
              rw [inked d List.mem_cons_self] at blank
              contradiction

/-- No tag is new where blanks are changed. -/
theorem isInfix (noOpen : '<' ∉ letters) (inked : ∀ c ∈ letters, isBlank c = false)
    (regapped : Regapped text' text) (inside : ('<' :: letters).IsInfix text') :
    ('<' :: letters).IsInfix text := by
  induction regapped with
  | nil => exact inside
  | @keep c text' text regapped ih =>
      rcases List.infix_cons_iff.mp inside with start | behind
      · obtain ⟨rfl, further⟩ := List.cons_prefix_cons.mp start
        exact (List.cons_prefix_cons.mpr ⟨rfl, regapped.isPrefix noOpen inked further⟩).isInfix
      · exact (ih behind).trans (List.suffix_cons c text).isInfix
  | @gap run' run text' text blanks _ _ ih =>
      have absent : '<' ∉ run' := fun member => absurd (blanks _ member) (by decide)
      exact (ih (isInfix_of_isInfix_append_of_notMem absent inside)).trans
        (List.suffix_append run text).isInfix

end Regapped

end HtmlMinifier
