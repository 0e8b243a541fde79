import HtmlMinifier.Alphabet
import HtmlMinifier.Markup

/-!
# Reading at the front of a text

A reader looks at the front of a text and either refuses or splits off what it
recognises there.  Readers never change what they read: the part taken and the
part left are the text they were given.

`upTo` moves a reader to the first place of a text where it accepts.  The place
is the first one and nothing is tried again, so a tag ends at its first `>` and
a comment at its first `-->`.
-/

namespace HtmlMinifier

/-- What a reader takes off the front of a text, as it is written there, and
what is left. -/
abbrev Reader (α : Type) :=
  List α → Option (List α × List α)

namespace Reader

variable {α : Type}

/-- A reader is faithful when it splits the text it is given. -/
def Faithful (reader : Reader α) : Prop :=
  ∀ ⦃text taken rest⦄, reader text = some (taken, rest) → taken ++ rest = text

/-- A word, letter by letter, where `same` says which symbols count as a
letter. -/
def word (same : Char → α → Bool) : List Char → Reader α
  | [], text => some ([], text)
  | _ :: _, [] => none
  | c :: letters, a :: text =>
      if same c a then
        match word same letters text with
        | some (taken, rest) => some (a :: taken, rest)
        | none => none
      else none

@[simp]
theorem word_nil (same : Char → α → Bool) (text : List α) :
    word same [] text = some ([], text) := by
  cases text <;> rfl

theorem word_faithful (same : Char → α → Bool) (letters : List Char) :
    Faithful (word same letters) := by
  induction letters with
  | nil =>
      intro text taken rest read
      simp only [word_nil, Option.some.injEq, Prod.mk.injEq] at read
      simp [← read.1, read.2]
  | cons c letters ih =>
      intro text taken rest read
      cases text with
      | nil => simp [word] at read
      | cons a text =>
          unfold word at read
          split at read
          · split at read
            next taken' rest' found =>
              simp only [Option.some.injEq, Prod.mk.injEq] at read
              simp [← read.1, ← read.2, ih found]
            next => simp at read
          · simp at read

/-- A word takes as many symbols as it has letters. -/
theorem length_of_word {same : Char → α → Bool} {letters : List Char}
    {text taken rest : List α} (read : word same letters text = some (taken, rest)) :
    taken.length = letters.length := by
  induction letters generalizing text taken rest with
  | nil =>
      simp only [word_nil, Option.some.injEq, Prod.mk.injEq] at read
      simp [← read.1]
  | cons c letters ih =>
      cases text with
      | nil => simp [word] at read
      | cons a text =>
          unfold word at read
          split at read
          · split at read
            next taken' rest' found =>
              simp only [Option.some.injEq, Prod.mk.injEq] at read
              simp [← read.1, ih found]
            next => simp at read
          · simp at read

/-- A text cut in three at the first place where a reader accepts. -/
structure Split (α : Type) where
  /-- The text before that place. -/
  before : List α
  /-- What the reader takes there. -/
  taken : List α
  /-- The text after it. -/
  rest : List α

/-- Walks on to the first place where the reader accepts.  The first argument
is the text already passed, backwards. -/
def upToFrom (reader : Reader α) (passed : List α) (text : List α) : Option (Split α) :=
  match reader text with
  | some (taken, rest) => some ⟨passed.reverse, taken, rest⟩
  | none =>
      match text with
      | [] => none
      | a :: text => upToFrom reader (a :: passed) text

/-- Cuts a text at the first place where the reader accepts. -/
def upTo (reader : Reader α) (text : List α) : Option (Split α) :=
  upToFrom reader [] text

theorem upToFrom_eq (reader : Reader α) (passed text : List α) :
    upToFrom reader passed text =
      (upTo reader text).map fun split =>
        { split with before := passed.reverse ++ split.before } := by
  unfold upTo
  induction text generalizing passed with
  | nil =>
      unfold upToFrom
      cases reader [] <;> simp
  | cons a text ih =>
      unfold upToFrom
      cases reader (a :: text) with
      | some pair => simp
      | none =>
          simp only []
          rw [ih (a :: passed), ih [a]]
          cases upToFrom reader [] text <;> simp

/-- A reader that accepts at once cuts the text at its front. -/
theorem upTo_of_some {reader : Reader α} {text taken rest : List α}
    (read : reader text = some (taken, rest)) :
    upTo reader text = some ⟨[], taken, rest⟩ := by
  unfold upTo upToFrom
  simp [read]

/-- A reader that refuses the whole text is tried one symbol later. -/
theorem upTo_cons_of_none {reader : Reader α} {a : α} {text : List α}
    (refused : reader (a :: text) = none) :
    upTo reader (a :: text) =
      (upTo reader text).map fun split => { split with before := a :: split.before } := by
  unfold upTo
  rw [upToFrom, refused]
  simp [upToFrom_eq reader [a] text, upTo]

theorem upTo_nil_of_none {reader : Reader α} (refused : reader [] = none) :
    upTo reader [] = none := by
  unfold upTo upToFrom
  simp [refused]

/-- The three parts of a cut are the text. -/
theorem append_of_upTo {reader : Reader α} (faithful : Faithful reader) {text : List α}
    {split : Split α} (found : upTo reader text = some split) :
    split.before ++ split.taken ++ split.rest = text := by
  induction text generalizing split with
  | nil =>
      cases read : reader [] with
      | none => simp [upTo_nil_of_none read] at found
      | some pair =>
          obtain ⟨taken, rest⟩ := pair
          simp only [upTo_of_some read, Option.some.injEq] at found
          simpa [← found] using faithful read
  | cons a text ih =>
      cases read : reader (a :: text) with
      | none =>
          rw [upTo_cons_of_none read] at found
          cases inner : upTo reader text with
          | none => simp [inner] at found
          | some split' =>
              simp only [inner, Option.map_some, Option.some.injEq] at found
              simpa [← found] using ih inner
      | some pair =>
          obtain ⟨taken, rest⟩ := pair
          simp only [upTo_of_some read, Option.some.injEq] at found
          simpa [← found] using faithful read

/-- What is taken at a cut is what the reader takes there. -/
theorem taken_of_upTo {reader : Reader α} (faithful : Faithful reader) {text : List α}
    {split : Split α} (found : upTo reader text = some split) :
    reader (split.taken ++ split.rest) = some (split.taken, split.rest) := by
  induction text generalizing split with
  | nil =>
      cases read : reader [] with
      | none => simp [upTo_nil_of_none read] at found
      | some pair =>
          rw [upTo_of_some read, Option.some.injEq] at found
          rw [← found, faithful read, read]
  | cons a text ih =>
      cases read : reader (a :: text) with
      | none =>
          rw [upTo_cons_of_none read, Option.map_eq_some_iff] at found
          rcases found with ⟨split', inner, rfl⟩
          have behind := ih inner
          exact behind
      | some pair =>
          rw [upTo_of_some read, Option.some.injEq] at found
          rw [← found, faithful read, read]

/-- What is left after a reader is no longer than the text. -/
theorem Faithful.length_le {reader : Reader α} (faithful : Faithful reader)
    {text taken rest : List α} (read : reader text = some (taken, rest)) :
    rest.length ≤ text.length := by
  simp [← faithful read]

/-- What is left after a cut is no longer than the text. -/
theorem length_rest_of_upTo {reader : Reader α} (faithful : Faithful reader)
    {text : List α} {split : Split α} (found : upTo reader text = some split) :
    split.rest.length ≤ text.length := by
  rw [← append_of_upTo faithful found]
  simp only [List.length_append]
  omega

section Words

variable [Alphabet α]

/-- A phrase, character by character. -/
def phrase (letters : List Char) : Reader α :=
  word Alphabet.is letters

/-- A phrase in any mixture of upper and lower case. -/
def phraseAnyCase (letters : List Char) : Reader α :=
  word Alphabet.isAnyCase letters

/-- A name in any mixture of upper and lower case, where a word ends behind
it: `p` is not read in `param`. -/
def name (letters : List Char) : Reader α := fun text =>
  match phraseAnyCase letters text with
  | some (taken, rest) => if Alphabet.endsWord rest then some (taken, rest) else none
  | none => none

/-- What follows a phrase, for a text that begins with it. -/
def after? (letters : List Char) (text : List α) : Option (List α) :=
  (phrase letters text).map Prod.snd

/-- Whether a phrase occurs somewhere in a text. -/
def occurs (letters : List Char) (text : List α) : Bool :=
  (upTo (phrase letters) text).isSome

theorem phrase_faithful (letters : List Char) : Faithful (phrase letters : Reader α) :=
  word_faithful _ letters

theorem phraseAnyCase_faithful (letters : List Char) :
    Faithful (phraseAnyCase letters : Reader α) :=
  word_faithful _ letters

/-- A phrase is read where its letters stand. -/
theorem phrase_eq_some_iff {letters : List Char} {text taken rest : List α} :
    phrase letters text = some (taken, rest) ↔
      taken = Alphabet.spell letters ∧ text = Alphabet.spell letters ++ rest := by
  induction letters generalizing text taken with
  | nil =>
      simp only [phrase, word_nil, Option.some.injEq, Prod.mk.injEq, Alphabet.spell_nil,
        List.nil_append]
      constructor <;> (rintro ⟨rfl, rfl⟩; exact ⟨rfl, rfl⟩)
  | cons c letters ih =>
      cases text with
      | nil => simp [phrase, word]
      | cons a text =>
          change (if Alphabet.is c a then
            match phrase letters text with
            | some (taken, rest) => some (a :: taken, rest)
            | none => none
            else none) = some (taken, rest) ↔ _
          simp only [Alphabet.spell_cons, List.cons_append, List.cons.injEq]
          constructor
          · intro read
            split at read
            next same =>
              split at read
              next taken' rest' found =>
                simp only [Option.some.injEq, Prod.mk.injEq] at read
                obtain ⟨rfl, rfl⟩ := read
                obtain ⟨rfl, rfl⟩ := ih.mp found
                have first := Alphabet.is_iff.mp same
                exact ⟨congrArg (· :: _) first, first, rfl⟩
              next => simp at read
            next => simp at read
          · rintro ⟨rfl, rfl, rfl⟩
            rw [if_pos (Alphabet.is_iff.mpr rfl), ih.mpr ⟨rfl, rfl⟩]

/-- A phrase in any case is read where its letters stand in some case. -/
theorem phraseAnyCase_eq_some_iff {letters : List Char} {text taken rest : List α} :
    phraseAnyCase letters text = some (taken, rest) ↔
      ∃ written, written.map Char.toLower = letters.map Char.toLower ∧
        taken = Alphabet.spell written ∧ text = Alphabet.spell written ++ rest := by
  induction letters generalizing text taken with
  | nil =>
      simp only [phraseAnyCase, word_nil, Option.some.injEq, Prod.mk.injEq, List.map_nil,
        List.map_eq_nil_iff, exists_eq_left, Alphabet.spell_nil, List.nil_append]
      constructor <;> (rintro ⟨rfl, rfl⟩; exact ⟨rfl, rfl⟩)
  | cons c letters ih =>
      cases text with
      | nil =>
          simp only [phraseAnyCase, word, reduceCtorEq, false_iff]
          rintro ⟨written, same, _, empty⟩
          cases written with
          | nil => simp at same
          | cons d written => simp at empty
      | cons a text =>
          change (if Alphabet.isAnyCase c a then
            match phraseAnyCase letters text with
            | some (taken, rest) => some (a :: taken, rest)
            | none => none
            else none) = some (taken, rest) ↔ _
          constructor
          · intro read
            split at read
            next same =>
              split at read
              next taken' rest' found =>
                simp only [Option.some.injEq, Prod.mk.injEq] at read
                obtain ⟨rfl, rfl⟩ := read
                obtain ⟨written, equal, rfl, rfl⟩ := ih.mp found
                obtain ⟨d, rfl, lower⟩ := Alphabet.satisfies_iff.mp same
                exact ⟨d :: written, by simp [equal, eq_of_beq lower], rfl, rfl⟩
              next => simp at read
            next => simp at read
          · rintro ⟨written, same, rfl, shape⟩
            cases written with
            | nil => simp at same
            | cons d written =>
                simp only [List.map_cons, List.cons.injEq, Alphabet.spell_cons,
                  List.cons_append] at same shape
                obtain ⟨lower, equal⟩ := same
                obtain ⟨rfl, rfl⟩ := shape
                have first : Alphabet.isAnyCase c (Alphabet.ofChar d : α) = true :=
                  Alphabet.satisfies_iff.mpr ⟨d, rfl, beq_iff_eq.mpr lower⟩
                rw [if_pos first, ih.mpr ⟨written, equal, rfl, rfl⟩]
                rfl

/-- What follows a phrase is what is written behind it. -/
theorem after?_eq_some_iff {letters : List Char} {text rest : List α} :
    after? letters text = some rest ↔ text = Alphabet.spell letters ++ rest := by
  simp [after?, phrase_eq_some_iff]

/-- Nothing follows a phrase where another symbol stands. -/
theorem after?_cons_of_ne (c : Char) {letters : List Char} {a : α} (other : a ≠ Alphabet.ofChar c)
    (text : List α) : after? (c :: letters) (a :: text) = none := by
  cases found : after? (c :: letters) (a :: text) with
  | none => rfl
  | some rest => exact absurd (List.cons.inj (after?_eq_some_iff.mp found)).1 other

/-- A name is the phrase it is read by, with a word end behind it. -/
theorem name_eq_some_iff {letters : List Char} {text taken rest : List α} :
    name letters text = some (taken, rest) ↔
      phraseAnyCase letters text = some (taken, rest) ∧ Alphabet.endsWord rest = true := by
  cases read : phraseAnyCase letters text with
  | none => simp [name, read]
  | some pair =>
      simp only [name, read]
      split
      · grind
      · grind

theorem name_faithful (letters : List Char) : Faithful (name letters : Reader α) :=
  fun _ _ _ read => phraseAnyCase_faithful letters (name_eq_some_iff.mp read).1

/-- What is left behind a name is shorter than the text by the name. -/
theorem length_of_name {letters : List Char} {text taken rest : List α}
    (read : name letters text = some (taken, rest)) :
    letters.length + rest.length = text.length := by
  rw [← name_faithful letters read, List.length_append,
    length_of_word (name_eq_some_iff.mp read).1]

/-- What follows a phrase is shorter than the text by the phrase. -/
theorem length_of_after? {letters : List Char} {text rest : List α}
    (found : after? letters text = some rest) :
    letters.length + rest.length = text.length := by
  rcases Option.map_eq_some_iff.mp found with ⟨pair, read, rfl⟩
  rw [← phrase_faithful letters read, List.length_append, length_of_word read]

/-- What is left after a cut at a phrase is shorter than the text. -/
theorem length_rest_of_upTo_phrase {letters : List Char} (nonempty : letters ≠ [])
    {text : List α} {split : Split α} (found : upTo (phrase letters) text = some split) :
    split.rest.length < text.length := by
  have taken := length_of_word (taken_of_upTo (phrase_faithful letters) found)
  have positive := List.length_pos_iff.mpr nonempty
  rw [← append_of_upTo (phrase_faithful letters) found]
  simp only [List.length_append]
  omega

end Words

end Reader

end HtmlMinifier
