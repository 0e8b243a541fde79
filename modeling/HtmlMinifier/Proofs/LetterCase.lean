import HtmlMinifier.Proofs.Seam

/-!
# Stages do not see the case of letters

A recasing maps the symbols of one alphabet to those of another.  It may write a capital
letter small and may exchange characters outside ASCII for others there; all other
characters stay, and opaque symbols stay opaque.  Every test that a stage puts to a symbol
has the same outcome before and after, with one exception: `<![CDATA[` is looked for in
capitals.

There is one law for each reader and for each function built on it, as for encodings.  A
recasing is simpler than an encoding in that it maps symbol by symbol, but no encoding in
that it changes characters.
-/

namespace HtmlMinifier

open Alphabet

namespace Alphabet

theorem toLower_toLower (c : Char) : c.toLower.toLower = c.toLower := by
  rcases toLower_cases c with same | ⟨n, -, small⟩
  · rw [same, same]
  · have letters : ∀ n : Fin 26, (Char.ofNat (97 + n)).toLower = Char.ofNat (97 + n) := by decide
    rw [small, letters]

/-- A character is one of ASCII when its lower case is. -/
theorem toNat_toLower_lt {c : Char} : c.toLower.toNat < 128 ↔ c.toNat < 128 := by
  rcases toLower_cases c with same | ⟨n, rfl, small⟩
  · rw [same]
  · have letters : ∀ n : Fin 26, (Char.ofNat (97 + n)).toNat < 128 ∧
        (Char.ofNat (65 + n)).toNat < 128 := by decide
    rw [small]
    exact iff_of_true (letters n).1 (letters n).2

theorem toNat_lt_of_isAlphanum {c : Char} (alphanum : c.isAlphanum = true) : c.toNat < 128 := by
  rcases Bool.or_eq_true_iff.mp alphanum with letter | digit
  · rcases Bool.or_eq_true_iff.mp letter with capital | small
    · exact Nat.lt_of_le_of_lt (of_decide_eq_true capital).2 (by decide)
    · exact Nat.lt_of_le_of_lt (of_decide_eq_true (Bool.and_eq_true_iff.mp small).2) (by decide)
  · exact Nat.lt_of_le_of_lt (of_decide_eq_true (Bool.and_eq_true_iff.mp digit).2) (by decide)

/-- Whether a character is one of ASCII and no letter. -/
def isPlain (c : Char) : Bool :=
  c.toNat < 128 && !c.isAlpha

end Alphabet

/-- A map of characters that may write capital letters small and that may exchange
characters outside ASCII for each other. -/
structure Folding where
  /-- What becomes of a character. -/
  fold : Char → Char
  toLower_fold : ∀ c, c.toNat < 128 → (fold c).toLower = c.toLower
  foreign_fold : ∀ c, 128 ≤ c.toNat → 128 ≤ (fold c).toNat
  fold_of_isLower : ∀ c, c.isLower = true → fold c = c

namespace Folding

variable (folding : Folding)

/-- A property of ASCII characters that does not see the case does not see the folding
either. -/
theorem property_fold (property : Char → Bool)
    (caseless : ∀ c : Char, property c.toLower = property c)
    (ascii : ∀ c, property c = true → c.toNat < 128) (c : Char) :
    property (folding.fold c) = property c := by
  by_cases within : c.toNat < 128
  · rw [← caseless, folding.toLower_fold c within, caseless]
  · have without : ∀ d : Char, 128 ≤ d.toNat → property d = false := by
      intro d outside
      rw [Bool.eq_false_iff]
      exact fun holds => absurd (ascii d holds) (Nat.not_lt.mpr outside)
    rw [without c (Nat.not_lt.mp within),
      without _ (folding.foreign_fold c (Nat.not_lt.mp within))]

/-- Nothing but a plain character itself becomes that character. -/
theorem fold_beq {mark : Char} (plain : isPlain mark = true) (c : Char) :
    (folding.fold c == mark) = (c == mark) := by
  obtain ⟨ascii, unlettered⟩ : mark.toNat < 128 ∧ mark.isAlpha = false := by
    simpa [isPlain] using plain
  apply folding.property_fold (· == mark)
  · intro c
    have stays : mark.toLower = mark := by
      rcases toLower_cases mark with same | ⟨n, rfl, -⟩
      · exact same
      · have letters : ∀ n : Fin 26, (Char.ofNat (65 + n)).isAlpha = true := by decide
        simp [letters n] at unlettered
    rw [Bool.eq_iff_iff, beq_iff_eq, beq_iff_eq]
    exact ⟨eq_of_toLower_eq unlettered, fun same => same ▸ stays⟩
  · exact fun c same => eq_of_beq same ▸ ascii

/-- A letter of ASCII is found in the same places when the case is ignored. -/
theorem toLower_fold_beq {letter : Char} (ascii : letter.toNat < 128) (c : Char) :
    ((folding.fold c).toLower == letter.toLower) = (c.toLower == letter.toLower) := by
  apply folding.property_fold fun c => c.toLower == letter.toLower
  · intro c
    rw [toLower_toLower]
  · intro c same
    rw [← toNat_toLower_lt, eq_of_beq same, toNat_toLower_lt]
    exact ascii

/-- What becomes a character of ASCII has been one, with the same lower case. -/
theorem toLower_fold_of_lt {c : Char} (ascii : (folding.fold c).toNat < 128) :
    (folding.fold c).toLower = c.toLower := by
  by_cases within : c.toNat < 128
  · exact folding.toLower_fold c within
  · exact absurd ascii (Nat.not_lt.mpr (folding.foreign_fold c (Nat.not_lt.mp within)))

/-- Writing all letters small. -/
def lower : Folding where
  fold := Char.toLower
  toLower_fold c _ := toLower_toLower c
  foreign_fold c outside := Nat.not_lt.mp (toNat_toLower_lt.not.mpr (Nat.not_lt.mpr outside))
  fold_of_isLower c small := by
    rcases toLower_cases c with same | ⟨n, rfl, -⟩
    · exact same
    · have letters : ∀ n : Fin 26, (Char.ofNat (65 + n)).isLower = false := by decide
      simp [letters n] at small

end Folding

/-- A map of symbols that folds characters and keeps opaque symbols opaque. -/
structure Recasing (α β : Type) [Alphabet α] [Alphabet β] extends Folding where
  /-- What becomes of a symbol. -/
  write : α → β
  char?_write : ∀ a, char? (write a) = (char? a).map fold

namespace Recasing

variable {α β : Type} [Alphabet α] [Alphabet β] (recasing : Recasing α β)

theorem write_ofChar (c : Char) : recasing.write (ofChar c) = ofChar (recasing.fold c) := by
  have found := recasing.char?_write (ofChar c)
  rw [char?_ofChar, Option.map_some] at found
  exact (ofChar_of_char?_eq_some found).symm

/-- Characters that stay are written as themselves. -/
theorem map_spell {letters : List Char} (stay : ∀ c ∈ letters, recasing.fold c = c) :
    (spell letters).map recasing.write = spell letters := by
  rw [spell, List.map_map]
  apply List.map_congr_left
  intro c member
  rw [Function.comp_apply, write_ofChar, stay c member]

/-- What is written as characters has been characters. -/
theorem exists_of_map_eq_spell {text : List α} {written : List Char}
    (same : text.map recasing.write = spell written) :
    ∃ letters, text = spell letters ∧ letters.map recasing.fold = written := by
  induction text generalizing written with
  | nil => exact ⟨[], rfl, (List.map_eq_nil_iff.mp same.symm).symm⟩
  | cons a text ih =>
      obtain ⟨c, written, rfl⟩ := List.exists_cons_of_ne_nil (show written ≠ [] by
        rintro rfl
        simp at same)
      obtain ⟨first, others⟩ := List.cons.inj same
      obtain ⟨letters, rfl, rfl⟩ := ih others
      have found := recasing.char?_write a
      rw [first, char?_ofChar, eq_comm, Option.map_eq_some_iff] at found
      obtain ⟨d, here, rfl⟩ := found
      exact ⟨d :: letters, by rw [spell_cons, ofChar_of_char?_eq_some here], rfl⟩

theorem fold_of_isPlain {c : Char} (plain : isPlain c = true) : recasing.fold c = c :=
  eq_of_beq ((recasing.fold_beq plain c).trans (beq_self_eq_true c))

/-! ## Tests of single symbols -/

theorem satisfies_write {property : Char → Bool}
    (blind : ∀ c, property (recasing.fold c) = property c) (a : α) :
    satisfies property (recasing.write a) = satisfies property a := by
  unfold satisfies
  rw [recasing.char?_write]
  cases char? a with
  | none => rfl
  | some c => exact blind c

@[simp]
theorem is_write {c : Char} (plain : isPlain c = true) (a : α) :
    is c (recasing.write a) = is c a :=
  recasing.satisfies_write (recasing.fold_beq plain) a

theorem isAnyCase_write {c : Char} (ascii : c.toNat < 128) (a : α) :
    isAnyCase c (recasing.write a) = isAnyCase c a :=
  recasing.satisfies_write (recasing.toLower_fold_beq ascii) a

@[simp]
theorem isBlank_write (a : α) : isBlank (recasing.write a) = isBlank a := by
  apply recasing.satisfies_write
  apply recasing.property_fold (isBlank : Char → Bool)
  · exact property_toLower _ (by decide)
  · exact fun c => of_isBlank (·.toNat < 128) (by decide)

@[simp]
theorem isMargin_write (a : α) : isMargin (recasing.write a) = isMargin a := by
  apply recasing.satisfies_write
  apply recasing.property_fold (isMargin : Char → Bool)
  · exact property_toLower _ (by decide)
  · simp +contextual [isMargin, satisfies, or_imp]

@[simp]
theorem isWord_write (a : α) : isWord (recasing.write a) = isWord a := by
  apply recasing.satisfies_write
  apply recasing.property_fold (isWord : Char → Bool)
  · exact property_toLower _ (by decide)
  · intro c inWord
    rcases Bool.or_eq_true_iff.mp inWord with alphanum | score
    · exact toNat_lt_of_isAlphanum alphanum
    · exact eq_of_beq score ▸ by decide

@[simp]
theorem isNameSymbol_write (a : α) : isNameSymbol (recasing.write a) = isNameSymbol a := by
  apply recasing.satisfies_write
  apply recasing.property_fold (isNameSymbol : Char → Bool)
  · exact property_toLower _ (by decide)
  · intro c inName
    rcases Bool.or_eq_true_iff.mp inName with letter | hyphen
    · exact toNat_lt_of_isAlphanum (Bool.or_eq_true_iff.mpr (Or.inl letter))
    · exact eq_of_beq hyphen ▸ by decide

/-- Tests with the same outcome drop the same front. -/
theorem dropWhile_map {test : α → Bool} {test' : β → Bool}
    (blind : ∀ a, test' (recasing.write a) = test a) (text : List α) :
    (text.map recasing.write).dropWhile test' = (text.dropWhile test).map recasing.write := by
  rw [List.dropWhile_map, show test' ∘ recasing.write = test from funext blind]

theorem takeWhile_map {test : α → Bool} {test' : β → Bool}
    (blind : ∀ a, test' (recasing.write a) = test a) (text : List α) :
    (text.map recasing.write).takeWhile test' = (text.takeWhile test).map recasing.write := by
  rw [List.takeWhile_map, show test' ∘ recasing.write = test from funext blind]

/-! ## Readers -/

/-- A pair of texts, recased. -/
def both : List α × List α → List β × List β :=
  Prod.map (List.map recasing.write) (List.map recasing.write)

/-- A cut of a text, recased. -/
def split (split : Reader.Split α) : Reader.Split β :=
  ⟨split.before.map recasing.write, split.taken.map recasing.write, split.rest.map recasing.write⟩

/-- Reading a recased text takes and leaves what is taken and left of the text, recased. -/
def Respects (reader : Reader α) (reader' : Reader β) : Prop :=
  ∀ text, reader' (text.map recasing.write) = (reader text).map recasing.both

variable {recasing}

/-- The first place where a reader accepts is the same in the recased text. -/
theorem Respects.upTo_map {reader : Reader α} {reader' : Reader β}
    (respects : recasing.Respects reader reader') (text : List α) :
    Reader.upTo reader' (text.map recasing.write) =
      (Reader.upTo reader text).map recasing.split := by
  induction text with
  | nil =>
      have front := respects []
      cases read : reader [] with
      | none =>
          rw [read, Option.map_none, List.map_nil] at front
          rw [List.map_nil, Reader.upTo_nil_of_none read, Reader.upTo_nil_of_none front]
          rfl
      | some pair =>
          rw [read, Option.map_some] at front
          rw [Reader.upTo_of_some read, Reader.upTo_of_some front]
          rfl
  | cons a text ih =>
      have front := respects (a :: text)
      cases read : reader (a :: text) with
      | none =>
          rw [read, Option.map_none, List.map_cons] at front
          rw [List.map_cons, Reader.upTo_cons_of_none read, Reader.upTo_cons_of_none front, ih,
            Option.map_map, Option.map_map]
          rfl
      | some pair =>
          rw [read, Option.map_some] at front
          rw [Reader.upTo_of_some read, Reader.upTo_of_some front]
          rfl

/-- A reader that takes a last part of the text whole. -/
theorem respects_ite {isEnd : List α → Bool} {isEnd' : List β → Bool}
    (same : ∀ text, isEnd' (text.map recasing.write) = isEnd text) :
    recasing.Respects (fun rest => if isEnd rest then some (rest, []) else none)
      (fun rest => if isEnd' rest then some (rest, []) else none) := by
  intro text
  simp only [same]
  cases isEnd text <;> simp [both]

theorem respects_word {same : Char → α → Bool} {same' : Char → β → Bool} {letters : List Char}
    (blind : ∀ c ∈ letters, ∀ a, same' c (recasing.write a) = same c a) :
    recasing.Respects (Reader.word same letters) (Reader.word same' letters) := by
  induction letters with
  | nil =>
      intro text
      simp [both]
  | cons c letters ih =>
      obtain ⟨first, others⟩ := List.forall_mem_cons.mp blind
      intro text
      cases text with
      | nil => rfl
      | cons a text =>
          rw [List.map_cons, Reader.word, Reader.word, first, ih others]
          cases same c a with
          | false => rfl
          | true => cases Reader.word same letters text <;> rfl

section Words

variable {letters : List Char}

theorem respects_phrase (plain : ∀ c ∈ letters, isPlain c = true) :
    recasing.Respects (Reader.phrase letters) (Reader.phrase letters) :=
  respects_word fun c member => recasing.is_write (plain c member)

theorem respects_phraseAnyCase (ascii : ∀ c ∈ letters, c.toNat < 128) :
    recasing.Respects (Reader.phraseAnyCase letters) (Reader.phraseAnyCase letters) :=
  respects_word fun c member => recasing.isAnyCase_write (ascii c member)

theorem endsWord_map (text : List α) : endsWord (text.map recasing.write) = endsWord text := by
  cases text with
  | nil => rfl
  | cons a text => rw [List.map_cons, endsWord, endsWord, isWord_write]

theorem respects_name (ascii : ∀ c ∈ letters, c.toNat < 128) :
    recasing.Respects (Reader.name letters) (Reader.name letters) := by
  intro text
  rw [Reader.name, Reader.name, respects_phraseAnyCase ascii text]
  cases Reader.phraseAnyCase letters text with
  | none => rfl
  | some pair =>
      simp only [Option.map_some, both, Prod.map, endsWord_map]
      split <;> rfl

theorem after?_map (plain : ∀ c ∈ letters, isPlain c = true) (text : List α) :
    Reader.after? letters (text.map recasing.write) =
      (Reader.after? letters text).map (List.map recasing.write) := by
  rw [Reader.after?, Reader.after?, respects_phrase plain text]
  cases Reader.phrase letters text <;> rfl

theorem occurs_map (plain : ∀ c ∈ letters, isPlain c = true) (text : List α) :
    Reader.occurs letters (text.map recasing.write) = Reader.occurs letters text := by
  rw [Reader.occurs, Reader.occurs, (respects_phrase plain).upTo_map, Option.isSome_map]

end Words

/-! ## Patterns -/

/-- A piece of a text, recased, where `describe` says what becomes of a match. -/
def piece {γ δ : Type} (recasing : Recasing α β) (describe : γ → δ) : Piece α γ → Piece β δ
  | .kept a => .kept (recasing.write a)
  | .found match' => .found (describe match')

section Patterns

variable {γ δ : Type} (describe : γ → δ) {pattern : Pattern α γ} {pattern' : Pattern β δ}

/-- A pattern that matches in a recased text where it matches in the text cuts both at the
same places.  That it does may depend on a property that the ends of a text inherit. -/
theorem cut_map (within : List α → Prop) (tail : ∀ a text, within (a :: text) → within text)
    (behind : ∀ text found rest, pattern.read text = some (found, rest) → within text →
      within rest)
    (reads : ∀ text, within text → pattern'.read (text.map recasing.write) =
      (pattern.read text).map (Prod.map describe (List.map recasing.write)))
    (text : List α) (inside : within text) :
    pattern'.cut (text.map recasing.write) = (pattern.cut text).map (recasing.piece describe) := by
  induction text using pattern.induction with
  | nil => simp
  | found text match' rest read ih =>
      have read' := reads text inside
      rw [read, Option.map_some] at read'
      rw [Pattern.cut_of_some read, Pattern.cut_of_some read', ih (behind _ _ _ read inside)]
      rfl
  | kept a text refused ih =>
      have refused' := reads (a :: text) inside
      rw [refused, Option.map_none, List.map_cons] at refused'
      rw [List.map_cons, Pattern.cut_cons_of_none refused, Pattern.cut_cons_of_none refused',
        ih (tail a text inside)]
      rfl

theorem replace_map {write : γ → List α} {write' : δ → List β}
    (reads : ∀ text, pattern'.read (text.map recasing.write) =
      (pattern.read text).map (Prod.map describe (List.map recasing.write)))
    (writes : ∀ match', write' (describe match') = (write match').map recasing.write)
    (text : List α) :
    pattern'.replace write' (text.map recasing.write) =
      (pattern.replace write text).map recasing.write := by
  have pieces := cut_map describe (fun _ => True) (fun _ _ => id) (fun _ _ _ _ => id)
    (fun text _ => reads text) text trivial
  rw [Pattern.replace, pieces, Pattern.replace, List.flatMap_map, List.map_flatMap]
  congr 1
  funext piece
  cases piece with
  | kept a => rfl
  | found match' => exact writes match'

end Patterns

end Recasing

end HtmlMinifier
