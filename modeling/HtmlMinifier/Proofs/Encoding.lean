import HtmlMinifier.Stage
import Mathlib.Data.List.DropRight
import Mathlib.Data.List.Induction

/-!
# Encodings of alphabets

An encoding writes each symbol of one alphabet as a word over another.  It keeps
characters, and it writes an opaque symbol as a word in which no stage of the
minifier finds anything to hold on to: no symbol of the word is a mark, and its
first symbol is no letter either, so a name that ends right before the word has
ended there.

This file shows that readers and patterns cannot tell a text from its encoding.
A reader `respects` an encoding when reading the encoded text takes and leaves
the encodings of what it takes and leaves of the text itself.  Nothing is said
about what the opaque symbols stand for; in particular no word has to be told
from the text around it.
-/

namespace HtmlMinifier

namespace Alphabet

/-- Whether a character is one at which some stage can begin or stop. -/
def isMark (c : Char) : Bool :=
  c ∈ ['<', '>', '/', '!', '-', '[', ']', ' ', '\t', '\n', '\x0b', '\x0c', '\r', '\x00']

/-- Whether some stage tells a character from others: the marks and all that can
stand in a word or in a name. -/
def isTelling (c : Char) : Bool :=
  isMark c || c.isAlphanum || c == '_'

/-- A character that its lower case differs from is one of 26 letters. -/
theorem toLower_cases (c : Char) :
    c.toLower = c ∨ ∃ n : Fin 26, c = Char.ofNat (65 + n) ∧ c.toLower = Char.ofNat (97 + n) := by
  by_cases upper : c.val ≥ 'A'.val ∧ c.val ≤ 'Z'.val
  · right
    have least : 65 ≤ c.toNat := upper.1
    have most : c.toNat ≤ 90 := upper.2
    obtain ⟨n, place⟩ : ∃ n : Fin 26, c.toNat = 65 + n := ⟨⟨c.toNat - 65, by omega⟩, by grind⟩
    have lower : ∀ n : Fin 26, (Char.ofNat (65 + n)).toLower = Char.ofNat (97 + n) := by decide
    have letter : c = Char.ofNat (65 + n) := by rw [← place, Char.ofNat_toNat]
    exact ⟨n, letter, letter ▸ lower n⟩
  · left
    exact dif_neg upper

/-- A property that the two cases of each letter share does not see the case. -/
theorem property_toLower (property : Char → Bool)
    (letters : ∀ n : Fin 26, property (Char.ofNat (97 + n)) = property (Char.ofNat (65 + n)))
    (c : Char) : property c.toLower = property c := by
  rcases toLower_cases c with same | ⟨n, upper, lower⟩
  · rw [same]
  · rw [lower, upper, letters]

/-- Only a letter has another character as its lower case. -/
theorem eq_of_toLower_eq {c mark : Char} (unlettered : mark.isAlpha = false)
    (lower : c.toLower = mark) : c = mark := by
  rcases toLower_cases c with same | ⟨n, _, letter⟩
  · rw [← same, lower]
  · have letters : ∀ n : Fin 26, (Char.ofNat (97 + n)).isAlpha = true := by decide
    rw [← lower, letter, letters n] at unlettered
    contradiction

theorem isMark_toLower (c : Char) : isMark c.toLower = isMark c :=
  property_toLower isMark (by decide) c

theorem isTelling_toLower (c : Char) : isTelling c.toLower = isTelling c :=
  property_toLower isTelling (by decide) c

variable {α : Type} [Alphabet α]

/-- No stage begins or stops at an inert symbol. -/
def Inert (a : α) : Prop :=
  satisfies isMark a = false

/-- A stage that reaches a foreign symbol from the left stops before it. -/
def Foreign (a : α) : Prop :=
  satisfies isTelling a = false

/-- A property that only characters of another property have. -/
theorem satisfies_eq_false {property wider : Char → Bool}
    (narrow : ∀ c, property c = true → wider c = true) {a : α}
    (without : satisfies wider a = false) : satisfies property a = false := by
  rw [Bool.eq_false_iff] at without ⊢
  intro holds
  rcases satisfies_iff.mp holds with ⟨c, rfl, within⟩
  exact without (satisfies_iff.mpr ⟨c, rfl, narrow c within⟩)

/-- Letters that stand in a spelled text stand in the text. -/
theorem isInfix_of_isInfix_spell {letters text : List Char}
    (inside : (spell letters : List α).IsInfix (spell text)) : letters.IsInfix text := by
  obtain ⟨letters', within, same⟩ := List.infix_map_iff.mp inside
  rwa [List.map_injective_iff.mpr (fun _ _ => ofChar_inj.mp) same]

/-- No property holds of an opaque symbol. -/
theorem satisfies_of_char?_eq_none {a : α} (sealed : char? a = none) (property : Char → Bool) :
    satisfies property a = false := by
  simp [satisfies, sealed]

/-- A foreign symbol is inert. -/
theorem Foreign.inert {a : α} (foreign : Foreign a) : Inert a :=
  satisfies_eq_false (by simp +contextual [isTelling]) foreign

end Alphabet

open Alphabet

/-- Words over `β` for the symbols of `α`. -/
structure Encoding (α β : Type) [Alphabet α] [Alphabet β] where
  /-- The word of a symbol. -/
  write : α → List β
  /-- A character is written as itself. -/
  write_ofChar : ∀ c, write (ofChar c) = [ofChar c]
  /-- The word of an opaque symbol is not empty, and a foreign symbol begins it. -/
  exists_foreign : ∀ ⦃a⦄, char? a = none → ∃ b word, write a = b :: word ∧ Foreign b
  /-- The word of an opaque symbol holds no marks. -/
  inert_of_mem : ∀ ⦃a⦄, char? a = none → ∀ b ∈ write a, Inert b

namespace Encoding

variable {α β : Type} [Alphabet α] [Alphabet β] (encoding : Encoding α β)

/-- The encoding of a text. -/
def encode (text : List α) : List β :=
  text.flatMap encoding.write

@[simp]
theorem encode_nil : encoding.encode [] = [] :=
  rfl

theorem encode_cons (a : α) (text : List α) :
    encoding.encode (a :: text) = encoding.write a ++ encoding.encode text :=
  rfl

@[simp]
theorem encode_append (first second : List α) :
    encoding.encode (first ++ second) = encoding.encode first ++ encoding.encode second := by
  simp [encode]

@[simp]
theorem encode_ofChar_cons (c : Char) (text : List α) :
    encoding.encode (ofChar c :: text) = ofChar c :: encoding.encode text := by
  simp [encode_cons, encoding.write_ofChar]

@[simp]
theorem encode_spell (letters : List Char) :
    encoding.encode (spell letters) = spell letters := by
  induction letters with
  | nil => rfl
  | cons c letters ih =>
      change encoding.encode (ofChar c :: spell letters) = ofChar c :: spell letters
      rw [encode_ofChar_cons, ih]

@[simp]
theorem encode_singleton (a : α) : encoding.encode [a] = encoding.write a := by
  simp [encode]

/-- Characters as symbols of any alphabet. -/
def spelled : Encoding Char β where
  write c := [ofChar c]
  write_ofChar _ := rfl
  exists_foreign _ opaque' := absurd opaque' (by simp)
  inert_of_mem _ opaque' := absurd opaque' (by simp)

theorem encode_spelled (text : List Char) :
    (spelled : Encoding Char β).encode text = spell text := by
  rw [encode, spell, List.map_eq_flatMap]
  rfl

/-- A symbol is a character or opaque. -/
theorem char_or_sealed (a : α) : (∃ c, a = ofChar c) ∨ char? a = none := by
  cases found : char? a with
  | none => exact Or.inr rfl
  | some c => exact Or.inl ⟨c, (ofChar_of_char?_eq_some found).symm⟩

theorem write_ne_nil (a : α) : encoding.write a ≠ [] := by
  rcases char_or_sealed a with ⟨c, rfl⟩ | sealed
  · simp [encoding.write_ofChar]
  · obtain ⟨b, word, written, _⟩ := encoding.exists_foreign sealed
    simp [written]

/-- The word of a symbol has a last symbol. -/
theorem exists_append_singleton (a : α) : ∃ word b, encoding.write a = word ++ [b] :=
  (List.eq_nil_or_concat' _).resolve_left (encoding.write_ne_nil a)

@[simp]
theorem encode_eq_nil_iff {text : List α} : encoding.encode text = [] ↔ text = [] := by
  cases text with
  | nil => simp
  | cons a text => simp [encode_cons, encoding.write_ne_nil]

@[simp]
theorem isEmpty_encode (text : List α) : (encoding.encode text).isEmpty = text.isEmpty := by
  cases text with
  | nil => rfl
  | cons a text => simp [encode_cons, encoding.write_ne_nil]

/-! ## Tests of single symbols -/

/-- A test of symbols that an encoding keeps: it holds throughout the word of a
symbol or fails at the front of it. -/
def Agrees (test : α → Bool) (test' : β → Bool) : Prop :=
  ∀ a, (test a = true ∧ ∀ b ∈ encoding.write a, test' b = true) ∨
    (test a = false ∧ ∃ b word, encoding.write a = b :: word ∧ test' b = false)

/-- A test that holds or fails throughout the word of a symbol. -/
def AgreesThroughout (test : α → Bool) (test' : β → Bool) : Prop :=
  ∀ a, ∀ b ∈ encoding.write a, test' b = test a

/-- A property of marks agrees throughout: nothing in the word of an opaque
symbol has it. -/
theorem agreesThroughout_satisfies {property : Char → Bool}
    (marks : ∀ c, property c = true → isMark c = true) :
    encoding.AgreesThroughout (satisfies property) (satisfies property) := by
  intro a b member
  rcases char_or_sealed a with ⟨c, rfl⟩ | sealed
  · rw [encoding.write_ofChar, List.mem_singleton] at member
    simp [member]
  · rw [satisfies_of_char?_eq_none sealed,
      satisfies_eq_false marks (encoding.inert_of_mem sealed b member)]

/-- A property of telling characters agrees. -/
theorem agrees_satisfies {property : Char → Bool}
    (telling : ∀ c, property c = true → isTelling c = true) :
    encoding.Agrees (satisfies property) (satisfies property) := by
  intro a
  rcases char_or_sealed a with ⟨c, rfl⟩ | sealed
  · cases holds : property c with
    | true => exact Or.inl (by simp [encoding.write_ofChar, holds])
    | false => exact Or.inr (by simp [encoding.write_ofChar, holds])
  · rcases encoding.exists_foreign sealed with ⟨b, word, written, foreign⟩
    exact Or.inr ⟨satisfies_of_char?_eq_none sealed _, b, word, written,
      satisfies_eq_false telling foreign⟩

variable {encoding} {test : α → Bool} {test' : β → Bool}

theorem AgreesThroughout.not (agrees : encoding.AgreesThroughout test test') :
    encoding.AgreesThroughout (fun a => !test a) (fun b => !test' b) := by
  intro a b member
  exact congrArg (!·) (agrees a b member)

theorem AgreesThroughout.agrees (agrees : encoding.AgreesThroughout test test') :
    encoding.Agrees test test' := by
  intro a
  cases holds : test a with
  | true => exact Or.inl ⟨rfl, fun b member => (agrees a b member).trans holds⟩
  | false =>
      rcases List.exists_cons_of_ne_nil (encoding.write_ne_nil a) with ⟨b, word, written⟩
      exact Or.inr ⟨rfl, b, word, written, (agrees a b (by simp [written])).trans holds⟩

theorem Agrees.takeWhile_encode (agrees : encoding.Agrees test test') (text : List α) :
    (encoding.encode text).takeWhile test' = encoding.encode (text.takeWhile test) := by
  induction text with
  | nil => rfl
  | cons a text ih =>
      rw [encode_cons, List.takeWhile_cons]
      rcases agrees a with ⟨holds, throughout⟩ | ⟨fails, b, word, written, stops⟩
      · rw [List.takeWhile_append_of_pos throughout, ih, if_pos holds, encode_cons]
      · simp [written, fails, stops]

theorem Agrees.dropWhile_encode (agrees : encoding.Agrees test test') (text : List α) :
    (encoding.encode text).dropWhile test' = encoding.encode (text.dropWhile test) := by
  induction text with
  | nil => rfl
  | cons a text ih =>
      rw [encode_cons, List.dropWhile_cons]
      rcases agrees a with ⟨holds, throughout⟩ | ⟨fails, b, word, written, stops⟩
      · rw [List.dropWhile_append_of_pos throughout, ih, if_pos holds]
      · simp [written, fails, stops, encode_cons]

theorem AgreesThroughout.all_encode (agrees : encoding.AgreesThroughout test test')
    (text : List α) : (encoding.encode text).all test' = text.all test := by
  induction text with
  | nil => rfl
  | cons a text ih =>
      rw [encode_cons, List.all_append, ih, List.all_cons]
      congr 1
      rcases List.exists_cons_of_ne_nil (encoding.write_ne_nil a) with ⟨b, word, written⟩
      have throughout := agrees a
      rw [written] at throughout ⊢
      cases holds : test a with
      | true => simpa [holds] using throughout
      | false => simp [throughout b List.mem_cons_self, holds]

/-- The last symbol of a text and of its encoding pass the same tests. -/
theorem AgreesThroughout.any_getLast?_encode (agrees : encoding.AgreesThroughout test test')
    (text : List α) :
    (encoding.encode text).getLast?.any test' = text.getLast?.any test := by
  induction text using List.reverseRecOn with
  | nil => rfl
  | append_singleton text a _ =>
      obtain ⟨word, b, written⟩ := encoding.exists_append_singleton a
      have last := agrees a b (by simp [written])
      simp [encode_cons, written, last]

theorem AgreesThroughout.rdropWhile_encode (agrees : encoding.AgreesThroughout test test')
    (text : List α) :
    (encoding.encode text).rdropWhile test' = encoding.encode (text.rdropWhile test) := by
  induction text using List.reverseRecOn with
  | nil => rfl
  | append_singleton text a ih =>
      have throughout := agrees a
      rw [encode_append, encode_singleton]
      cases holds : test a with
      | true =>
          rw [holds] at throughout
          rw [List.rdropWhile_concat_pos test text a holds, ← ih]
          unfold List.rdropWhile
          rw [List.reverse_append, List.dropWhile_append_of_pos]
          intro b member
          exact throughout b (List.mem_reverse.mp member)
      | false =>
          rcases encoding.exists_append_singleton a with ⟨word, b, written⟩
          have last : ¬ test' b = true := by simp [throughout b (by simp [written]), holds]
          rw [List.rdropWhile_concat_neg test text a (by simp [holds]), written,
            ← List.append_assoc, List.rdropWhile_concat_neg _ _ _ last, encode_append,
            encode_singleton, written, List.append_assoc]

/-! ## Readers -/

/-- A pair of texts, encoded. -/
def both (encoding : Encoding α β) : List α × List α → List β × List β :=
  Prod.map encoding.encode encoding.encode

/-- Reading an encoded text takes and leaves the encodings of what is taken and
left of the text. -/
def Respects (encoding : Encoding α β) (reader : Reader α) (reader' : Reader β) : Prop :=
  ∀ text, reader' (encoding.encode text) = (reader text).map encoding.both

/-- A match never begins at an inert symbol. -/
def Refuses {γ : Type} (reader : List β → Option γ) : Prop :=
  ∀ ⦃b⦄, Inert b → ∀ text, reader (b :: text) = none

/-- A cut of a text, encoded. -/
def split (encoding : Encoding α β) (split : Reader.Split α) : Reader.Split β :=
  ⟨encoding.encode split.before, encoding.encode split.taken, encoding.encode split.rest⟩

/-- Inert symbols are passed by. -/
theorem upTo_append_of_inert {reader : Reader β} (refuses : Refuses reader) {word : List β}
    (inert : ∀ b ∈ word, Inert b) (text : List β) :
    Reader.upTo reader (word ++ text) =
      (Reader.upTo reader text).map fun split => { split with before := word ++ split.before } := by
  induction word with
  | nil => simp
  | cons b word ih =>
      have first := inert b List.mem_cons_self
      have others : ∀ b' ∈ word, Inert b' := fun b' member =>
        inert b' (List.mem_cons_of_mem b member)
      rw [List.cons_append, Reader.upTo_cons_of_none (refuses first _), ih others]
      simp [Function.comp_def]

/-- The first place where a reader accepts is the same in the encoded text. -/
theorem Respects.upTo_encode {reader : Reader α} {reader' : Reader β}
    (respects : encoding.Respects reader reader') (refuses : Refuses reader') (text : List α) :
    Reader.upTo reader' (encoding.encode text) =
      (Reader.upTo reader text).map encoding.split := by
  induction text with
  | nil =>
      have front := respects []
      cases read : reader [] with
      | none =>
          rw [read, encode_nil, Option.map_none] at front
          rw [encode_nil, Reader.upTo_nil_of_none read, Reader.upTo_nil_of_none front]
          rfl
      | some pair =>
          rw [read, Option.map_some] at front
          rw [Reader.upTo_of_some read, Reader.upTo_of_some front]
          rfl
  | cons a text ih =>
      have front := respects (a :: text)
      cases read : reader (a :: text) with
      | some pair =>
          rw [read, Option.map_some] at front
          rw [Reader.upTo_of_some read, Reader.upTo_of_some front]
          rfl
      | none =>
          rw [read, Option.map_none] at front
          have shifted : Reader.upTo reader' (encoding.encode (a :: text)) =
              (Reader.upTo reader' (encoding.encode text)).map fun split =>
                { split with before := encoding.write a ++ split.before } := by
            rcases char_or_sealed a with ⟨c, rfl⟩ | sealed
            · rw [encode_ofChar_cons] at front ⊢
              rw [Reader.upTo_cons_of_none front, encoding.write_ofChar]
              rfl
            · exact upTo_append_of_inert refuses (encoding.inert_of_mem sealed) _
          rw [shifted, ih, Reader.upTo_cons_of_none read]
          simp [Function.comp_def, split, encode_cons]

/-- A reader that takes a last part of the text whole. -/
theorem respects_ite {isEnd : List α → Bool} {isEnd' : List β → Bool}
    (same : ∀ text, isEnd' (encoding.encode text) = isEnd text) :
    encoding.Respects (fun rest => if isEnd rest then some (rest, []) else none)
      (fun rest => if isEnd' rest then some (rest, []) else none) := by
  intro text
  simp only [same]
  cases isEnd text <;> simp [both]

/-! ## Phrases and names -/

section Words

variable {letters : List Char} {property : Char → Char → Bool}

theorem respects_word
    (telling : ∀ c ∈ letters, ∀ d, property c d = true → isTelling d = true) :
    encoding.Respects (Reader.word (fun c => satisfies (property c)) letters)
      (Reader.word (fun c => satisfies (property c)) letters) := by
  induction letters with
  | nil =>
      intro text
      simp [both]
  | cons c letters ih =>
      intro text
      have tail := ih fun d member => telling d (List.mem_cons_of_mem c member)
      cases text with
      | nil => rfl
      | cons a text =>
          rcases char_or_sealed a with ⟨d, rfl⟩ | sealed
          · rw [encode_ofChar_cons, Reader.word, Reader.word, tail text]
            simp only [satisfies_ofChar]
            cases property c d with
            | false => rfl
            | true => cases Reader.word _ letters text <;> simp [both]
          · rcases encoding.exists_foreign sealed with ⟨b, word, written, foreign⟩
            have stops := satisfies_eq_false (telling c List.mem_cons_self) foreign
            simp [encode_cons, written, Reader.word, stops,
              satisfies_of_char?_eq_none sealed]

theorem refuses_word {c : Char} (mark : ∀ d, property c d = true → isMark d = true) :
    Refuses (Reader.word (fun c => satisfies (property c)) (c :: letters) : Reader β) := by
  intro b inert text
  simp [Reader.word, satisfies_eq_false mark inert]

/-- Telling letters spell phrases that an encoding keeps. -/
theorem respects_phrase (telling : ∀ c ∈ letters, isTelling c = true) :
    encoding.Respects (Reader.phrase letters) (Reader.phrase letters) :=
  respects_word fun c member _ same => eq_of_beq same ▸ telling c member

theorem respects_phraseAnyCase (telling : ∀ c ∈ letters, isTelling c = true) :
    encoding.Respects (Reader.phraseAnyCase letters) (Reader.phraseAnyCase letters) := by
  apply respects_word
  intro c member d same
  rw [← isTelling_toLower, eq_of_beq same, isTelling_toLower]
  exact telling c member

theorem refuses_phrase {c : Char} (mark : isMark c = true) :
    Refuses (Reader.phrase (c :: letters) : Reader β) :=
  refuses_word fun _ same => eq_of_beq same ▸ mark

theorem refuses_phraseAnyCase {c : Char} (mark : isMark c = true) :
    Refuses (Reader.phraseAnyCase (c :: letters) : Reader β) := by
  apply refuses_word
  intro d same
  rw [← isMark_toLower, eq_of_beq same, isMark_toLower]
  exact mark

theorem endsWord_encode (text : List α) :
    endsWord (encoding.encode text) = endsWord text := by
  cases text with
  | nil => rfl
  | cons a text =>
      have word : ∀ c : Char, (c.isAlphanum || c == '_') = true → isTelling c = true := by
        intro c inWord
        rw [isTelling, Bool.or_assoc, inWord, Bool.or_true]
      rcases char_or_sealed a with ⟨c, rfl⟩ | sealed
      · simp [endsWord, isWord]
      · rcases encoding.exists_foreign sealed with ⟨b, rest, written, foreign⟩
        simp [encode_cons, written, endsWord, isWord, satisfies_of_char?_eq_none sealed,
          satisfies_eq_false word foreign]

theorem respects_name (telling : ∀ c ∈ letters, isTelling c = true) :
    encoding.Respects (Reader.name letters) (Reader.name letters) := by
  intro text
  rw [Reader.name, Reader.name, respects_phraseAnyCase telling text]
  cases Reader.phraseAnyCase letters text with
  | none => rfl
  | some pair =>
      simp only [Option.map_some, both, Prod.map, endsWord_encode]
      split <;> rfl

theorem refuses_name {c : Char} (mark : isMark c = true) :
    Refuses (Reader.name (c :: letters) : Reader β) := by
  intro b inert text
  simp [Reader.name, refuses_phraseAnyCase mark inert text]

theorem after?_encode (telling : ∀ c ∈ letters, isTelling c = true) (text : List α) :
    Reader.after? letters (encoding.encode text) =
      (Reader.after? letters text).map encoding.encode := by
  rw [Reader.after?, Reader.after?, respects_phrase telling text]
  cases Reader.phrase letters text <;> simp [both]

theorem refuses_after? {c : Char} (mark : isMark c = true) :
    Refuses (Reader.after? (c :: letters) : List β → Option (List β)) := by
  intro b inert text
  simp [Reader.after?, refuses_phrase mark inert text]

theorem occurs_encode {c : Char} (mark : isMark c = true)
    (telling : ∀ d ∈ c :: letters, isTelling d = true) (text : List α) :
    Reader.occurs (c :: letters) (encoding.encode text) = Reader.occurs (c :: letters) text := by
  rw [Reader.occurs, Reader.occurs,
    (respects_phrase telling).upTo_encode (refuses_phrase mark)]
  cases Reader.upTo (Reader.phrase (c :: letters)) text <;> rfl

end Words

/-! ## Patterns -/

section Patterns

variable {γ δ : Type}

/-- The pieces of an encoded text that a piece of the text becomes, where `describe`
says what becomes of a match. -/
def piece (encoding : Encoding α β) (describe : γ → δ) : Piece α γ → List (Piece β δ)
  | .kept a => (encoding.write a).map .kept
  | .found match' => [.found (describe match')]

/-- A pattern whose matches an encoding keeps and which finds none at an inert
symbol cuts an encoded text where it cuts the text. -/
theorem cut_encode {pattern : Pattern α γ} {pattern' : Pattern β δ} {describe : γ → δ}
    (respects : ∀ text, pattern'.read (encoding.encode text) =
      (pattern.read text).map (Prod.map describe encoding.encode))
    (refuses : Refuses pattern'.read) (text : List α) :
    pattern'.cut (encoding.encode text) =
      (pattern.cut text).flatMap (encoding.piece describe) := by
  induction text using pattern.induction with
  | nil => simp
  | found text match' rest read ih =>
      have read' := respects text
      rw [read, Option.map_some] at read'
      rw [Pattern.cut_of_some read, Pattern.cut_of_some read', ih]
      rfl
  | kept a text refused ih =>
      have refused' := respects (a :: text)
      rw [refused, Option.map_none] at refused'
      have passed : ∀ word : List β, (∀ b ∈ word, Inert b) →
          pattern'.cut (word ++ encoding.encode text) =
            word.map .kept ++ pattern'.cut (encoding.encode text) := by
        intro word inert
        apply Pattern.cut_append_of_refused
        intro suffix nonempty within
        cases suffix with
        | nil => exact absurd rfl nonempty
        | cons b suffix => exact refuses (inert b (within.subset List.mem_cons_self)) _
      rw [Pattern.cut_cons_of_none refused, List.flatMap_cons, ← ih]
      rcases char_or_sealed a with ⟨c, rfl⟩ | sealed
      · rw [encode_ofChar_cons] at refused' ⊢
        rw [Pattern.cut_cons_of_none refused', piece, encoding.write_ofChar]
        rfl
      · rw [encode_cons, passed _ (encoding.inert_of_mem sealed), piece]

/-- Such a pattern also replaces in an encoded text what it replaces in the text. -/
theorem replace_encode (describe : γ → δ) {pattern : Pattern α γ} {pattern' : Pattern β δ}
    {write : γ → List α} {write' : δ → List β}
    (respects : ∀ text, pattern'.read (encoding.encode text) =
      (pattern.read text).map (Prod.map describe encoding.encode))
    (refuses : Refuses pattern'.read)
    (writes : ∀ match', write' (describe match') = encoding.encode (write match'))
    (text : List α) :
    pattern'.replace write' (encoding.encode text) =
      encoding.encode (pattern.replace write text) := by
  have pieces : ∀ pieces : List (Piece α γ),
      (pieces.flatMap (encoding.piece describe)).flatMap (Piece.text write') =
        encoding.encode (pieces.flatMap (Piece.text write)) := by
    intro pieces
    induction pieces with
    | nil => rfl
    | cons first pieces ih =>
        rw [List.flatMap_cons, List.flatMap_append, ih, List.flatMap_cons, encode_append]
        cases first with
        | kept a => simp [piece, Piece.text, List.flatMap_map]
        | found match' => simp [piece, Piece.text, writes]
  rw [Pattern.replace, Pattern.replace, cut_encode respects refuses, pieces]

end Patterns

end Encoding

end HtmlMinifier
