import HtmlMinifier.Proofs.Encoding
import HtmlMinifier.Proofs.Expansion
import HtmlMinifier.Proofs.Symbol

/-!
# Documents of slots

A slot is a character or a token that knows both its index and the content that
it stands for.  A document of slots can be read in two ways: `Slot.written` writes
its tokens out, which gives the text of a draft, and `Slot.meant` forgets their
indices, which gives a document of symbols.  Both are encodings, so every stage
treats the three documents alike.

`Table.Holds` says that a table holds the content of a token, and with it the
contents of all tokens inside.  Where it does, and where no sigil occurs in the
characters between tokens, expanding what is written gives the text of what is
meant.
-/

namespace HtmlMinifier

open Alphabet

/-- A character, or the token of an index with the content that it stands for. -/
inductive Slot where
  | char (c : Char)
  | token (index : Nat) (content : List Symbol)

namespace Slot

instance : Alphabet Slot where
  ofChar := char
  char?
    | char c => some c
    | token .. => none
  char?_ofChar _ := rfl
  ofChar_of_char?_eq_some {a c} found := by
    cases a with
    | char d => exact congrArg char (Option.some.inj found).symm
    | token index content => contradiction

theorem spell_eq (letters : List Char) : (spell letters : List Slot) = letters.map char :=
  rfl

/-- An opaque slot is a token. -/
theorem exists_token_of_char?_eq_none {a : Slot} (sealed : char? a = none) :
    ∃ index content, a = token index content := by
  cases a with
  | char c => contradiction
  | token index content => exact ⟨index, content, rfl⟩

end Slot

/-- No letter and no digit is a mark. -/
theorem Alphabet.isMark_of_isAlphanum {c : Char} (alphanum : c.isAlphanum = true) :
    isMark c = false := by
  rw [Bool.eq_false_iff]
  intro mark
  have marks : ∀ c ∈ ['<', '>', '/', '!', '-', '[', ']', ' ', '\t', '\n', '\x0b', '\x0c',
      '\r', '\x00'], c.isAlphanum = false := by decide
  rw [marks c (by simpa [isMark] using mark)] at alphanum
  contradiction

theorem Token.inert_of_mem_text {sigil : Sigil} {index : Nat} {c : Char}
    (member : c ∈ Token.text sigil index) : Inert c := by
  change isMark c = false
  simp only [Token.text, Sigil.text_eq_cons, List.mem_append, List.mem_cons, List.not_mem_nil,
    or_false] at member
  rcases member with ((rfl | tail) | digit) | rfl
  · decide
  · exact isMark_of_isAlphanum (Sigil.isAlphanum_of_mem_tail tail)
  · have isDigit := Nat.isDigit_of_mem_toDigits (by decide) (by decide) digit
    exact isMark_of_isAlphanum (by simp [Char.isAlphanum, isDigit])
  · decide

namespace Slot

/-- Writes the tokens of a sigil out. -/
def written (sigil : Sigil) : Encoding Slot Char where
  write
    | char c => [c]
    | token index _ => Token.text sigil index
  write_ofChar _ := rfl
  exists_foreign a sealed := by
    rcases exists_token_of_char?_eq_none sealed with ⟨index, content, rfl⟩
    exact ⟨'%', sigil.tail ++ Nat.toDigits 10 index ++ ['%'], rfl, by
      change isTelling '%' = false
      decide⟩
  inert_of_mem a sealed c member := by
    rcases exists_token_of_char?_eq_none sealed with ⟨index, content, rfl⟩
    exact Token.inert_of_mem_text member

/-- Forgets the indices of tokens. -/
def meant : Encoding Slot Symbol where
  write
    | char c => [Symbol.char c]
    | token _ content => [Symbol.stored content]
  write_ofChar _ := rfl
  exists_foreign a sealed := by
    rcases exists_token_of_char?_eq_none sealed with ⟨index, content, rfl⟩
    exact ⟨Symbol.stored content, [], rfl, satisfies_of_char?_eq_none rfl _⟩
  inert_of_mem a sealed b member := by
    obtain ⟨index, content, rfl⟩ := exists_token_of_char?_eq_none sealed
    rw [List.mem_singleton.mp member]
    exact satisfies_of_char?_eq_none rfl _

variable {sigil : Sigil}

theorem written_char_cons (c : Char) (slots : List Slot) :
    (written sigil).encode (char c :: slots) = c :: (written sigil).encode slots :=
  rfl

theorem written_token_cons (index : Nat) (content : List Symbol) (slots : List Slot) :
    (written sigil).encode (token index content :: slots) =
      Token.text sigil index ++ (written sigil).encode slots :=
  rfl

/-- A sigil does not occur in the characters between the tokens of a document. -/
def Clean (sigil : Sigil) (slots : List Slot) : Prop :=
  ¬ (sigil.text.map char).IsInfix slots

theorem Clean.of_cons {a : Slot} {slots : List Slot} (clean : Clean sigil (a :: slots)) :
    Clean sigil slots := by
  intro inside
  exact clean (inside.trans (List.suffix_cons a slots).isInfix)

/-- A word without `%` at the front of what is written stands before all tokens. -/
theorem exists_of_written_eq_append {word rest : List Char} {slots : List Slot}
    (without : '%' ∉ word) (front : (written sigil).encode slots = word ++ rest) :
    ∃ slots', slots = word.map char ++ slots' := by
  induction word generalizing slots with
  | nil => exact ⟨slots, rfl⟩
  | cons d word ih =>
      have other : d ≠ '%' := fun same => without (same ▸ List.mem_cons_self)
      cases slots with
      | nil => simp at front
      | cons a slots =>
          cases a with
          | token index content =>
              rw [written_token_cons, Token.text, Sigil.text_eq_cons] at front
              simp only [List.cons_append, List.cons.injEq] at front
              exact absurd front.1.symm other
          | char c =>
              rw [written_char_cons, List.cons_append, List.cons.injEq] at front
              rcases front with ⟨rfl, front⟩
              obtain ⟨slots', rfl⟩ :=
                ih (fun member => without (List.mem_cons_of_mem c member)) front
              exact ⟨slots', rfl⟩

/-- Where a clean document of slots begins with a character no sigil begins. -/
theorem Clean.after?_char_cons {c : Char} {slots : List Slot}
    (clean : Clean sigil (char c :: slots)) :
    Reader.after? sigil.text (c :: (written sigil).encode slots) = none := by
  rw [Option.eq_none_iff_forall_ne_some]
  intro rest opened
  rw [Reader.after?_eq_some_iff, spell_char, Sigil.text_eq_cons, List.cons_append,
    List.cons.injEq] at opened
  rcases opened with ⟨rfl, front⟩
  rcases exists_of_written_eq_append sigil.percent_notMem_tail front with ⟨slots', rfl⟩
  exact absurd (List.prefix_append (sigil.text.map char) slots').isInfix clean

/-- So no token begins there. -/
theorem Clean.read_char_cons {c : Char} {slots : List Slot} {limit : Nat}
    (clean : Clean sigil (char c :: slots)) :
    Token.read sigil limit (c :: (written sigil).encode slots) = none := by
  rw [Token.read, clean.after?_char_cons, Option.bind_none]

end Slot

namespace Token

variable {sigil : Sigil} {limit : Nat}

/-- What is read as a token is a sigil, digits that denote the index, and a closing `%`. -/
theorem read_eq_some_iff {text rest : List Char} {index : Fin limit} :
    read sigil limit text = some (index, rest) ↔
      ∃ digits, digits ≠ [] ∧ (∀ c ∈ digits, c.isDigit = true) ∧
        Nat.ofDigitChars 10 digits 0 = index ∧ text = sigil.text ++ digits ++ '%' :: rest := by
  constructor
  · intro found
    obtain ⟨inside, opened, indexed⟩ := Option.bind_eq_some_iff.mp found
    rw [Reader.after?_eq_some_iff, spell_char] at opened
    simp only [readIndex] at indexed
    split at indexed
    next rest' behind =>
      have parts := List.takeWhile_append_dropWhile (p := Char.isDigit) (l := inside)
      rw [behind] at parts
      simp only [Option.ite_none_left_eq_some, Option.dite_none_right_eq_some, Option.some.injEq,
        Prod.mk.injEq, List.isEmpty_iff] at indexed
      obtain ⟨nonempty, below, rfl, rfl⟩ := indexed
      exact ⟨_, nonempty, fun _ => List.mem_takeWhile_imp, rfl,
        by rw [opened, List.append_assoc, parts]⟩
    next => contradiction
  · rintro ⟨digits, nonempty, decimal, denotes, rfl⟩
    have opened : Reader.after? sigil.text (sigil.text ++ digits ++ '%' :: rest) =
        some (digits ++ '%' :: rest) := by
      rw [Reader.after?_eq_some_iff, spell_char, List.append_assoc]
    have percent : ('%' : Char).isDigit = false := by decide
    have taken : (digits ++ '%' :: rest).takeWhile Char.isDigit = digits := by
      rw [List.takeWhile_append_of_pos decimal]
      simp [percent]
    have left : (digits ++ '%' :: rest).dropWhile Char.isDigit = '%' :: rest := by
      rw [List.dropWhile_append_of_pos decimal]
      simp [percent]
    rw [read, opened, Option.bind_some, readIndex, taken, left]
    simp [nonempty, denotes]

/-- A token is read back from what is written for it. -/
theorem read_text_append {index : Nat} (below : index < limit) (rest : List Char) :
    read sigil limit (text sigil index ++ rest) = some (⟨index, below⟩, rest) :=
  read_eq_some_iff.mpr ⟨Nat.toDigits 10 index, Nat.toDigits_ne_nil,
    fun _ member => Nat.isDigit_of_mem_toDigits (by decide) (by decide) member, by simp,
    by simp [text]⟩

end Token

namespace Table

/-- A table holds a content at an index: what stands there is written for the
content, and its tokens are earlier ones whose contents the table holds. -/
inductive Holds (table : Table) : Nat → List Symbol → Prop
  | intro {index : Nat} {slots : List Slot} (below : index < table.size)
      (stored : table.content index = (Slot.written table.sigil).encode slots)
      (clean : Slot.Clean table.sigil slots)
      (earlier : ∀ inner content, Slot.token inner content ∈ slots → inner < index)
      (held : ∀ inner content, Slot.token inner content ∈ slots → Holds table inner content) :
      Holds table index (Slot.meant.encode slots)

variable {table : Table}

theorem Holds.index_lt {index : Nat} {content : List Symbol} (held : table.Holds index content) :
    index < table.size := by
  cases held with
  | intro below _ _ _ _ => exact below

theorem content_insert_of_lt {index : Nat} (below : index < table.size) (content : List Char) :
    (table.insert content).content index = table.content index := by
  simp only [Table.content, insert, Array.getD_eq_getD_getElem?]
  rw [Array.getElem?_push_lt below, Array.getElem?_eq_getElem below]

@[simp]
theorem content_insert_size (content : List Char) :
    (table.insert content).content table.size = content := by
  simp [Table.content, insert, size, Array.getD_eq_getD_getElem?]

/-- What a table holds it still holds when more is set aside. -/
theorem Holds.insert {index : Nat} {content : List Symbol} (held : table.Holds index content)
    (more : List Char) : (table.insert more).Holds index content := by
  induction held with
  | intro below stored clean earlier _ ih =>
      exact Holds.intro (by rw [size_insert]; exact below.trans (Nat.lt_succ_self _))
        ((content_insert_of_lt below more).trans stored) clean earlier ih

/-- Expanding what is written for a document gives the text of what it means. -/
theorem expand_written {limit : Nat} {slots : List Slot} (clean : Slot.Clean table.sigil slots)
    (below : ∀ index content, Slot.token index content ∈ slots → index < limit)
    (held : ∀ index content, Slot.token index content ∈ slots → table.Holds index content) :
    table.expand limit ((Slot.written table.sigil).encode slots) =
      Symbol.flattenAll (Slot.meant.encode slots) := by
  induction limit using Nat.strongRecOn generalizing slots with
  | ind limit ih =>
      rw [expand_eq_replace]
      induction slots with
      | nil =>
          rw [Encoding.encode_nil, Pattern.replace_nil]
          rfl
      | cons a slots ihSlots =>
          have tail := ihSlots clean.of_cons
            (fun index content member => below index content (List.mem_cons_of_mem a member))
            (fun index content member => held index content (List.mem_cons_of_mem a member))
          cases a with
          | char c =>
              rw [Slot.written_char_cons, Pattern.replace_cons_of_none clean.read_char_cons, tail]
              rfl
          | token index content =>
              have within := below index content List.mem_cons_self
              have expanded : table.expand index (table.content index) =
                  Symbol.flattenAll content := by
                cases held index content List.mem_cons_self with
                | intro _ stored clean' earlier held' =>
                    rw [stored]
                    exact ih index within clean' earlier held'
              have read : (Token.pattern table.sigil limit).read
                  (Token.text table.sigil index ++ (Slot.written table.sigil).encode slots) =
                    some (⟨index, within⟩, (Slot.written table.sigil).encode slots) := by
                rw [Token.read_pattern, Token.read_text_append within]
              rw [Slot.written_token_cons, Pattern.replace_of_some read, tail, expanded]
              rfl

end Table

end HtmlMinifier
