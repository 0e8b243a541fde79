import HtmlMinifier.Proofs.Transparency

/-!
# The tokens of a text

A text is scanned for tokens from left to right, without a limit to their indices, and no
two tokens overlap.  On what is written for a document of slots the scan finds the tokens
of the document and nothing else, as long as no sigil stands between them.
-/

namespace HtmlMinifier

open Alphabet

namespace Piece

variable {α β : Type}

/-- The matches among the pieces of a text. -/
def allFound : List (Piece α β) → List β
  | [] => []
  | .kept _ :: pieces => allFound pieces
  | .found b :: pieces => b :: allFound pieces

theorem mem_allFound {pieces : List (Piece α β)} {b : β} :
    b ∈ allFound pieces ↔ .found b ∈ pieces := by
  induction pieces with
  | nil => simp [allFound]
  | cons piece pieces ih => cases piece <;> simp [allFound, ih]

end Piece

namespace Token

/-- A token of any index at the front of a text. -/
def readAny (sigil : Sigil) (text : List Char) : Option (Nat × List Char) :=
  (Reader.after? sigil.text text).bind fun inside =>
    match inside.dropWhile Char.isDigit with
    | '%' :: rest =>
        if (inside.takeWhile Char.isDigit).isEmpty then none
        else some (Nat.ofDigitChars 10 (inside.takeWhile Char.isDigit) 0, rest)
    | _ => none

/-- The tokens below a limit are the tokens of all indices below it. -/
theorem read_eq_bind (sigil : Sigil) (limit : Nat) (text : List Char) :
    read sigil limit text = (readAny sigil text).bind fun (index, rest) =>
      if below : index < limit then some (⟨index, below⟩, rest) else none := by
  rw [read, readAny]
  cases Reader.after? sigil.text text with
  | none => rfl
  | some inside =>
      simp only [Option.bind_some, readIndex]
      generalize inside.takeWhile Char.isDigit = digits
      generalize inside.dropWhile Char.isDigit = behind
      split
      · cases digits <;> rfl
      · simp

theorem length_of_readAny {sigil : Sigil} {text rest : List Char} {index : Nat}
    (found : readAny sigil text = some (index, rest)) : rest.length < text.length := by
  have read : read sigil (index + 1) text = some (⟨index, Nat.lt_succ_self index⟩, rest) := by
    rw [read_eq_bind, found, Option.bind_some]
    exact dif_pos (Nat.lt_succ_self index)
  exact (pattern sigil (index + 1)).shrinks read

/-- The tokens of all indices. -/
def anyPattern (sigil : Sigil) : Pattern Char Nat where
  read := readAny sigil
  shrinks _ _ _ found := length_of_readAny found

/-- The indices of the tokens of a text, in their order. -/
def indices (sigil : Sigil) (text : List Char) : List Nat :=
  Piece.allFound ((anyPattern sigil).cut text)

variable {sigil : Sigil}

@[simp]
theorem indices_nil : indices sigil [] = [] := by
  simp [indices, Piece.allFound]

theorem indices_of_some {text rest : List Char} {index : Nat}
    (found : readAny sigil text = some (index, rest)) :
    indices sigil text = index :: indices sigil rest := by
  have read : (anyPattern sigil).read text = some (index, rest) := found
  rw [indices, Pattern.cut_of_some read]
  rfl

theorem indices_cons_of_none {c : Char} {text : List Char}
    (refused : readAny sigil (c :: text) = none) :
    indices sigil (c :: text) = indices sigil text := by
  have read : (anyPattern sigil).read (c :: text) = none := refused
  rw [indices, Pattern.cut_cons_of_none read]
  rfl

/-- Where all indices are below a limit, the tokens below it are all tokens. -/
theorem map_allFound_cut_eq_indices {limit : Nat} {text : List Char}
    (below : ∀ index ∈ indices sigil text, index < limit) :
    (Piece.allFound ((pattern sigil limit).cut text)).map Fin.val = indices sigil text := by
  induction text using (anyPattern sigil).induction with
  | nil => simp [Piece.allFound]
  | found text index rest found ih =>
      have found' : readAny sigil text = some (index, rest) := found
      rw [indices_of_some found'] at below ⊢
      obtain ⟨first, others⟩ := List.forall_mem_cons.mp below
      have read : (pattern sigil limit).read text = some (⟨index, first⟩, rest) := by
        rw [read_pattern, read_eq_bind, found', Option.bind_some]
        exact dif_pos first
      rw [Pattern.cut_of_some read, ← ih others]
      rfl
  | kept c text refused ih =>
      have refused' : readAny sigil (c :: text) = none := refused
      rw [indices_cons_of_none refused'] at below ⊢
      have read : (pattern sigil limit).read (c :: text) = none := by
        rw [read_pattern, read_eq_bind, refused', Option.bind_none]
      rw [Pattern.cut_cons_of_none read, ← ih below]
      rfl

/-- A token is found where it is written. -/
theorem readAny_text_append (index : Nat) (rest : List Char) :
    readAny sigil (text sigil index ++ rest) = some (index, rest) := by
  have read : read sigil (index + 1) (text sigil index ++ rest) = some (Fin.last index, rest) :=
    read_text_append (Nat.lt_succ_self index) rest
  rw [read_eq_bind] at read
  obtain ⟨⟨index', rest'⟩, found, shape⟩ := Option.bind_eq_some_iff.mp read
  simp only [Option.dite_none_right_eq_some, Option.some.injEq, Prod.mk.injEq, Fin.last,
    Fin.mk.injEq] at shape
  obtain ⟨-, rfl, rfl⟩ := shape
  exact found

end Token

namespace Slot

/-- The index of a token, if a slot is one. -/
def index : Slot → List Nat
  | char _ => []
  | token index _ => [index]

/-- The indices of the tokens of a document. -/
def indices (slots : List Slot) : List Nat :=
  slots.flatMap index

variable {sigil : Sigil} {slots : List Slot}

theorem mem_indices {i : Nat} : i ∈ indices slots ↔ ∃ content, token i content ∈ slots := by
  simp only [indices, List.mem_flatMap]
  constructor
  · rintro ⟨a, member, inside⟩
    cases a with
    | char c => simp [index] at inside
    | token i' content =>
        obtain rfl := List.mem_singleton.mp inside
        exact ⟨content, member⟩
  · rintro ⟨content, member⟩
    exact ⟨_, member, List.mem_singleton_self i⟩

/-- The scan of a written document finds its tokens and nothing else. -/
theorem Clean.indices_written (clean : Clean sigil slots) :
    Token.indices sigil ((written sigil).encode slots) = indices slots := by
  induction slots with
  | nil => exact Token.indices_nil
  | cons a slots ih =>
      cases a with
      | char c =>
          have refused : Token.readAny sigil (c :: (written sigil).encode slots) = none := by
            rw [Token.readAny, clean.after?_char_cons, Option.bind_none]
          rw [written_char_cons, Token.indices_cons_of_none refused, ih clean.of_cons]
          rfl
      | token i content =>
          rw [written_token_cons, Token.indices_of_some (Token.readAny_text_append i _),
            ih clean.of_cons]
          rfl

end Slot

end HtmlMinifier
