import HtmlMinifier.Proofs.Transparency
import Mathlib.Data.List.GetD
import Mathlib.Data.List.Infix

/-!
# What is set aside comes back

A composition is put together from texts and from the tokens of contents that have been set
aside before.  It is written with the tokens that were given for these contents, and it means
what stands there when each token is replaced by the meaning of its content.

Restoring what is written gives what is meant, as long as no text between two tokens holds the
sigil.  The texts need nothing else: a token's closing `%` may stand in front of the rest of a
sigil, with digits and another `%` behind it.
-/

namespace HtmlMinifier

open Alphabet

/-! ## Compositions -/

/-- A part of a composition: a text, or the token of a content that has been set aside. -/
inductive Snippet where
  | text (chars : List Char)
  | token (index : Nat)
  deriving DecidableEq

namespace Snippet

/-- A snippet with a word for each token. -/
def write (words : List (List Char)) : Snippet → List Char
  | text chars => chars
  | token index => words.getD index []

/-- A composition with a word for each token. -/
def writeAll (words : List (List Char)) (snippets : List Snippet) : List Char :=
  snippets.flatMap (write words)

/-- The texts between the tokens of a composition, and those in front of the first and behind
the last one.  Texts without a token between them are one text. -/
def passages : List Snippet → List (List Char)
  | [] => [[]]
  | text chars :: snippets => (passages snippets).modifyHead (chars ++ ·)
  | token _ :: snippets => [] :: passages snippets

def index? : Snippet → Option Nat
  | text _ => none
  | token index => some index

/-- The indices of the tokens of a composition. -/
def indices (snippets : List Snippet) : List Nat :=
  snippets.filterMap index?

theorem mem_indices {snippets : List Snippet} {index : Nat} (member : token index ∈ snippets) :
    index ∈ indices snippets :=
  List.mem_filterMap.mpr ⟨token index, member, rfl⟩

/-- A composition whose tokens are among the first so many, and whose passages hold no
sigil. -/
structure Sound (sigil : Sigil) (count : Nat) (snippets : List Snippet) : Prop where
  earlier : ∀ index ∈ indices snippets, index < count
  plain : ∀ passage ∈ passages snippets, ¬ sigil.text.IsInfix passage

instance decidableSound (sigil : Sigil) (count : Nat) (snippets : List Snippet) :
    Decidable (Sound sigil count snippets) :=
  decidable_of_iff ((∀ index ∈ indices snippets, index < count) ∧
      ∀ passage ∈ passages snippets, ¬ sigil.text.IsInfix passage)
    ⟨fun ⟨earlier, plain⟩ => ⟨earlier, plain⟩, fun ⟨earlier, plain⟩ => ⟨earlier, plain⟩⟩

/-- What compositions mean that are set aside one after the other: each is written with the
meanings of those before it. -/
def meanings (contents : List (List Snippet)) : List (List Char) :=
  contents.foldl (fun earlier content => earlier ++ [writeAll earlier content]) []

theorem meanings_append_singleton (contents : List (List Snippet)) (content : List Snippet) :
    meanings (contents ++ [content]) =
      meanings contents ++ [writeAll (meanings contents) content] := by
  simp [meanings]

end Snippet

/-- A table and the tokens that have been given for its contents, in their order. -/
structure Reservation where
  table : Table
  tokens : List (List Char)

namespace Reservation

/-- Sets a composition aside, written with the tokens given so far, and takes its token. -/
def add (reservation : Reservation) (content : List Snippet) : Reservation where
  table := reservation.table.insert (Snippet.writeAll reservation.tokens content)
  tokens := reservation.tokens ++ [reservation.table.nextToken]

/-- Sets compositions aside one after the other, from an empty table on. -/
def addAll (sigil : Sigil) (contents : List (List Snippet)) : Reservation :=
  contents.foldl add ⟨Table.empty sigil, []⟩

theorem addAll_append_singleton (sigil : Sigil) (contents : List (List Snippet))
    (content : List Snippet) :
    addAll sigil (contents ++ [content]) = (addAll sigil contents).add content := by
  simp [addAll]

variable {sigil : Sigil}

@[simp]
theorem sigil_addAll (contents : List (List Snippet)) :
    (addAll sigil contents).table.sigil = sigil := by
  induction contents using List.reverseRecOn with
  | nil => rfl
  | append_singleton contents content ih =>
      rw [addAll_append_singleton, add, Table.sigil_insert, ih]

@[simp]
theorem size_addAll (contents : List (List Snippet)) :
    (addAll sigil contents).table.size = contents.length := by
  induction contents using List.reverseRecOn with
  | nil => rfl
  | append_singleton contents content ih =>
      rw [addAll_append_singleton, add, Table.size_insert, ih, List.length_append,
        List.length_singleton]

/-- The tokens that are given count the contents. -/
theorem tokens_addAll (contents : List (List Snippet)) :
    (addAll sigil contents).tokens = (List.range contents.length).map (Token.text sigil) := by
  induction contents using List.reverseRecOn with
  | nil => rfl
  | append_singleton contents content ih =>
      rw [addAll_append_singleton, add, ih, Table.nextToken, sigil_addAll, size_addAll,
        List.length_append, List.length_singleton, List.range_succ, List.map_append,
        List.map_singleton]

theorem getD_tokens {contents : List (List Snippet)} {index : Nat}
    (below : index < contents.length) :
    (addAll sigil contents).tokens.getD index [] = Token.text sigil index := by
  simp [tokens_addAll, List.getD_eq_getElem?_getD, below]

end Reservation

/-! ## Compositions as documents of slots -/

namespace Slot

/-- The texts between the tokens of a document of slots. -/
def passages : List Slot → List (List Char)
  | [] => [[]]
  | char c :: slots => (passages slots).modifyHead (c :: ·)
  | token .. :: slots => [] :: passages slots

theorem passages_map_char_append (chars : List Char) (slots : List Slot) :
    passages (chars.map char ++ slots) = (passages slots).modifyHead (chars ++ ·) := by
  induction chars with
  | nil => exact (congrFun List.modifyHead_id _).symm
  | cons c chars ih =>
      rw [List.map_cons, List.cons_append, passages, ih, List.modifyHead_modifyHead]
      rfl

theorem exists_passages_eq_cons (slots : List Slot) :
    ∃ first others, passages slots = first :: others := by
  induction slots with
  | nil => exact ⟨_, _, rfl⟩
  | cons a slots ih =>
      cases a with
      | char c =>
          obtain ⟨first, others, shape⟩ := ih
          exact ⟨c :: first, others, by rw [passages, shape, List.modifyHead_cons]⟩
      | token index content => exact ⟨_, _, rfl⟩

/-- A word at the front of a document of slots stands at the front of its first passage. -/
theorem isPrefix_of_isPrefix {word first : List Char} {others : List (List Char)}
    {slots : List Slot} (shape : passages slots = first :: others)
    (start : (word.map char).IsPrefix slots) : word.IsPrefix first := by
  induction slots generalizing word first others with
  | nil =>
      obtain rfl : word = [] := by simpa using start
      exact List.nil_prefix
  | cons a slots ih =>
      cases word with
      | nil => exact List.nil_prefix
      | cons d word =>
          obtain ⟨rfl, further⟩ := List.cons_prefix_cons.mp start
          obtain ⟨first', others', shape'⟩ := exists_passages_eq_cons slots
          rw [passages, shape', List.modifyHead_cons, List.cons.injEq] at shape
          rw [← shape.1]
          exact List.cons_prefix_cons.mpr ⟨rfl, ih shape' further⟩

/-- A sigil that stands in a document of slots stands in one of its passages. -/
theorem clean_of_passages {sigil : Sigil} {slots : List Slot}
    (plain : ∀ passage ∈ passages slots, ¬ sigil.text.IsInfix passage) : Clean sigil slots := by
  intro inside
  induction slots with
  | nil => simp [Sigil.text_ne_nil] at inside
  | cons a slots ih =>
      rcases List.infix_cons_iff.mp inside with start | further
      · obtain ⟨first, others, shape⟩ := exists_passages_eq_cons (a :: slots)
        exact plain first (by simp [shape]) (isPrefix_of_isPrefix shape start).isInfix
      · refine ih (fun passage member occurs => ?_) further
        cases a with
        | token index content => exact plain passage (List.mem_cons_of_mem _ member) occurs
        | char c =>
            obtain ⟨first, others, shape⟩ := exists_passages_eq_cons slots
            rw [passages, shape, List.modifyHead_cons] at plain
            rcases List.mem_cons.mp (shape ▸ member) with rfl | later
            · exact plain _ List.mem_cons_self (occurs.trans (List.suffix_cons c _).isInfix)
            · exact plain passage (List.mem_cons_of_mem _ later) occurs

end Slot

namespace Snippet

/-- A snippet as slots, with a meaning for each token. -/
def slots (meant : List (List Symbol)) : Snippet → List Slot
  | text chars => chars.map .char
  | token index => [.token index (meant.getD index [])]

/-- A composition as a document of slots, with a meaning for each token. -/
def allSlots (meant : List (List Symbol)) (snippets : List Snippet) : List Slot :=
  snippets.flatMap (slots meant)

/-- What compositions mean that are set aside one after the other, as documents of symbols. -/
def symbols (contents : List (List Snippet)) : List (List Symbol) :=
  contents.foldl (fun earlier content =>
    earlier ++ [Slot.meant.encode (allSlots earlier content)]) []

theorem symbols_append_singleton (contents : List (List Snippet)) (content : List Snippet) :
    symbols (contents ++ [content]) =
      symbols contents ++ [Slot.meant.encode (allSlots (symbols contents) content)] := by
  simp [symbols]

@[simp]
theorem length_symbols (contents : List (List Snippet)) :
    (symbols contents).length = contents.length := by
  induction contents using List.reverseRecOn with
  | nil => rfl
  | append_singleton contents content ih => simp [symbols_append_singleton, ih]

theorem passages_allSlots (meant : List (List Symbol)) (snippets : List Snippet) :
    Slot.passages (allSlots meant snippets) = passages snippets := by
  induction snippets with
  | nil => rfl
  | cons snippet snippets ih =>
      rw [allSlots, List.flatMap_cons, ← allSlots]
      cases snippet with
      | text chars => rw [slots, Slot.passages_map_char_append, ih, passages]
      | token index => rw [slots, List.singleton_append, Slot.passages, ih, passages]

theorem flattenAll_meant_map_char (chars : List Char) :
    Symbol.flattenAll (Slot.meant.encode (chars.map .char)) = chars := by
  rw [← Slot.spell_eq, Encoding.encode_spell]
  exact Symbol.flattenAll_map_char chars

/-- The meaning of a composition is the text of its symbols. -/
theorem flattenAll_meant_allSlots (meant : List (List Symbol)) (snippets : List Snippet) :
    Symbol.flattenAll (Slot.meant.encode (allSlots meant snippets)) =
      writeAll (meant.map Symbol.flattenAll) snippets := by
  induction snippets with
  | nil => rfl
  | cons snippet snippets ih =>
      rw [allSlots, List.flatMap_cons, ← allSlots, Encoding.encode_append,
        Symbol.flattenAll_append, ih, writeAll, writeAll, List.flatMap_cons]
      congr 1
      cases snippet with
      | text chars => exact flattenAll_meant_map_char chars
      | token index =>
          have found : (meant.map Symbol.flattenAll).getD index [] =
              Symbol.flattenAll (meant.getD index []) := List.getD_map meant [] Symbol.flattenAll
          rw [write, found]
          exact List.append_nil _

theorem meanings_eq_map (contents : List (List Snippet)) :
    meanings contents = (symbols contents).map Symbol.flattenAll := by
  induction contents using List.reverseRecOn with
  | nil => rfl
  | append_singleton contents content ih =>
      rw [meanings_append_singleton, symbols_append_singleton, ih, List.map_append,
        List.map_singleton, flattenAll_meant_allSlots]

namespace Sound

variable {sigil : Sigil} {snippets : List Snippet}

theorem clean {count : Nat} (sound : Sound sigil count snippets) (meant : List (List Symbol)) :
    Slot.Clean sigil (allSlots meant snippets) :=
  Slot.clean_of_passages (passages_allSlots meant snippets ▸ sound.plain)

theorem lt_of_token_mem {count : Nat} (sound : Sound sigil count snippets)
    {meant : List (List Symbol)} {index : Nat} {content : List Symbol}
    (member : .token index content ∈ allSlots meant snippets) :
    index < count ∧ content = meant.getD index [] := by
  obtain ⟨snippet, inside, here⟩ := List.mem_flatMap.mp member
  cases snippet with
  | text chars => simp [slots] at here
  | token other =>
      obtain ⟨rfl, rfl⟩ : index = other ∧ content = meant.getD other [] := by
        simpa [slots] using here
      exact ⟨sound.earlier index (mem_indices inside), rfl⟩

/-- A composition is written with the tokens that have been given as its slots are. -/
theorem written_allSlots {contents : List (List Snippet)}
    (sound : Sound sigil contents.length snippets) (meant : List (List Symbol)) :
    (Slot.written sigil).encode (allSlots meant snippets) =
      writeAll (Reservation.addAll sigil contents).tokens snippets := by
  rw [Encoding.encode, allSlots, List.flatMap_assoc, writeAll]
  refine List.flatMap_congr fun snippet member => ?_
  cases snippet with
  | text chars =>
      have spelled := (Slot.written sigil).encode_spell chars
      rwa [spell_char] at spelled
  | token index =>
      rw [slots, write, Reservation.getD_tokens (sound.earlier index (mem_indices member))]
      exact List.flatMap_singleton _ _

end Sound

end Snippet

namespace Reservation

variable {sigil : Sigil}

/-- The table then holds what each composition means. -/
theorem holds_addAll {contents : List (List Snippet)}
    (sound : ∀ count content, contents[count]? = some content → Snippet.Sound sigil count content)
    {index : Nat} (below : index < contents.length) :
    (addAll sigil contents).table.Holds index ((Snippet.symbols contents).getD index []) := by
  induction contents using List.reverseRecOn generalizing index with
  | nil => simp at below
  | append_singleton contents content ih =>
      have before : ∀ index < contents.length,
          (addAll sigil contents).table.Holds index ((Snippet.symbols contents).getD index []) := by
        intro index below
        refine ih (fun count content found => sound count content ?_) below
        rw [List.getElem?_append_left (List.getElem?_eq_some_iff.mp found).1, found]
      have here : Snippet.Sound sigil contents.length content := sound _ _ (by simp)
      have held : (addAll sigil contents).table.HoldsAll
          (Snippet.allSlots (Snippet.symbols contents) content) := by
        intro index inner member
        obtain ⟨below, rfl⟩ := here.lt_of_token_mem member
        exact before index below
      rw [addAll_append_singleton, Snippet.symbols_append_singleton, add]
      rcases Nat.lt_or_eq_of_le (Nat.le_of_lt_succ (by simpa using below)) with earlier | rfl
      · rw [List.getD_append _ _ _ _ (by simpa using earlier)]
        exact (before index earlier).insert _
      · have clean : Slot.Clean (addAll sigil contents).table.sigil
            (Snippet.allSlots (Snippet.symbols contents) content) := by
          rw [sigil_addAll]
          exact here.clean _
        have last := Table.Holds.of_insert clean held
        rw [sigil_addAll, here.written_allSlots, size_addAll] at last
        rw [List.getD_append_right _ _ _ _ (by simp)]
        simpa using last

/-- Restoring a composition gives what it means. -/
theorem restore_writeAll {contents : List (List Snippet)} {document : List Snippet}
    (stored : ∀ count content, contents[count]? = some content → Snippet.Sound sigil count content)
    (sound : Snippet.Sound sigil contents.length document) :
    (addAll sigil contents).table.restore
        (Snippet.writeAll (addAll sigil contents).tokens document) =
      Snippet.writeAll (Snippet.meanings contents) document := by
  have clean : Slot.Clean (addAll sigil contents).table.sigil
      (Snippet.allSlots (Snippet.symbols contents) document) := by
    rw [sigil_addAll]
    exact sound.clean _
  have below : ∀ index content,
      .token index content ∈ Snippet.allSlots (Snippet.symbols contents) document →
        index < contents.length :=
    fun _ _ member => (sound.lt_of_token_mem member).1
  have held : (addAll sigil contents).table.HoldsAll
      (Snippet.allSlots (Snippet.symbols contents) document) := by
    intro index content member
    obtain ⟨below, rfl⟩ := sound.lt_of_token_mem member
    exact holds_addAll stored below
  have expanded := Table.expand_written clean below held
  rw [sigil_addAll, sound.written_allSlots, Snippet.flattenAll_meant_allSlots,
    ← Snippet.meanings_eq_map] at expanded
  rw [Table.restore, size_addAll, expanded]

/-- Eleven contents.  The last one holds a token twice, and between the two a text that would
complete one more token. -/
def nested : List (List Snippet) :=
  (List.range 10).map (fun index => [.text (Nat.toDigits 10 index)]) ++
    [[.token 1, .text "squeeze0000000000000000x1%".toList, .token 1]]

/-- A composition with the last of these contents and an earlier one.  The index of the one
begins with that of the other. -/
def outermost : List Snippet :=
  [.text "%squeeze".toList, .token 10, .token 1, .text "squeeze0000000000000000x10%".toList]

/-- Every percent sign but the first and the last belongs to a token. -/
theorem restore_writeAll_outermost :
    (∀ count content, nested[count]? = some content → Snippet.Sound ⟨0⟩ count content) ∧
      Snippet.Sound ⟨0⟩ nested.length outermost ∧
      Snippet.writeAll (addAll ⟨0⟩ nested).tokens outermost =
        ("%squeeze" ++ "%squeeze0000000000000000x10%" ++ "%squeeze0000000000000000x1%" ++
          "squeeze0000000000000000x10%").toList ∧
      (addAll ⟨0⟩ nested).table.restore
          (Snippet.writeAll (addAll ⟨0⟩ nested).tokens outermost) =
        ("%squeeze" ++ "1squeeze0000000000000000x1%1" ++ "1" ++
          "squeeze0000000000000000x10%").toList := by
  have each : ∀ entry ∈ nested.zipIdx, Snippet.Sound ⟨0⟩ entry.2 entry.1 := by decide +kernel
  have stored : ∀ count content, nested[count]? = some content →
      Snippet.Sound ⟨0⟩ count content := fun count content found =>
    each (content, count) (List.mem_zipIdx_iff_getElem?.mpr found)
  have sound : Snippet.Sound ⟨0⟩ nested.length outermost := by decide +kernel
  refine ⟨stored, sound, by decide +kernel, (restore_writeAll stored sound).trans ?_⟩
  decide +kernel

end Reservation

end HtmlMinifier
