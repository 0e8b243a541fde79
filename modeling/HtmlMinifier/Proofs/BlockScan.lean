import HtmlMinifier.Proofs.SheetWhitespace
import Mathlib.Order.WellFounded

/-!
# A scan for tags of blocks

The tags of blocks move up as in this scan.  From a cursor on the first blanks are sought that
have the tag of a block directly behind them; they go, what is in front of them and the tag
stay, and the scan goes on behind the tag.  The tag of a block is written with the whole word
behind its `<` or `</`: the word is one of the listed names in lower case, and no name is seen
in a longer word that it begins.
-/

namespace HtmlMinifier.BlockTag

open Alphabet

variable {α : Type} [Alphabet α]

/-! ## Written tags -/

/-- The tag of a block as it is written. -/
structure Written (α : Type) [Alphabet α] where
  /-- Whether it is the tag at the end of the block. -/
  closing : Bool
  /-- The word behind the mark. -/
  letters : List Char
  /-- What follows the word, without the `>`. -/
  inner : List α
  word : ∀ c ∈ letters, isWord c = true
  apart : ∀ a ∈ inner.head?, isWord a = false
  listed : letters.map Char.toLower ∈ names
  unclosed : ofChar '>' ∉ inner

namespace Written

/-- The mark in front of the word. -/
def opening (tag : Written α) : List Char :=
  if tag.closing then ['<', '/'] else ['<']

/-- The tag from its `<` through its `>`. -/
def text (tag : Written α) : List α :=
  spell tag.opening ++ (spell tag.letters ++ (tag.inner ++ [ofChar '>']))

theorem exists_text_eq (tag : Written α) : ∃ behind, tag.text = ofChar '<' :: behind := by
  rw [text, opening]
  split
  · exact ⟨_, rfl⟩
  · exact ⟨_, rfl⟩

/-- The word ends where the rest of the tag begins. -/
theorem endsWord_inner (tag : Written α) (behind : List α) :
    endsWord (tag.inner ++ ofChar '>' :: behind) = true := by
  have apart := tag.apart
  cases inner : tag.inner with
  | nil => simp [endsWord, isWord]
  | cons a inner =>
      rw [inner] at apart
      simp [endsWord, apart a rfl]

end Written

/-- A word that is the name of a block in lower case consists of word symbols. -/
theorem isWord_of_listed {letters : List Char} (listed : letters.map Char.toLower ∈ names)
    {c : Char} (member : c ∈ letters) : isWord c = true := by
  rw [← isWord_toLower]
  exact isWord_of_mem_names _ listed _ (List.mem_map_of_mem member)

theorem exists_of_mark {text opening rest : List α} (read : mark text = some (opening, rest)) :
    (opening = spell ['<', '/'] ∨ opening = spell ['<']) ∧ text = opening ++ rest := by
  refine ⟨?_, (mark_faithful read).symm⟩
  unfold mark at read
  split at read
  next first =>
    rw [Option.some.inj read] at first
    exact .inl (Reader.phrase_eq_some_iff.mp first).1
  next => exact .inr (Reader.phrase_eq_some_iff.mp read).1

theorem exists_of_name {text taken rest : List α} (read : name text = some (taken, rest)) :
    ∃ letters : List Char, letters.map Char.toLower ∈ names ∧ taken = spell letters ∧
      text = spell letters ++ rest ∧ endsWord rest = true := by
  rw [name_eq_findSome?] at read
  obtain ⟨listed, spelt, found⟩ := List.exists_of_findSome?_eq_some read
  have member := mem_spelled_iff.mp spelt
  obtain ⟨any, ends⟩ := Reader.name_eq_some_iff.mp found
  obtain ⟨letters, same, taken_eq, text_eq⟩ := Reader.phraseAnyCase_eq_some_iff.mp any
  exact ⟨letters, by rwa [same, map_toLower_of_mem_names listed member], taken_eq, text_eq, ends⟩

/-- The mark of a written tag is read. -/
theorem mark_text_append (tag : Written α) (behind : List α) :
    mark (tag.text ++ behind) =
      some (spell tag.opening, spell tag.letters ++ (tag.inner ++ ofChar '>' :: behind)) := by
  have shape : tag.text ++ behind =
      spell tag.opening ++ (spell tag.letters ++ (tag.inner ++ ofChar '>' :: behind)) := by
    simp [Written.text]
  rw [shape]
  cases closing : tag.closing with
  | true =>
      have found : Reader.phrase ['<', '/']
          (spell ['<', '/'] ++ (spell tag.letters ++ (tag.inner ++ ofChar '>' :: behind))) =
          some (spell ['<', '/'], spell tag.letters ++ (tag.inner ++ ofChar '>' :: behind)) :=
        Reader.phrase_eq_some_iff.mpr ⟨rfl, rfl⟩
      simp only [Written.opening, closing, if_true, mark, found]
  | false =>
      cases written : tag.letters with
      | nil =>
          have nameless : [] ∉ names := by decide +kernel
          have listed := tag.listed
          rw [written] at listed
          exact absurd listed nameless
      | cons c letters =>
          have other : c ≠ '/' := by
            rintro rfl
            exact absurd (tag.word '/' (by simp [written])) (by decide)
          simp only [Written.opening, closing, Bool.false_eq_true, if_false]
          exact mark_of_ne other _

/-- The tags of blocks that are read are those that are written. -/
theorem tag_eq_some_iff_exists_written {text taken rest : List α} :
    tag text = some (taken, rest) ↔
      ∃ written : Written α, taken = written.text ∧ text = written.text ++ rest := by
  constructor
  · intro read
    obtain ⟨opening, named, name, inTag, split, marked, inName, closed, rfl, rfl⟩ :=
      tag_eq_some_iff.mp read
    obtain ⟨mark, rfl⟩ := exists_of_mark marked
    obtain ⟨letters, listed, rfl, rfl, ends⟩ := exists_of_name inName
    obtain ⟨unclosed, close, rfl⟩ := Reader.upTo_singleton_eq_some_iff.mp closed
    have apart : ∀ a ∈ split.before.head?, isWord a = false := by
      cases inner : split.before with
      | nil => simp
      | cons b inner =>
          rintro _ ⟨⟩
          simpa [inner, endsWord] using ends
    have word : ∀ c ∈ letters, isWord c = true := fun _ => isWord_of_listed listed
    rcases mark with rfl | rfl
    · refine ⟨⟨true, letters, split.before, word, apart, listed, unclosed⟩, ?_, ?_⟩
      · simp [Written.text, Written.opening, close]
      · simp [Written.text, Written.opening]
    · refine ⟨⟨false, letters, split.before, word, apart, listed, unclosed⟩, ?_, ?_⟩
      · simp [Written.text, Written.opening, close]
      · simp [Written.text, Written.opening]
  · rintro ⟨written, rfl, rfl⟩
    have named : name (spell written.letters ++ (written.inner ++ ofChar '>' :: rest)) =
        some (spell written.letters, written.inner ++ ofChar '>' :: rest) := by
      rw [name_spell written.word (written.endsWord_inner rest), if_pos written.listed]
    have whole : written.text =
        spell written.opening ++ spell written.letters ++ written.inner ++ [ofChar '>'] := by
      simp [Written.text]
    exact tag_eq_some_iff.mpr ⟨_, _, _, _, _, mark_text_append written rest, named,
      Reader.upTo_append_cons written.unclosed rest, whole, rfl⟩

/-! ## Where tags move up -/

/-- A place in a text where a tag moves up: all the blanks there, with the tag of a block
directly behind them. -/
structure Site (text : List α) where
  /-- What stands in front of the blanks. -/
  before : List α
  /-- The blanks. -/
  run : List α
  /-- The tag behind the blanks. -/
  tag : Written α
  /-- What stands behind the tag. -/
  behind : List α
  nonempty : run ≠ []
  blanks : ∀ a ∈ run, isBlank a = true
  maximal : ∀ a ∈ before.getLast?, isBlank a = false
  text_eq : text = before ++ (run ++ (tag.text ++ behind))

/-- The scan, from the text behind the cursor to what becomes of it. -/
inductive Scans : List α → List α → Prop
  | kept {text : List α} (clear : IsEmpty (Site text)) : Scans text text
  | moved {text result : List α} (site : Site text)
      (first : ∀ other : Site text, site.before.length ≤ other.before.length)
      (further : Scans site.behind result) :
      Scans text (site.before ++ (site.tag.text ++ result))

/-- Some of the blanks in front of a tag lie within all of them. -/
theorem exists_site {text front run behind : List α} {tag : Written α} (nonempty : run ≠ [])
    (blanks : ∀ a ∈ run, isBlank a = true)
    (shape : text = front ++ (run ++ (tag.text ++ behind))) :
    ∃ site : Site text, site.before.length ≤ front.length := by
  induction front using List.reverseRecOn generalizing run with
  | nil => exact ⟨⟨[], run, tag, behind, nonempty, blanks, by simp, shape⟩, le_refl 0⟩
  | append_singleton front a ih =>
      cases blank : isBlank a with
      | false =>
          have maximal : ∀ b ∈ (front ++ [a]).getLast?, isBlank b = false := by simpa using blank
          exact ⟨⟨front ++ [a], run, tag, behind, nonempty, blanks, maximal, shape⟩, le_refl _⟩
      | true =>
          obtain ⟨site, near⟩ := ih (List.cons_ne_nil a run)
            (List.forall_mem_cons.mpr ⟨blank, blanks⟩) (by simpa using shape)
          exact ⟨site, by simp only [List.length_append]; omega⟩

/-- Where a tag with the blanks before it is read, there is a place from there on or further
in front. -/
theorem exists_site_of_read {text front suffix taken rest : List α} (shape : text = front ++ suffix)
    (found : read suffix = some (taken, rest)) :
    ∃ site : Site text, site.before.length ≤ front.length := by
  obtain ⟨run, nonempty, blanks, tagged, rfl⟩ := exists_of_read found
  obtain ⟨tag, rfl, -⟩ := tag_eq_some_iff_exists_written.mp tagged
  exact exists_site nonempty blanks (by rw [shape, List.append_assoc])

/-- A tag is read with the blanks before it. -/
theorem read_run_append {run : List α} (nonempty : run ≠ [])
    (blanks : ∀ a ∈ run, isBlank a = true) (tag : Written α) (behind : List α) :
    read (run ++ (tag.text ++ behind)) = some (tag.text, behind) := by
  obtain ⟨a, run, rfl⟩ := List.exists_cons_of_ne_nil nonempty
  rcases List.forall_mem_cons.mp blanks with ⟨blank, blanks⟩
  have tagged := tag_eq_some_iff_exists_written.mpr ⟨tag, rfl, (rfl : _ = tag.text ++ behind)⟩
  have stops : (tag.text ++ behind).dropWhile isBlank = tag.text ++ behind := by
    obtain ⟨inTag, shape⟩ := tag.exists_text_eq
    exact dropWhile_eq_self (by simp [shape, isBlank])
  rw [List.cons_append, read, if_pos blank, List.dropWhile_append_of_pos blanks, stops, tagged]

/-- A text without such a place is kept. -/
theorem moveUp_of_isEmpty {text : List α} (clear : IsEmpty (Site text)) : moveUp text = text := by
  apply Pattern.replace_of_refused
  rintro suffix ⟨front, shape⟩
  cases found : pattern.read suffix with
  | none => rfl
  | some pair =>
      obtain ⟨site, -⟩ := exists_site_of_read shape.symm found
      exact clear.elim site

/-- At the first such place the blanks go. -/
theorem moveUp_of_first {text : List α} (site : Site text)
    (first : ∀ other : Site text, site.before.length ≤ other.before.length) :
    moveUp text = site.before ++ (site.tag.text ++ moveUp site.behind) := by
  have kept : ∀ suffix, suffix ≠ [] → suffix.IsSuffix site.before →
      pattern.read (suffix ++ (site.run ++ (site.tag.text ++ site.behind))) = none := by
    rintro suffix nonempty ⟨front, shape⟩
    cases found : pattern.read (suffix ++ (site.run ++ (site.tag.text ++ site.behind))) with
    | none => rfl
    | some pair =>
        -- A match further in front would be a place in front of the first one.
        have whole : text = front ++ (suffix ++ (site.run ++ (site.tag.text ++ site.behind))) := by
          rw [← List.append_assoc, shape]
          exact site.text_eq
        obtain ⟨other, near⟩ := exists_site_of_read whole found
        have least := first other
        have positive := List.length_pos_iff.mpr nonempty
        rw [← shape, List.length_append] at least
        omega
  have matched : pattern.read (site.run ++ (site.tag.text ++ site.behind)) =
      some (site.tag.text, site.behind) := read_run_append site.nonempty site.blanks _ _
  calc
    moveUp text = moveUp (site.before ++ (site.run ++ (site.tag.text ++ site.behind))) :=
      congrArg moveUp site.text_eq
    _ = site.before ++ moveUp (site.run ++ (site.tag.text ++ site.behind)) :=
      Pattern.replace_append_of_refused kept
    _ = site.before ++ (site.tag.text ++ moveUp site.behind) := by
      rw [moveUp, Pattern.replace_of_some matched, id, ← moveUp]

/-- Of several places one is the first. -/
theorem exists_first {text : List α} (some : Nonempty (Site text)) :
    ∃ site : Site text, ∀ other : Site text, site.before.length ≤ other.before.length :=
  ⟨Function.argmin fun site : Site text => site.before.length,
    fun other => Function.argmin_le (fun site : Site text => site.before.length) other⟩

theorem Site.length_behind_lt {text : List α} (site : Site text) :
    site.behind.length < text.length := by
  have positive := List.length_pos_iff.mpr site.nonempty
  rw [congrArg List.length site.text_eq]
  simp only [List.length_append]
  omega

/-- The scan comes to an end. -/
theorem exists_scans (text : List α) : ∃ result, Scans text result := by
  induction length : text.length using Nat.strongRecOn generalizing text with
  | ind n ih =>
      rcases isEmpty_or_nonempty (Site text) with clear | some
      · exact ⟨text, .kept clear⟩
      · obtain ⟨site, first⟩ := exists_first some
        obtain ⟨result, further⟩ := ih _ (length ▸ site.length_behind_lt) site.behind rfl
        exact ⟨_, .moved site first further⟩

/-- The scan gives what tags of blocks have moved up in. -/
theorem Scans.moveUp_eq {text result : List α} (scans : Scans text result) :
    moveUp text = result := by
  induction scans with
  | kept clear => exact moveUp_of_isEmpty clear
  | moved site first _ ih => rw [moveUp_of_first site first, ih]

/-- To move tags of blocks up is to scan the text. -/
theorem moveUp_eq_iff_scans {text result : List α} :
    moveUp text = result ↔ Scans text result := by
  constructor
  · rintro rfl
    obtain ⟨result, scans⟩ := exists_scans text
    rwa [scans.moveUp_eq]
  · exact Scans.moveUp_eq

/-- A name is seen neither in a longer word nor in a tag that has not ended. -/
example :
    moveUp "a <base> <baseFONT> <bases> <col\n> </colgroup> <header> <p <i> <hr".toList =
      "a<base><baseFONT> <bases><col\n></colgroup> <header><p <i> <hr".toList := by
  decide +kernel

end HtmlMinifier.BlockTag
