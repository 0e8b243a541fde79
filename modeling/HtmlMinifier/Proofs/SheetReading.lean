import HtmlMinifier.Comment
import HtmlMinifier.Proofs.Seam
import HtmlMinifier.Proofs.Sheet

/-!
# Reading sheets

Each `<` of a sheet begins a bracket, and the name of a tag is read as the name that it
is.  So the readers of regions find nothing on a sheet, and the comments that they find
are conditions.  What is dropped at the ends of the text of a sheet is dropped from its
first and its last text.
-/

namespace HtmlMinifier

open Alphabet

/-! ## Lists -/

/-- Taking more off both ends of a text later makes no difference to taking it off
at once. -/
theorem rdropWhile_dropWhile_of_imp {α : Type} {narrow wide : α → Bool} {text : List α}
    (imp : ∀ a ∈ text, narrow a = true → wide a = true) :
    (((text.dropWhile narrow).rdropWhile narrow).dropWhile wide).rdropWhile wide =
      (text.dropWhile wide).rdropWhile wide := by
  have fronts := List.takeWhile_append_dropWhile (p := narrow) (l := text)
  have backs := List.rdropWhile_append_rtakeWhile (p := narrow) (l := text.dropWhile narrow)
  have front : ∀ a ∈ text.takeWhile narrow, wide a = true := fun a member =>
    imp a ((List.takeWhile_prefix narrow).subset member) (List.mem_takeWhile_imp member)
  have back : ∀ a ∈ (text.dropWhile narrow).rtakeWhile narrow, wide a = true := fun a member =>
    imp a ((List.dropWhile_suffix narrow).subset ((List.rtakeWhile_suffix narrow _).subset member))
      (List.mem_rtakeWhile_imp member)
  generalize (text.dropWhile narrow).rdropWhile narrow = middle at backs ⊢
  rw [← fronts, List.dropWhile_append_of_pos front, ← backs, List.dropWhile_append]
  split
  next none =>
    rw [List.dropWhile_eq_nil_iff.mpr back, List.isEmpty_iff.mp none]
  next =>
    have reversed : ∀ a ∈ ((text.dropWhile narrow).rtakeWhile narrow).reverse, wide a = true := by
      simpa using back
    rw [List.rdropWhile, List.rdropWhile, List.reverse_append,
      List.dropWhile_append_of_pos reversed]

variable {α : Type} [Alphabet α]

/-- Different characters are written with different symbols. -/
theorem Alphabet.spell_injective : Function.Injective (spell : List Char → List α) :=
  List.map_injective_iff.mpr fun _ _ => ofChar_inj.mp

/-! ## Names -/

theorem Alphabet.isWord_toLower (c : Char) : isWord c.toLower = isWord c :=
  property_toLower isWord (by decide) c

/-- A whole word is read as the name that it is, in whatever case. -/
theorem Reader.name_spell {letters phrase : List Char} {more : List α}
    (inName : ∀ c ∈ letters, isWord c = true) (inPhrase : ∀ c ∈ phrase, isWord c = true)
    (ends : endsWord more = true) :
    name phrase (spell letters ++ more) =
      if letters.map Char.toLower = phrase.map Char.toLower then some (spell letters, more)
      else none := by
  have stops : ∀ {c : Char} {rest : List α}, isWord c = true →
      ¬ endsWord (ofChar c :: rest) = true := by
    intro c rest inWord ends
    have other : (!isWord (ofChar c : α)) = true := ends
    rw [isWord, satisfies_ofChar] at other
    exact absurd inWord (Bool.eq_false_iff.mp ((Bool.not_eq_true' _).mp other))
  split
  next same =>
    exact name_eq_some_iff.mpr ⟨phraseAnyCase_eq_some_iff.mpr ⟨letters, same, rfl, rfl⟩, ends⟩
  next other =>
    cases read : name phrase (spell letters ++ more) with
    | none => rfl
    | some pair =>
        rcases pair with ⟨taken, rest⟩
        rcases name_eq_some_iff.mp read with ⟨any, ends'⟩
        obtain ⟨written, same, _, shape⟩ := phraseAnyCase_eq_some_iff.mp any
        -- Where one of the two names is longer, its next symbol is a word symbol.
        rcases List.append_eq_append_iff.mp shape with ⟨next, longer, rfl⟩ | ⟨next, longer, rfl⟩
        · obtain ⟨front, back, rfl, same', rfl⟩ := List.map_eq_append_iff.mp longer
          obtain rfl := spell_injective same'
          cases back with
          | nil => exact absurd (by simpa using same) other
          | cons c back =>
              have member : c.toLower ∈ phrase.map Char.toLower := by
                rw [← same]
                simp
              rcases List.mem_map.mp member with ⟨d, known, lower⟩
              have inWord : isWord c = true := by
                rw [← isWord_toLower, ← lower, isWord_toLower]
                exact inPhrase d known
              exact absurd ends (stops inWord)
        · obtain ⟨front, back, letters_eq, shorter, rfl⟩ := List.map_eq_append_iff.mp longer
          obtain rfl := spell_injective shorter
          cases back with
          | nil => exact absurd (by simpa [letters_eq] using same) other
          | cons c back =>
              have inWord : isWord c = true := inName c (by simp [letters_eq])
              exact absurd ends' (stops inWord)

namespace TagName

theorem isWord_of_mem {name : TagName} {c : Char} (member : c ∈ name.letters) :
    isWord c = true := by
  simp only [isWord, satisfies, char?_char, name.isAlphanum_of_mem member, Bool.true_or]

end TagName

namespace Region

theorem isWord_of_mem_name {region : Region} {c : Char} (member : c ∈ region.name) :
    isWord c = true := by
  revert c
  cases region <;> decide

theorem name_injective : Function.Injective name := by
  intro first second same
  cases first <;> cases second <;> first | rfl | exact absurd same (by decide)

/-- No name of a region begins with a slash or an exclamation mark. -/
theorem read_name_of_mem (region : Region) {c : Char} (listed : c ∈ ['/', '!']) (text : List α) :
    Reader.name region.name (ofChar c :: text) = none := by
  revert c
  cases region <;> simp [Reader.name, Reader.phraseAnyCase, name, Reader.word, isAnyCase]

end Region

/-! ## Ends -/

namespace Sheet

theorem text_mapFirst_dropFront {test : α → Bool} (opens : test (ofChar '<') = false)
    (sheet : Sheet α) :
    (sheet.mapFirst (Passage.dropFront test)).text = sheet.text.dropWhile test := by
  cases sheet with
  | last passage => rfl
  | cons passage bracket rest => exact (dropWhile_append_cons opens passage.symbols _).symm

theorem text_mapLast_dropBack {test : α → Bool} (closes : test (ofChar '>') = false)
    (sheet : Sheet α) :
    (sheet.mapLast (Passage.dropBack test)).text = sheet.text.rdropWhile test := by
  induction sheet with
  | last passage => rfl
  | cons passage bracket rest ih =>
      have shape : ∀ behind : List α, passage.symbols ++ (spell bracket.text ++ behind) =
          (passage.symbols ++ ofChar '<' :: spell bracket.inner) ++ ofChar '>' :: behind := by
        intro behind
        rw [bracket.spell_text_append, List.append_assoc, List.cons_append]
      rw [mapLast, text, text, ih, shape, shape, rdropWhile_append_cons closes]

/-- A sheet is stripped as its text is. -/
theorem text_strip {test : α → Bool} (opens : test (ofChar '<') = false)
    (closes : test (ofChar '>') = false) (sheet : Sheet α) :
    (sheet.strip test).text = (sheet.text.dropWhile test).rdropWhile test := by
  rw [strip, text_mapLast_dropBack closes, text_mapFirst_dropFront opens]

/-! ## Regions and comments -/

/-- Every `<` of a sheet begins a bracket. -/
theorem exists_bracket_of_text_eq {sheet : Sheet α} {front rest : List α}
    (shape : sheet.text = front ++ ofChar '<' :: rest) :
    ∃ bracket : Bracket, ∃ behind, ofChar '<' :: rest = spell bracket.text ++ behind := by
  induction sheet generalizing front with
  | last passage =>
      have member : ofChar '<' ∈ passage.symbols := by
        change passage.symbols = _ at shape
        simp [shape]
      exact absurd member passage.open_notMem
  | cons passage bracket sheet ih =>
      rcases exists_of_append_eq_append_cons passage.open_notMem shape with ⟨front, _, shape⟩
      rw [bracket.spell_text_append] at shape
      cases front with
      | nil => exact ⟨bracket, sheet.text, by rw [bracket.spell_text_append]; exact shape.symm⟩
      | cons c front =>
          rcases List.cons.inj shape with ⟨_, shape⟩
          rw [List.append_cons] at shape
          obtain ⟨front, _, shape⟩ := exists_of_append_eq_append_cons bracket.open_notMem_tail shape
          exact ih shape

theorem exists_bracket_of_suffix {sheet : Sheet α} {rest : List α}
    (suffix : (ofChar '<' :: rest).IsSuffix sheet.text) :
    ∃ bracket : Bracket, ∃ behind, ofChar '<' :: rest = spell bracket.text ++ behind := by
  rcases suffix with ⟨front, shape⟩
  exact exists_bracket_of_text_eq shape.symm

end Sheet

/-- The name of a tag ends where its letters end. -/
theorem Tag.endsWord_spell_more (tag : Tag) (behind : List α) :
    endsWord (spell tag.more ++ ofChar '>' :: behind) = true := by
  cases tag with
  | opening name => simp [more, endsWord, isWord]
  | closing name => simp [more, endsWord, isWord]
  | full name attributes =>
      cases gap : attributes.gap with
      | nil => exact absurd gap attributes.gap_ne_nil
      | cons c rest =>
          have blank := attributes.isBlank_of_mem_gap c (by simp [gap])
          have ends := of_isBlank (fun c => (!isWord c) = true) (by decide) blank
          rw [more, gap]
          change (!isWord (ofChar c : α)) = true
          rw [isWord, satisfies_ofChar]
          exact ends

theorem Tag.spell_inner_append (tag : Tag) (behind : List α) :
    spell tag.inner ++ ofChar '>' :: behind =
      spell tag.slash ++ (spell tag.name.letters ++ (spell tag.more ++ ofChar '>' :: behind)) := by
  simp [inner, spell]

/-- No bracket is the open tag of a region. -/
theorem Bracket.read_region (bracket : Bracket) (region : Region) (behind : List α) :
    Reader.name region.name (spell bracket.inner ++ ofChar '>' :: behind) = none := by
  have tagged : ∀ tag : Tag, Reader.name region.name
      (spell tag.name.letters ++ (spell tag.more ++ ofChar '>' :: behind)) = none := by
    intro tag
    have other : tag.name.letters.map Char.toLower ≠ region.name := tag.name.plain region
    rw [Reader.name_spell (fun _ => TagName.isWord_of_mem) (fun _ => Region.isWord_of_mem_name)
      (tag.endsWord_spell_more behind), region.toLower_name, if_neg other]
  cases bracket with
  | tag written =>
      rw [inner, written.spell_inner_append]
      cases written with
      | opening name => exact tagged (.opening name)
      | closing name => exact region.read_name_of_mem (by decide) _
      | full name attributes => exact tagged (.full name attributes)
  | condition test => exact region.read_name_of_mem (by decide) _
  | endCondition => exact region.read_name_of_mem (by decide) _

/-- A sheet holds no region. -/
theorem Region.cut_sheet (region : Region) (sheet : Sheet α) :
    region.pattern.cut sheet.text = sheet.text.map .kept := by
  apply Pattern.cut_of_refused
  intro suffix within
  apply read_of_not_opens
  apply Element.not_opens_of_name
  intro rest opens
  have deeper : (ofChar '<' :: rest).IsSuffix sheet.text :=
    opens ▸ (List.dropWhile_suffix isBlank).trans within
  rcases Sheet.exists_bracket_of_suffix deeper with ⟨bracket, behind, shape⟩
  rw [bracket.spell_text_append] at shape
  rw [(List.cons.inj shape).2, bracket.read_region]

namespace Comment

/-- Nothing is stripped of a text whose comments are all conditions. -/
theorem strip_of_conditions {text : List α}
    (conditions : ∀ inside : List α, (spell Markup.commentOpen ++ inside).IsSuffix text →
      ∃ rest, inside = ofChar '[' :: rest) : strip text = text := by
  induction text using (pattern (α := α)).induction with
  | nil => exact strip_nil
  | found text content rest found ih =>
      obtain ⟨inside, split, opened, closed, rfl, rfl⟩ := read_eq_some_iff.mp found
      obtain rfl := Reader.after?_eq_some_iff.mp opened
      have shape := Reader.append_of_upTo_phrase closed
      obtain ⟨behind, bracket⟩ := conditions inside List.suffix_rfl
      have conditional : isConditional split.before = true := by
        cases start : split.before with
        | nil =>
            rw [shape, start] at bracket
            simp [Markup.commentClose] at bracket
        | cons a before =>
            rw [shape, start] at bracket
            obtain ⟨rfl, _⟩ := List.cons.inj bracket
            have front : Reader.after? ['['] (ofChar '[' :: before) = some before :=
              Reader.after?_eq_some_iff.mpr rfl
            simp [isConditional, front]
      have within : split.rest.IsSuffix (spell Markup.commentOpen ++ inside) := by
        rw [shape]
        exact ⟨spell Markup.commentOpen ++ (split.before ++ spell Markup.commentClose), by simp⟩
      have rest := ih fun inside inner => conditions inside (inner.trans within)
      rw [strip] at rest ⊢
      rw [Pattern.replace_of_some found, rest, residue, if_pos conditional, List.append_assoc,
        List.append_assoc]
      conv_rhs => rw [shape]
      simp
  | kept a text refused ih =>
      have rest := ih fun inside inner => conditions inside (inner.trans (List.suffix_cons a text))
      rw [strip] at rest ⊢
      rw [Pattern.replace_cons_of_none refused, rest]

end Comment

/-- A bracket that opens a comment is a condition. -/
theorem Bracket.exists_of_commentOpen {bracket : Bracket} {behind inside : List α}
    (shape : spell bracket.text ++ behind = spell Markup.commentOpen ++ inside) :
    ∃ rest, inside = ofChar '[' :: rest := by
  rw [bracket.spell_text_append] at shape
  cases bracket with
  | tag written =>
      obtain ⟨c, others, inner, start⟩ := written.exists_inner_eq_cons
      rw [Bracket.inner, inner] at shape
      obtain ⟨same, _⟩ := List.cons.inj (List.cons.inj shape).2
      rw [ofChar_inj.mp same] at start
      exact absurd start (by decide)
  | condition test =>
      simp only [Bracket.inner, Markup.commentOpen, spell, List.map_append, List.map_cons,
        List.map_nil, List.cons_append, List.nil_append, List.cons.injEq, true_and] at shape
      exact ⟨_, shape.symm⟩
  | endCondition =>
      simp [Bracket.inner, Markup.commentOpen] at shape

/-- The comments of a sheet are conditions. -/
theorem Comment.strip_sheet (sheet : Sheet α) : Comment.strip sheet.text = sheet.text := by
  apply strip_of_conditions
  intro inside within
  obtain ⟨bracket, behind, shape⟩ := Sheet.exists_bracket_of_suffix within
  exact Bracket.exists_of_commentOpen shape.symm

end HtmlMinifier
