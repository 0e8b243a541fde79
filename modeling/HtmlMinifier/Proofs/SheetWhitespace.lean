import HtmlMinifier.Attribute
import HtmlMinifier.Proofs.SheetReading

/-!
# Whitespace stages on sheets

On a sheet every whitespace stage is one step of the whitespace contract.  Trimming
lines settles the runs of blanks, which lie within texts and within brackets.  The other
stages are followed along the sheet, bracket by bracket: a match of each begins at a
symbol of its own, and what is in front of the next such symbol is kept.
-/

namespace HtmlMinifier

open Alphabet

variable {α : Type} [Alphabet α]

/-! ## Lines -/

/-- Characters are settled alike in every alphabet. -/
theorem BlankRun.settle_spell (text : List Char) :
    settle (spell text : List α) = spell (settle text) := by
  have blank : ∀ c : Char, isBlank (ofChar c : α) = isBlank c := satisfies_ofChar _
  have lineFeed : ∀ c : Char, is '\n' (ofChar c : α) = is '\n' c := satisfies_ofChar _
  induction text using (pattern (α := Char)).induction with
  | nil => simp
  | found text run rest read ih =>
      obtain ⟨-, blanks, stops, rfl⟩ := read_eq_some_iff.mp read
      have blanks' : ∀ a ∈ (spell run : List α), isBlank a = true := by
        simpa [spell, blank] using blanks
      have stops' : ∀ a ∈ (spell rest : List α).head?, isBlank a = false := by
        simpa [spell, blank] using stops
      have settled_spell : settled (spell run : List α) = spell (settled run) := by
        by_cases flat : ∀ c ∈ run, is '\n' c = false
        · have flat' : ∀ a ∈ (spell run : List α), is '\n' a = false := by
            simpa [spell, lineFeed] using flat
          rw [settled_of_forall_not flat, settled_of_forall_not flat']
        · obtain ⟨front, back, rfl, behind⟩ := exists_last flat
          have behind' : ∀ a ∈ (spell back : List α), is '\n' a = false := by
            simpa [spell, lineFeed] using behind
          have starts : Line.startsLine (spell front : List α) = Line.startsLine front := by
            rw [Line.startsLine, Line.startsLine, spell, List.getLast?_map]
            cases front.getLast? with
            | none => rfl
            | some c => exact lineFeed c
          have shape : (spell (front ++ ofChar '\n' :: back) : List α) =
              spell front ++ ofChar '\n' :: spell back := by simp [spell]
          rw [settled_append_cons front behind, shape,
            settled_append_cons (spell front) behind', starts]
          split <;> simp
      have shape : ∀ first second : List Char,
          (spell (first ++ second) : List α) = spell first ++ spell second := by simp [spell]
      rw [settle_run_append blanks stops, shape, shape, settle_run_append blanks' stops',
        settled_spell, ih]
  | kept c text refused ih =>
      have inked : isBlank c = false := by simpa [pattern, read] using refused
      rw [settle_cons inked, spell_cons, settle_cons ((blank c).trans inked), ih, spell_cons]

theorem Tag.settle_inner (tag : Tag) : BlankRun.settle tag.inner = tag.settle.inner := by
  have inked : ∀ c ∈ tag.slash ++ tag.name.letters, isBlank c = false := by
    apply List.forall_mem_append.mpr ⟨?_, fun _ => TagName.isBlank_of_mem⟩
    cases tag <;> simp [slash, isBlank, satisfies]
  rw [inner, BlankRun.settle_append_of_inked inked]
  cases tag with
  | opening name => simp [more, settle, inner, slash, Tag.name]
  | closing name => simp [more, settle, inner, slash, Tag.name]
  | full name attributes =>
      rw [settle, inner, more, more]
      congr 1
      rcases attributes.exists_content_eq_cons with ⟨c, rest, content, inkedHead⟩
      change _ = BlankRun.settle attributes.gap ++ BlankRun.settle attributes.content
      rw [content, BlankRun.settle_append_cons _ inkedHead, BlankRun.settle_cons inkedHead]

/-- A bracket is settled as what stands within is. -/
theorem Bracket.settle_spell_inner (bracket : Bracket) :
    BlankRun.settle (spell bracket.inner : List α) = spell bracket.settle.inner := by
  rw [BlankRun.settle_spell]
  cases bracket with
  | tag written => rw [inner, written.settle_inner]; rfl
  | condition test =>
      have opens : ∀ c ∈ ['!', '-', '-', '['], isBlank c = false := by decide
      have closes : isBlank ']' = false := rfl
      rw [inner, List.append_assoc, BlankRun.settle_append_of_inked opens,
        BlankRun.settle_append_cons _ closes, BlankRun.settle_nil, settle, inner, List.append_assoc]
      rfl
  | endCondition =>
      have inked : ∀ c ∈ endCondition.inner, isBlank c = false := by
        rw [inner]
        decide
      have whole := BlankRun.settle_append_of_inked inked []
      rw [List.append_nil, BlankRun.settle_nil, List.append_nil] at whole
      rw [whole, settle]

/-- A sheet is settled as its text is. -/
theorem Sheet.settle_text (sheet : Sheet α) : BlankRun.settle sheet.text = sheet.settle.text := by
  have open' : isBlank (ofChar '<' : α) = false := by simp [isBlank]
  have close : isBlank (ofChar '>' : α) = false := by simp [isBlank]
  induction sheet with
  | last passage => rfl
  | cons passage bracket rest ih =>
      rw [text, bracket.spell_text_append, BlankRun.settle_append_cons _ open',
        BlankRun.settle_append_cons _ close, ih, bracket.settle_spell_inner, settle, text,
        Bracket.spell_text_append]
      rfl

/-! ## Tags of blocks -/

namespace BlockTag

/-- A mark is read where a letter or an exclamation mark follows the angle bracket. -/
theorem mark_of_ne {c : Char} (other : c ≠ '/') (text : List α) :
    mark (ofChar '<' :: ofChar c :: text) = some ([ofChar '<'], ofChar c :: text) := by
  have refused : Reader.phrase ['<', '/'] (ofChar '<' :: ofChar c :: text) = none := by
    cases read : Reader.phrase ['<', '/'] (ofChar '<' :: ofChar c :: text) with
    | none => rfl
    | some pair =>
        have shape := (Reader.phrase_eq_some_iff.mp read).2
        simp [other] at shape
  have found : Reader.phrase ['<'] (ofChar '<' :: ofChar c :: text) =
      some ([ofChar '<'], ofChar c :: text) := Reader.phrase_eq_some_iff.mpr ⟨rfl, rfl⟩
  rw [mark, refused, found]

theorem mark_tag (tag : Tag) (behind : List α) :
    mark (spell tag.text ++ behind) =
      some (spell ('<' :: tag.slash),
        spell tag.name.letters ++ (spell tag.more ++ ofChar '>' :: behind)) := by
  have lettered : ∀ (name : TagName) (more : List α),
      mark (ofChar '<' :: (spell name.letters ++ more)) =
        some ([ofChar '<'], spell name.letters ++ more) := by
    intro name more
    have other : name.first ≠ '/' := by
      intro same
      have letter := name.isAlpha_first
      rw [same] at letter
      contradiction
    exact mark_of_ne other _
  have shape := (Bracket.tag tag).spell_text_append behind
  change spell tag.text ++ behind = ofChar '<' :: (spell tag.inner ++ ofChar '>' :: behind) at shape
  rw [shape, tag.spell_inner_append]
  cases tag with
  | opening name => exact lettered name _
  | full name attributes => exact lettered name _
  | closing name =>
      have found : Reader.phrase ['<', '/']
          (ofChar '<' :: ofChar '/' :: (spell name.letters ++ ofChar '>' :: behind)) =
          some ([ofChar '<', ofChar '/'], spell name.letters ++ ofChar '>' :: behind) :=
        Reader.phrase_eq_some_iff.mpr ⟨rfl, rfl⟩
      rw [mark]
      simp only [Tag.slash, Tag.name, Tag.more, spell_cons, spell_nil, List.cons_append,
        List.nil_append, found]

theorem isWord_of_mem_names : ∀ listed ∈ names, ∀ c ∈ listed, isWord c = true := by
  decide +kernel

theorem map_toLower_of_mem_names : ∀ listed ∈ names, listed.map Char.toLower = listed := by
  decide +kernel

/-- A whole word is the name of a block if and only if it is one of the listed names, in
whatever case. -/
theorem name_spell {letters : List Char} (word : ∀ c ∈ letters, isWord c = true) {more : List α}
    (ends : endsWord more = true) :
    BlockTag.name (spell letters ++ more) =
      if letters.map Char.toLower ∈ names then some (spell letters, more) else none := by
  have words : ∀ listed ∈ spelled, ∀ c ∈ listed, isWord c = true :=
    fun listed member => isWord_of_mem_names listed (mem_spelled_iff.mp member)
  have lower : ∀ listed ∈ spelled, listed.map Char.toLower = listed :=
    fun listed member => map_toLower_of_mem_names listed (mem_spelled_iff.mp member)
  simp only [name_eq_findSome?, ← mem_spelled_iff]
  generalize spelled = all at words lower
  induction all with
  | nil => rfl
  | cons listed all ih =>
      rcases List.forall_mem_cons.mp words with ⟨inWord, words⟩
      rcases List.forall_mem_cons.mp lower with ⟨lower, lowers⟩
      rw [List.findSome?_cons, Reader.name_spell word inWord ends, lower, ih words lowers]
      by_cases same : letters.map Char.toLower = listed
      · simp [same]
      · simp [same]

theorem name_tag (name : TagName) {more : List α} (ends : endsWord more = true) :
    BlockTag.name (spell name.letters ++ more) =
      if name.isBlock then some (spell name.letters, more) else none := by
  simp [name_spell (fun _ => TagName.isWord_of_mem) ends, TagName.isBlock]

/-- No block has a name with an exclamation mark in front. -/
theorem name_of_exclamation (text : List α) : BlockTag.name (ofChar '!' :: text) = none := by
  have first : ∀ letters ∈ names, letters.head?.any (fun c => !('!'.toLower == c.toLower)) := by
    decide +kernel
  rw [name_eq_findSome?, List.findSome?_eq_none_iff]
  intro letters member
  have listed := mem_spelled_iff.mp member
  obtain ⟨c, head, other⟩ := (Option.any_eq_true _ _).mp (first letters listed)
  obtain ⟨rest, rfl⟩ := List.head?_eq_some_iff.mp head
  have refused : isAnyCase c (ofChar '!' : α) = false :=
    (satisfies_ofChar _ '!').trans ((Bool.not_eq_true' _).mp other)
  simp [Reader.name, Reader.phraseAnyCase, Reader.word, refused]

/-- A bracket of a sheet is the tag of a block when its name is that of one. -/
theorem tag_bracket (bracket : Bracket) (behind : List α) :
    BlockTag.tag (spell bracket.text ++ behind) =
      if bracket.isBlock then some (spell bracket.text, behind) else none := by
  have marked : ∀ rest : List α, BlockTag.tag (ofChar '<' :: ofChar '!' :: rest) = none := by
    intro rest
    simp only [BlockTag.tag, mark_of_ne (by decide : '!' ≠ '/'), name_of_exclamation, bind,
      Option.bind_some, Option.bind_none]
  cases bracket with
  | tag written =>
      have absent : ofChar '>' ∉ (spell written.more : List α) := by
        intro member
        exact written.close_notMem_inner (List.mem_append_right _ (ofChar_mem_spell.mp member))
      have named := name_tag written.name (written.endsWord_spell_more behind)
      change BlockTag.tag (spell written.text ++ behind) =
        if written.name.isBlock then some (spell written.text, behind) else none
      simp only [BlockTag.tag, mark_tag, named, bind, Option.bind_some]
      split
      · rw [Option.bind_some, Reader.upTo_append_cons absent]
        simp [Tag.text, Tag.inner, spell]
      · rfl
  | condition test => exact marked _
  | endCondition => exact marked _

/-- A tag begins with an angle bracket. -/
theorem tag_of_head? {text : List α} (other : ∀ a ∈ text.head?, a ≠ ofChar '<') :
    BlockTag.tag text = none := by
  cases read : BlockTag.tag text with
  | none => rfl
  | some pair =>
      rcases pair with ⟨taken, rest⟩
      rcases tag_eq_some_iff.mp read with ⟨opening, named, _, _, _, marked, _⟩
      simp only [mark] at marked
      split at marked
      next first =>
        rw [Option.some.inj marked] at first
        rw [(Reader.phrase_eq_some_iff.mp first).2] at other
        exact absurd rfl (other _ rfl)
      next =>
        rw [(Reader.phrase_eq_some_iff.mp marked).2] at other
        exact absurd rfl (other _ rfl)

/-- What stands behind a blank and does not end with one goes on with another
symbol. -/
theorem exists_dropWhile_eq_cons {a : α} {text : List α} (blank : isBlank a = true)
    (inked : ∀ b ∈ (a :: text).getLast?, isBlank b = false) :
    ∃ b rest, text.dropWhile isBlank = b :: rest ∧ b ∈ text := by
  cases inner : text.dropWhile isBlank with
  | nil =>
      have blanks : ∀ b ∈ a :: text, isBlank b = true :=
        List.forall_mem_cons.mpr ⟨blank, List.dropWhile_eq_nil_iff.mp inner⟩
      have nonempty := List.cons_ne_nil a text
      have last := inked _ (List.getLast?_eq_some_getLast nonempty)
      exact absurd (blanks _ (List.getLast_mem nonempty)) (Bool.eq_false_iff.mp last)
  | cons b rest =>
      exact ⟨b, rest, rfl, (List.dropWhile_suffix isBlank).subset (by simp [inner])⟩

/-- No match begins in a text that ends with no blank and holds no further bracket. -/
theorem moveUp_append_of_last {first : List α} (inked : ∀ a ∈ first.getLast?, isBlank a = false)
    (absent : ofChar '<' ∉ first.tail) (rest : List α) :
    moveUp (first ++ rest) = first ++ moveUp rest := by
  apply Pattern.replace_append_of_refused
  intro suffix nonempty within
  cases suffix with
  | nil => exact absurd rfl nonempty
  | cons a suffix =>
      change (if isBlank a then BlockTag.tag ((suffix ++ rest).dropWhile isBlank) else none) = none
      split
      next blank =>
        rcases within with ⟨front, rfl⟩
        rw [List.getLast?_append_of_ne_nil _ nonempty] at inked
        rcases exists_dropWhile_eq_cons blank inked with ⟨b, others, inner, member⟩
        apply tag_of_head?
        rw [List.dropWhile_append, inner]
        rintro _ ⟨⟩ rfl
        apply absent
        cases front <;> simp [member]
      next => rfl

theorem moveUp_bracket_append (bracket : Bracket) (behind : List α) :
    moveUp (spell bracket.text ++ behind) = spell bracket.text ++ moveUp behind := by
  apply moveUp_append_of_last
  · intro a last
    have shape : (spell bracket.text : List α) =
        (ofChar '<' :: spell bracket.inner) ++ [ofChar '>'] := by simp [Bracket.text, spell]
    rw [shape, List.getLast?_concat] at last
    obtain rfl := Option.some.inj last
    simp [isBlank]
  · have tail : (spell bracket.text : List α).tail = spell bracket.inner ++ [ofChar '>'] := by
      simp [Bracket.text, spell]
    rw [tail]
    exact bracket.open_notMem_tail

/-- Blanks go in front of a bracket when it is the tag of a block. -/
theorem moveUp_run_append {run : List α} (blanks : ∀ a ∈ run, isBlank a = true)
    (bracket : Bracket) (behind : List α) :
    moveUp (run ++ (spell bracket.text ++ behind)) =
      (if bracket.isBlock then [] else run) ++ (spell bracket.text ++ moveUp behind) := by
  have read : ∀ suffix : List α, suffix ≠ [] → suffix.IsSuffix run →
      pattern.read (suffix ++ (spell bracket.text ++ behind)) =
        if bracket.isBlock then some (spell bracket.text, behind) else none := by
    intro suffix nonempty within
    cases suffix with
    | nil => exact absurd rfl nonempty
    | cons a suffix =>
        obtain ⟨first, others⟩ := List.forall_mem_cons.mp fun b member =>
          blanks b (within.subset member)
        have stops : (spell bracket.text ++ behind).dropWhile isBlank =
            spell bracket.text ++ behind :=
          List.dropWhile_cons_of_neg (by simp [isBlank])
        change (if isBlank a then
          BlockTag.tag ((suffix ++ (spell bracket.text ++ behind)).dropWhile isBlank) else none) = _
        rw [if_pos first, List.dropWhile_append_of_pos others, stops, tag_bracket]
  split at read
  next block =>
    rw [if_pos block, List.nil_append, ← moveUp_bracket_append]
    cases run with
    | nil => rfl
    | cons a run =>
        rw [moveUp, Pattern.replace_of_some (read _ (List.cons_ne_nil a run) List.suffix_rfl),
          moveUp_bracket_append]
        rfl
  next other =>
    rw [if_neg other, ← moveUp_bracket_append]
    exact Pattern.replace_append_of_refused read

/-- Moving up the tags of blocks takes the blanks before them off a sheet. -/
theorem moveUp_sheet (sheet : Sheet α) : moveUp sheet.text = sheet.moveUp.text := by
  induction sheet with
  | last passage =>
      apply Pattern.replace_of_refused
      intro suffix within
      cases suffix with
      | nil => rfl
      | cons a suffix =>
          change (if isBlank a then BlockTag.tag (suffix.dropWhile isBlank) else none) = none
          split
          next =>
            apply tag_of_head?
            intro b first
            have inSuffix := (List.dropWhile_suffix isBlank).subset (List.mem_of_mem_head? first)
            exact (passage.unmarked b (within.subset (List.mem_cons_of_mem a inSuffix))).1
          next => rfl
  | cons passage bracket rest ih =>
      have whole := List.rdropWhile_append_rtakeWhile (p := isBlank) (l := passage.symbols)
      have core : ∀ a ∈ (passage.symbols.rdropWhile isBlank).getLast?, isBlank a = false := by
        intro a last
        rcases List.mem_getLast?_eq_getLast last with ⟨nonempty, rfl⟩
        exact Bool.eq_false_iff.mpr (List.rdropWhile_last_not isBlank _ nonempty)
      have absent : ofChar '<' ∉ (passage.symbols.rdropWhile isBlank).tail := fun member =>
        passage.open_notMem
          ((List.rdropWhile_prefix isBlank _).subset (List.mem_of_mem_tail member))
      rw [Sheet.text]
      conv => lhs; rw [← whole]
      rw [List.append_assoc, moveUp_append_of_last core absent,
        moveUp_run_append (fun _ => List.mem_rtakeWhile_imp), ih, Sheet.moveUp, Sheet.text]
      split
      next => rfl
      next => rw [← List.append_assoc, whole]

end BlockTag

/-! ## The edges of text -/

namespace TextEdge

/-- A match begins with the `>` of a bracket. -/
theorem read_of_ne (a : α) (text : List α) (other : a ≠ ofChar '>') :
    read (a :: text) = none := by
  rw [read, Reader.after?_cons_of_ne '>' other]
  rfl

theorem collapse_append_of_notMem {first : List α} (absent : ofChar '>' ∉ first)
    (rest : List α) : collapse (first ++ rest) = first ++ collapse rest :=
  Pattern.replace_append_of_notMem read_of_ne absent rest

/-- A text between two brackets is what is read there, unless it is empty. -/
theorem read_between {text : List α} (absent : ofChar '<' ∉ text) (behind : List α) :
    read (ofChar '>' :: (text ++ ofChar '<' :: behind)) =
      if text.isEmpty then none else some (text, behind) := by
  have inside : ∀ a ∈ text, (!is '<' a) = true := by
    intro a member
    rw [Bool.not_eq_true', Bool.eq_false_iff, ne_eq, is_iff]
    rintro rfl
    exact absent member
  have stops : ¬ (!is '<' (ofChar '<' : α)) = true := by simp [is]
  have opened : Reader.after? ['>'] (ofChar '>' :: (text ++ ofChar '<' :: behind)) =
      some (text ++ ofChar '<' :: behind) := Reader.after?_eq_some_iff.mpr rfl
  have closed : Reader.after? ['<'] (ofChar '<' :: behind) = some behind :=
    Reader.after?_eq_some_iff.mpr rfl
  have taken : (text ++ ofChar '<' :: behind).takeWhile (fun a => !is '<' a) = text := by
    rw [List.takeWhile_append_of_pos inside,
      List.takeWhile_cons_of_neg (p := fun a => !is '<' a) stops, List.append_nil]
  have left : (text ++ ofChar '<' :: behind).dropWhile (fun a => !is '<' a) =
      ofChar '<' :: behind := by
    rw [List.dropWhile_append_of_pos inside,
      List.dropWhile_cons_of_neg (p := fun a => !is '<' a) stops]
  rw [read, opened]
  simp only [bind, Option.bind_some, taken, left, closed]

/-- No text stands between brackets behind the last one. -/
theorem read_last {text : List α} (absent : ofChar '<' ∉ text) :
    read (ofChar '>' :: text) = none := by
  cases found : read (ofChar '>' :: text) with
  | none => rfl
  | some pair =>
      rcases read_eq_some_iff.mp found with ⟨inside, opened, _, _, closed⟩
      obtain ⟨_, rfl⟩ := List.cons.inj (Reader.after?_eq_some_iff.mp opened)
      have member : ofChar '<' ∈ text.dropWhile (fun a => !is '<' a) := by
        rw [Reader.after?_eq_some_iff.mp closed]
        exact List.mem_cons_self
      exact absurd ((List.dropWhile_suffix _).subset member) absent

/-- Behind a bracket the texts between brackets are softened. -/
theorem collapse_behind_bracket (sheet : Sheet α) :
    collapse (ofChar '>' :: sheet.text) = ofChar '>' :: sheet.softenInner.text := by
  induction sheet with
  | last passage =>
      rw [Sheet.text, collapse, Pattern.replace_cons_of_none (read_last passage.open_notMem),
        Pattern.replace_of_notMem read_of_ne passage.close_notMem]
      rfl
  | cons passage bracket rest ih =>
      have inner : collapse (spell bracket.inner ++ ofChar '>' :: rest.text) =
          spell bracket.inner ++ ofChar '>' :: rest.softenInner.text := by
        rw [collapse_append_of_notMem bracket.close_notMem_inner, ih]
      have read := read_between passage.open_notMem (spell bracket.inner ++ ofChar '>' :: rest.text)
      rw [Sheet.text, bracket.spell_text_append, Sheet.softenInner, Sheet.text,
        bracket.spell_text_append]
      split at read
      next empty =>
        rw [List.isEmpty_iff] at empty
        rw [empty, List.nil_append] at read ⊢
        have between : ofChar '>' ∉ ([ofChar '<'] : List α) := by simp
        have opened := collapse_append_of_notMem between
          (spell bracket.inner ++ ofChar '>' :: rest.text)
        rw [List.singleton_append] at opened
        rw [collapse, Pattern.replace_cons_of_none read, ← collapse, opened, inner,
          Passage.soften, Passage.shorten]
        simp only [empty]
        rfl
      next =>
        rw [collapse, Pattern.replace_of_some read, ← collapse, inner, write, List.cons_append,
          List.append_assoc]
        rfl

/-- Collapsing the edges of texts softens the texts between the brackets of a sheet. -/
theorem collapse_sheet (sheet : Sheet α) : collapse sheet.text = sheet.soften.text := by
  cases sheet with
  | last passage => exact Pattern.replace_of_notMem read_of_ne passage.close_notMem
  | cons passage bracket rest =>
      have closes : ofChar '>' ∉ passage.symbols ++ ofChar '<' :: spell bracket.inner := by
        intro member
        rcases List.mem_append.mp member with inPassage | inBracket
        · exact passage.close_notMem inPassage
        · rcases List.mem_cons.mp inBracket with same | inside
          · simp at same
          · exact bracket.close_notMem_inner inside
      have shape : ∀ behind, passage.symbols ++ (spell bracket.text ++ behind) =
          (passage.symbols ++ ofChar '<' :: spell bracket.inner) ++ ofChar '>' :: behind := by
        intro behind
        rw [bracket.spell_text_append, List.append_assoc, List.cons_append]
      rw [Sheet.text, shape, collapse_append_of_notMem closes, collapse_behind_bracket, ← shape]
      rfl

end TextEdge

/-! ## The first attribute -/

namespace Attribute

/-- A match begins with the `<` of a bracket. -/
theorem read_of_ne (a : α) (text : List α) (other : a ≠ ofChar '<') :
    read (a :: text) = none := by
  rw [read, Reader.after?_cons_of_ne '<' other]
  rfl

theorem reflow_append_of_notMem {first : List α} (absent : ofChar '<' ∉ first) (rest : List α) :
    reflow (first ++ rest) = first ++ reflow rest :=
  Pattern.replace_append_of_notMem read_of_ne absent rest

/-- Where no blank follows the letters behind `<`, nothing is read. -/
theorem read_of_head? {text : List α}
    (inked : ∀ a ∈ (text.dropWhile isNameSymbol).head?, isBlank a = false) :
    read (ofChar '<' :: text) = none := by
  cases found : read (ofChar '<' :: text) with
  | none => rfl
  | some pair =>
      rcases read_eq_some_iff.mp found with ⟨named, tail, opened, _, tailed, _⟩
      rcases List.cons.inj (Reader.after?_eq_some_iff.mp opened) with ⟨_, rfl⟩
      cases behind : text.dropWhile isNameSymbol with
      | nil => simp [behind, readTail] at tailed
      | cons a others =>
          rw [behind] at inked tailed
          simp [readTail, inked a rfl] at tailed

/-- What is true of letters is true of the symbols they are spelled with. -/
theorem satisfies_of_mem_spell {property : Char → Bool} {letters : List Char}
    (holds : ∀ c ∈ letters, property c = true) :
    ∀ a ∈ (spell letters : List α), satisfies property a = true := by
  intro a member
  obtain ⟨c, inLetters, rfl⟩ := List.mem_map.mp member
  exact (satisfies_ofChar _ c).trans (holds c inLetters)

theorem isBlank_spell_of_forall {letters : List Char} (blanks : ∀ c ∈ letters, isBlank c = true) :
    ∀ a ∈ (spell letters : List α), isBlank a = true :=
  satisfies_of_mem_spell blanks

theorem isNameSymbol_spell_of_forall {letters : List Char}
    (symbols : ∀ c ∈ letters, isNameSymbol c = true) :
    ∀ a ∈ (spell letters : List α), isNameSymbol a = true :=
  satisfies_of_mem_spell symbols

/-- What follows a run of blanks is read without them, through its `>`.  Where nothing follows,
the last blank is read. -/
theorem readTail_append {run content : List α} (parted : run ≠ [])
    (blanks : ∀ a ∈ run, isBlank a = true) (nonempty : content ≠ [])
    (begins : (∃ b, isBlank b = true ∧ content = [b]) ∨ ∀ a ∈ content.head?, isBlank a = false)
    (unclosed : ofChar '>' ∉ content) (behind : List α) :
    readTail (run ++ (content ++ ofChar '>' :: behind)) =
      some (content ++ [ofChar '>'], behind) := by
  obtain ⟨a, run, rfl⟩ := List.exists_cons_of_ne_nil parted
  obtain ⟨blank, blanks⟩ := List.forall_mem_cons.mp blanks
  have closes : ∀ c ∈ (ofChar '>' :: behind).head?, isBlank c = false := by
    rintro _ ⟨⟩
    simp [isBlank]
  rw [List.cons_append, readTail, if_pos blank]
  rcases begins with ⟨b, last, rfl⟩ | inked
  · have all : ∀ c ∈ run ++ [b], isBlank c = true :=
      List.forall_mem_append.mpr ⟨blanks, List.forall_mem_singleton.mpr last⟩
    have left : (run ++ ([b] ++ ofChar '>' :: behind)).dropWhile isBlank =
        ofChar '>' :: behind := by
      rw [← List.append_assoc, List.dropWhile_append_of_pos all, dropWhile_eq_self closes]
    have taken : (run ++ ([b] ++ ofChar '>' :: behind)).takeWhile isBlank = run ++ [b] := by
      rw [← List.append_assoc, List.takeWhile_append_of_pos all, takeWhile_eq_nil closes,
        List.append_nil]
    have found := Reader.upTo_append_cons (c := '>') List.not_mem_nil behind
    rw [List.nil_append] at found
    rw [left, taken, found]
    simp
  · have left : (run ++ (content ++ ofChar '>' :: behind)).dropWhile isBlank =
        content ++ ofChar '>' :: behind := by
      rw [List.dropWhile_append_of_pos blanks]
      apply dropWhile_eq_self
      rwa [List.head?_append_of_ne_nil _ nonempty]
    rw [left, Reader.upTo_append_cons unclosed]
    simp [nonempty]

/-- Attributes are read without the blanks before them. -/
theorem readTail_attributes (attributes : Attributes) (behind : List α) :
    readTail (spell attributes.gap ++ (spell attributes.content ++ ofChar '>' :: behind)) =
      some (spell attributes.content ++ [ofChar '>'], behind) := by
  have inked : ∀ a ∈ (spell attributes.content : List α).head?, isBlank a = false := by
    rw [spell, List.head?_map]
    intro a first
    obtain ⟨c, begins, rfl⟩ := Option.map_eq_some_iff.mp first
    exact (satisfies_ofChar _ c).trans (attributes.inked_head c begins)
  apply readTail_append (by simpa [spell] using attributes.gap_ne_nil)
    (isBlank_spell_of_forall attributes.isBlank_of_mem_gap)
    (by simpa [spell] using attributes.content_ne_nil) (.inr inked)
  rw [ofChar_mem_spell]
  exact fun member => (attributes.unmarked '>' member).2 rfl

/-- No blank is a symbol of a name. -/
theorem isNameSymbol_of_isBlank {a : α} (blank : isBlank a = true) : isNameSymbol a = false := by
  have others : ∀ c ∈ [' ', '\t', '\n', '\x0b', '\x0c', '\r'], isNameSymbol c = false := by
    decide
  obtain ⟨c, listed, rfl⟩ := exists_of_isBlank blank
  exact (satisfies_ofChar _ c).trans (others c listed)

/-- A tag is read when its name has letters and hyphens only, and more behind blanks. -/
theorem read_append {name : List α} (nonempty : name ≠ [])
    (symbols : ∀ a ∈ name, isNameSymbol a = true) {text tail rest : List α}
    (tailed : readTail text = some (tail, rest)) :
    read (ofChar '<' :: (name ++ text)) = some (⟨ofChar '<' :: name, tail⟩, rest) := by
  have stops : ∀ a ∈ text.head?, isNameSymbol a = false := by
    cases text with
    | nil => simp
    | cons a text =>
        rintro _ ⟨⟩
        apply isNameSymbol_of_isBlank
        by_contra inked
        rw [readTail, if_neg inked] at tailed
        contradiction
  have taken : (name ++ text).takeWhile isNameSymbol = name := by
    rw [List.takeWhile_append_of_pos symbols, takeWhile_eq_nil stops, List.append_nil]
  refine read_eq_some_iff.mpr ⟨name ++ text, tail, Reader.after?_eq_some_iff.mpr rfl, ?_, ?_, ?_⟩
  · rwa [taken]
  · rwa [List.dropWhile_append_of_pos symbols, dropWhile_eq_self stops]
  · rw [taken]

theorem isNameSymbol_of_all {name : TagName} (letters : name.letters.all Char.isAlpha = true) :
    ∀ c ∈ name.letters, isNameSymbol c = true := by
  intro c inName
  have letter := List.all_eq_true.mp letters c inName
  simp only [isNameSymbol, satisfies, char?_char, letter, Bool.true_or]

theorem spell_full_append (name : TagName) (attributes : Attributes) (behind : List α) :
    spell (Tag.full name attributes).text ++ behind =
      ofChar '<' :: (spell name.letters ++
        (spell attributes.gap ++ (spell attributes.content ++ ofChar '>' :: behind))) := by
  simp [Tag.text, Tag.inner, Tag.slash, Tag.name, Tag.more, spell]

/-- A tag with attributes is read when its name has letters only. -/
theorem read_full {name : TagName} (letters : name.letters.all Char.isAlpha = true)
    (attributes : Attributes) (behind : List α) :
    read (spell (Tag.full name attributes).text ++ behind) =
      some (⟨ofChar '<' :: spell name.letters, spell attributes.content ++ [ofChar '>']⟩,
        behind) := by
  rw [spell_full_append]
  exact read_append (List.cons_ne_nil _ _)
    (isNameSymbol_spell_of_forall (isNameSymbol_of_all letters))
    (readTail_attributes attributes behind)

/-- A name that has other symbols than letters and hyphens is not read to its end. -/
theorem head?_dropWhile_spell {letters : List Char}
    (inked : ∀ c ∈ letters, isBlank c = false)
    (others : ¬ ∀ c ∈ letters, isNameSymbol c = true) (more : List α) :
    ∀ a ∈ ((spell letters ++ more).dropWhile isNameSymbol).head?, isBlank a = false := by
  cases left : (spell letters : List α).dropWhile isNameSymbol with
  | nil =>
      refine absurd (fun c member => ?_) others
      have symbol := List.dropWhile_eq_nil_iff.mp left _ (ofChar_mem_spell.mpr member)
      rwa [isNameSymbol, satisfies_ofChar] at symbol
  | cons d rest =>
      have within : (d :: rest).IsSuffix (spell letters) :=
        left ▸ List.dropWhile_suffix isNameSymbol
      obtain ⟨c, inName, rfl⟩ := List.mem_map.mp (within.subset List.mem_cons_self)
      rw [List.dropWhile_append, left]
      rintro _ ⟨⟩
      exact (satisfies_ofChar _ c).trans (inked c inName)

/-- A name with digits is not read to its end. -/
theorem head?_dropWhile_letters {name : TagName}
    (digits : ¬ name.letters.all Char.isAlpha = true) (more : List α) :
    ∀ a ∈ ((spell name.letters ++ more).dropWhile isNameSymbol).head?, isBlank a = false := by
  apply head?_dropWhile_spell fun _ => TagName.isBlank_of_mem
  intro symbols
  apply digits
  rw [List.all_eq_true]
  intro c member
  have symbol := symbols c member
  have alphanum := name.isAlphanum_of_mem member
  simp only [isNameSymbol, satisfies, char?_char, Bool.or_eq_true, beq_iff_eq] at symbol
  rcases symbol with letter | rfl
  · exact letter
  · contradiction

/-- Where only symbols of a name stand between `<` and `>`, nothing is read. -/
theorem read_name_append {letters : List Char} (symbols : ∀ c ∈ letters, isNameSymbol c = true)
    (behind : List α) : read (ofChar '<' :: (spell letters ++ ofChar '>' :: behind)) = none := by
  apply read_of_head?
  have symbols' := isNameSymbol_spell_of_forall (α := α) symbols
  rw [List.dropWhile_append_of_pos symbols', List.dropWhile_cons_of_neg (by simp [isNameSymbol])]
  rintro _ ⟨⟩
  simp [isBlank]

/-- No attributes are read in a close tag or in a comment. -/
theorem read_of_mark {c : Char} (member : c ∈ ['/', '!']) (text : List α) :
    read (ofChar '<' :: ofChar c :: text) = none := by
  apply read_of_head?
  have stops : isNameSymbol (ofChar c : α) = false ∧ isBlank (ofChar c : α) = false := by
    rw [isNameSymbol, isBlank, satisfies_ofChar, satisfies_ofChar]
    revert c
    decide
  rw [List.dropWhile_cons_of_neg (Bool.eq_false_iff.mp stops.1)]
  rintro _ ⟨⟩
  exact stops.2

/-- No attributes are read in an open tag without any. -/
theorem read_opening (name : TagName) (behind : List α) :
    read (spell (Bracket.tag (.opening name)).text ++ behind) = none := by
  have shape : spell (Bracket.tag (.opening name)).text ++ behind =
      ofChar '<' :: (spell name.letters ++ ofChar '>' :: behind) := by
    simp [Bracket.text, Bracket.inner, Tag.inner, Tag.slash, Tag.name, Tag.more, spell]
  rw [shape]
  by_cases letters : name.letters.all Char.isAlpha = true
  · exact read_name_append (isNameSymbol_of_all letters) behind
  · exact read_of_head? (head?_dropWhile_letters letters _)

/-- A bracket in which no attributes are read stays. -/
theorem reflow_bracket_of_none (bracket : Bracket) {behind : List α}
    (refused : read (spell bracket.text ++ behind) = none) :
    reflow (spell bracket.text ++ behind) = spell bracket.text ++ reflow behind := by
  have tail : spell bracket.text ++ behind =
      ofChar '<' :: ((spell bracket.inner ++ [ofChar '>']) ++ behind) := by
    simp [Bracket.text, spell]
  rw [tail] at refused ⊢
  rw [reflow, Pattern.replace_cons_of_none refused, ← reflow,
    reflow_append_of_notMem bracket.open_notMem_tail]
  simp [Bracket.text, spell]

/-- The attributes of a tag are reflowed where its name has letters only. -/
theorem reflow_bracket_append (bracket : Bracket) (behind : List α) :
    reflow (spell bracket.text ++ behind) = spell bracket.reflow.text ++ reflow behind := by
  cases bracket with
  | condition test =>
      exact reflow_bracket_of_none (.condition test) (read_of_mark (by decide) _)
  | endCondition =>
      exact reflow_bracket_of_none .endCondition (read_of_mark (by decide) _)
  | tag written =>
      cases written with
      | closing name =>
          exact reflow_bracket_of_none (.tag (.closing name)) (read_of_mark (by decide) _)
      | opening name => exact reflow_bracket_of_none _ (read_opening name behind)
      | full name attributes =>
          rw [Bracket.reflow, Tag.reflow]
          split
          next letters =>
            have found := read_full letters attributes behind
            change reflow (spell (Tag.full name attributes).text ++ behind) =
              spell (Tag.full name attributes.reflow).text ++ reflow behind
            rw [reflow, Pattern.replace_of_some found, ← reflow, spell_full_append]
            simp [write, Attributes.reflow]
          next digits =>
            apply reflow_bracket_of_none
            change read (spell (Tag.full name attributes).text ++ behind) = none
            rw [spell_full_append]
            exact read_of_head? (head?_dropWhile_letters digits _)

/-- Reflowing first attributes reflows the brackets of a sheet. -/
theorem reflow_sheet (sheet : Sheet α) : reflow sheet.text = sheet.reflow.text := by
  induction sheet with
  | last passage => exact Pattern.replace_of_notMem read_of_ne passage.open_notMem
  | cons passage bracket rest ih =>
      rw [Sheet.text, reflow_append_of_notMem passage.open_notMem, reflow_bracket_append, ih,
        Sheet.reflow, Sheet.text]

end Attribute

end HtmlMinifier
