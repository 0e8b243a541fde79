import HtmlMinifier.Proofs.Polish
import HtmlMinifier.Proofs.TagReading

/-!
# Tags whose names are over

The name of a tag is over at the blanks behind it.  Trimming lines settles these blanks as it
does all others, and does not know that they part a name from what follows.  When the last
line that they close is an empty one they go, and a name runs together with the letters and
digits behind them: an empty line in `<a href=x>` makes it `<ahref=x>`.

Nothing else changes a name.  So in a document whose tags may have any blanks behind their
names, the names stay if and only if none of them runs together with what follows.
-/

namespace HtmlMinifier

open Alphabet

/-! ## Behind each opening -/

/-- A change that goes on behind a `<` as if nothing stood before it changes what stands
behind each one. -/
theorem openings_change {change : List Char → List Char}
    (parts : ∀ first rest, '<' ∉ first → ∃ first', '<' ∉ first' ∧
      change (first ++ '<' :: rest) = first' ++ '<' :: change rest)
    (flat : ∀ text, '<' ∉ text → '<' ∉ change text) (text : List Char) :
    openings (change text) = (openings text).map change := by
  -- The induction looks for the next `<` and carries along what it has passed.
  have behind : ∀ first, '<' ∉ first →
      openings (change (first ++ text)) = (openings text).map change := by
    induction text with
    | nil =>
        intro first absent
        rw [List.append_nil]
        exact openings_of_notMem (flat first absent)
    | cons c text ih =>
        intro first absent
        by_cases opens : c = '<'
        · obtain ⟨first', absent', same⟩ := parts first text absent
          rw [opens, same, openings_append, openings_of_notMem absent', openings, openings,
            if_pos rfl, if_pos rfl, List.map_cons, ← ih [] List.not_mem_nil]
          rfl
        · rw [openings, if_neg opens, List.append_cons]
          refine ih _ fun member => ?_
          rcases List.mem_append.mp member with before | here
          · exact absent before
          · exact opens (List.mem_singleton.mp here).symm
  exact behind [] List.not_mem_nil

theorem openings_rdropWhile {test : Char → Bool} (opens : test '<' = false) (text : List Char) :
    openings (text.rdropWhile test) = (openings text).map (List.rdropWhile test) := by
  apply openings_change
  · intro first rest absent
    exact ⟨first, absent, rdropWhile_append_cons opens first rest⟩
  · intro text absent member
    exact absent ((List.rdropWhile_prefix test text).subset member)

theorem Runwise.openings_eq {change : List Char → List Char} (runwise : Runwise change)
    (text : List Char) :
    openings (change text) = (openings text).map change := by
  have flat : ∀ text, '<' ∉ text → '<' ∉ change text := fun text absent member =>
    absent ((runwise.respaced text).pruned.shortened.mem_of_mem rfl member)
  apply openings_change _ flat
  intro first rest absent
  exact ⟨change first, flat first absent, runwise.append_cons first rfl rest⟩

/-! ## Settled lines -/

/-- The lines of a text with their ends joined and the blanks at their edges settled. -/
def settleLines : List Char → List Char :=
  BlankRun.settle ∘ Margin.joinLines

theorem settleLines_runwise : Runwise settleLines :=
  BlankRun.settle_runwise.comp Margin.joinLines_runwise

/-- Trimmed lines have the names of settled ones. -/
theorem tagNames_trim_normalize (text : List Char) :
    tagNames (Line.trim (Margin.normalize text)) =
      (openings text).map fun rest => tagName (settleLines (rest.rdropWhile isMargin)) := by
  have ends : ∀ c : Char, isBlank c = true → EndsName c := fun _ => endsName_of_isBlank
  have settled : Line.trim (Margin.normalize text) =
      ((settleLines (Margin.trim text)).dropWhile isBlank).rdropWhile isBlank := by
    rw [Line.trim_eq_settle, BlankRun.settle_runwise.rdropWhile,
      BlankRun.settle_runwise.dropWhile]
    rfl
  have opened : openings (Margin.trim text) =
      (openings text).map (List.rdropWhile isMargin) := by
    have dropped : openings (text.dropWhile isMargin) = openings text := openings_dropWhile rfl text
    rw [← dropped]
    exact openings_rdropWhile rfl _
  rw [settled, tagNames_rdropWhile rfl ends, tagNames_dropWhile rfl, tagNames,
    settleLines_runwise.openings_eq, opened, List.map_map, List.map_map]
  rfl

/-- Whether the last line that some blanks close is empty. -/
def EndsInEmptyLine (gap : List Char) : Prop :=
  ∃ front back, Margin.joinLines gap = front ++ '\n' :: '\n' :: back ∧ '\n' ∉ back

theorem Margin.joinLines_ne_nil {text : List Char} (nonempty : text ≠ []) :
    joinLines text ≠ [] := by
  cases text with
  | nil => exact absurd rfl nonempty
  | cons c text =>
      cases read : lineEnd.read (c :: text) with
      | none =>
          rw [joinLines, Pattern.replace_cons_of_none read]
          exact List.cons_ne_nil _ _
      | some pair =>
          rw [joinLines, Pattern.replace_of_some read]
          exact List.cons_ne_nil _ _

theorem BlankRun.settled_eq_nil_iff {run : List Char} (nonempty : run ≠ []) :
    settled run = [] ↔ ∃ front back, run = front ++ '\n' :: '\n' :: back ∧ '\n' ∉ back := by
  constructor
  · intro gone
    by_cases flat : ∀ c ∈ run, is '\n' c = false
    · exact absurd ((settled_of_forall_not flat).symm.trans gone) nonempty
    · obtain ⟨front, back, rfl, behind⟩ := exists_last flat
      rw [settled_append_cons front behind] at gone
      cases front using List.reverseRecOn with
      | nil => simp [Line.startsLine] at gone
      | append_singleton front c _ =>
          have lineFeed : c = '\n' := by
            by_contra other
            simp [Line.startsLine, is_iff, other] at gone
          refine ⟨front, back, by simp [lineFeed], fun member => ?_⟩
          exact absurd (behind '\n' member) (by decide)
  · rintro ⟨front, back, rfl, absent⟩
    have flat : ∀ c ∈ back, is '\n' c = false := by
      intro c member
      rw [Bool.eq_false_iff, ne_eq, is_iff]
      rintro rfl
      exact absent member
    have whole := settled_append_cons (front ++ ['\n']) flat
    rw [ofChar_char, if_pos (by simp [Line.startsLine, is_iff])] at whole
    rwa [List.append_cons]

instance decidableEndsInEmptyLine (gap : List Char) : Decidable (EndsInEmptyLine gap) :=
  decidable_of_iff (gap ≠ [] ∧ BlankRun.settled (Margin.joinLines gap) = []) <| by
    constructor
    · rintro ⟨nonempty, gone⟩
      exact (BlankRun.settled_eq_nil_iff (Margin.joinLines_ne_nil nonempty)).mp gone
    · rintro ⟨front, back, shape, absent⟩
      have joined : Margin.joinLines gap ≠ [] := by simp [shape]
      refine ⟨?_, (BlankRun.settled_eq_nil_iff joined).mpr ⟨front, back, shape, absent⟩⟩
      rintro rfl
      exact joined (Pattern.replace_nil _ _)

/-- Only blanks that end in an empty line go as a whole. -/
theorem settleLines_eq_nil_iff {gap : List Char} (nonempty : gap ≠ [])
    (blanks : ∀ c ∈ gap, isBlank c = true) : settleLines gap = [] ↔ EndsInEmptyLine gap := by
  have blanks' := (Margin.joinLines_respaced gap).forall_isBlank blanks
  rw [settleLines, Function.comp_apply, BlankRun.settle_of_blank blanks']
  exact BlankRun.settled_eq_nil_iff (Margin.joinLines_ne_nil nonempty)

/-! ## Loose documents -/

/-- Attributes with any blanks before them. -/
structure LooseAttributes where
  gap : List Char
  content : List Char
  gap_ne_nil : gap ≠ []
  isBlank_of_mem_gap : ∀ c ∈ gap, isBlank c = true
  unmarked : ∀ c ∈ content, c ≠ '<' ∧ c ≠ '>'
  inked_head : ∀ c ∈ content.head?, isBlank c = false

/-- A tag, perhaps with loose attributes. -/
inductive LooseTag where
  | opening (name : TagName)
  | closing (name : TagName)
  | full (name : TagName) (attributes : LooseAttributes)

namespace LooseTag

def name : LooseTag → TagName
  | opening name => name
  | closing name => name
  | full name _ => name

/-- What stands between the angle brackets of a tag. -/
def inner : LooseTag → List Char
  | opening name => name.letters
  | closing name => '/' :: name.letters
  | full name attributes => name.letters ++ (attributes.gap ++ attributes.content)

def text (tag : LooseTag) : List Char :=
  '<' :: (tag.inner ++ ['>'])

/-- Whether the name of a tag runs together with what follows: the blanks between them end in
an empty line, and a letter or a digit comes next. -/
def RunsTogether : LooseTag → Prop
  | opening _ => False
  | closing _ => False
  | full _ attributes =>
      EndsInEmptyLine attributes.gap ∧ attributes.content.head?.any Char.isAlphanum = true

instance decidableRunsTogether : (tag : LooseTag) → Decidable tag.RunsTogether
  | opening _ => inferInstanceAs (Decidable False)
  | closing _ => inferInstanceAs (Decidable False)
  | full _ attributes =>
      inferInstanceAs (Decidable (EndsInEmptyLine attributes.gap ∧
        attributes.content.head?.any Char.isAlphanum = true))

end LooseTag

/-- A part of a document whose tags have any blanks behind their names. -/
inductive LoosePart where
  | prose (prose : Prose)
  | tag (tag : LooseTag)

namespace LoosePart

/-- A part, as it is written. -/
def text : LoosePart → List Char
  | .prose passage => passage.chars
  | .tag written => written.text

def tag? : LoosePart → Option LooseTag
  | .prose _ => none
  | .tag written => some written

/-- The tags of a document. -/
def tags (parts : List LoosePart) : List LooseTag :=
  parts.filterMap tag?

end LoosePart

/-- A name is read whole, and with the letters and digits right behind it. -/
theorem TagName.tagName_append (name : TagName) (rest : List Char) :
    tagName (name.letters ++ rest) = name.letters ++ rest.takeWhile Char.isAlphanum := by
  have first : ∀ c ∈ (name.letters ++ rest).head?, c ≠ '/' := by
    rintro c ⟨⟩ slash
    have letter := name.isAlpha_first
    rw [slash] at letter
    contradiction
  rw [tagName_of_head? first, List.takeWhile_append_of_pos fun _ => name.isAlphanum_of_mem]

theorem takeWhile_isAlphanum_eq_nil_iff {text : List Char} :
    text.takeWhile Char.isAlphanum = [] ↔ ¬ text.head?.any Char.isAlphanum = true := by
  cases text with
  | nil => simp
  | cons c text => simp [List.takeWhile_cons]

namespace LooseTag

theorem open_notMem_inner (tag : LooseTag) : '<' ∉ tag.inner := by
  intro member
  have unnamed : ∀ {name : TagName}, '<' ∉ name.letters :=
    fun {name} member => (name.unmarked '<' member).1 rfl
  cases tag with
  | opening name => exact unnamed member
  | closing name => exact unnamed (List.mem_of_ne_of_mem (by decide) member)
  | full name attributes =>
      rcases List.mem_append.mp member with inName | further
      · exact unnamed inName
      · rcases List.mem_append.mp further with inGap | inContent
        · exact open_notMem_of_blanks attributes.isBlank_of_mem_gap inGap
        · exact (attributes.unmarked '<' inContent).1 rfl

theorem tagName_inner (tag : LooseTag) : tagName tag.inner = tag.name.letters := by
  cases tag with
  | opening name =>
      have whole := name.tagName_append []
      rwa [List.append_nil, List.takeWhile_nil, List.append_nil] at whole
  | closing name => exact List.takeWhile_eq_self_iff.mpr fun _ => name.isAlphanum_of_mem
  | full name attributes =>
      have ended : (attributes.gap ++ attributes.content).takeWhile Char.isAlphanum = [] := by
        apply takeWhile_eq_nil
        intro c first
        rw [List.head?_append_of_ne_nil _ attributes.gap_ne_nil] at first
        have blank := attributes.isBlank_of_mem_gap c (List.mem_of_mem_head? first)
        exact (endsName_of_isBlank blank).2
      rw [inner, name.tagName_append, ended, List.append_nil]
      rfl

/-- The name of a tag is still read when lines have been settled, unless it runs together
with what follows. -/
theorem tagName_settleLines_inner_iff (tag : LooseTag) :
    tagName (settleLines tag.inner) = tag.name.letters ↔ ¬ tag.RunsTogether := by
  have named : ∀ (name : TagName) (rest : List Char),
      settleLines (name.letters ++ rest) = name.letters ++ settleLines rest := fun name =>
    settleLines_runwise.append_of_inked fun _ => name.isBlank_of_mem
  have whole : ∀ name : TagName, settleLines name.letters = name.letters := by
    intro name
    simpa [settleLines_runwise.nil] using named name []
  cases tag with
  | opening name =>
      have same := (opening name).tagName_inner
      rw [inner] at same ⊢
      rw [whole name, same]
      simp [RunsTogether]
  | closing name =>
      have same := (closing name).tagName_inner
      rw [inner] at same ⊢
      rw [settleLines_runwise.cons rfl, whole name, same]
      simp [RunsTogether]
  | full name attributes =>
      rw [inner, named, name.tagName_append, settleLines_runwise.append_of_stops _
        attributes.inked_head, LooseTag.name, List.append_right_eq_self,
        takeWhile_isAlphanum_eq_nil_iff, RunsTogether,
        ← settleLines_eq_nil_iff attributes.gap_ne_nil attributes.isBlank_of_mem_gap]
      refine not_congr ?_
      have blanks := (settleLines_runwise.respaced attributes.gap).forall_isBlank
        attributes.isBlank_of_mem_gap
      cases gone : settleLines attributes.gap with
      | nil =>
          rw [List.nil_append, settleLines_runwise.head?_eq attributes.inked_head]
          simp
      | cons d rest =>
          have stops : d.isAlphanum = false :=
            (endsName_of_isBlank (blanks d (by simp [gone]))).2
          simp [stops]

end LooseTag

namespace LoosePart

/-- What is read behind each opening of a document is read of its tags. -/
theorem map_openings {read : List Char → List Char} {result : LooseTag → List Char}
    (each : ∀ tag rest, read (tag.inner ++ '>' :: rest) = result tag) (parts : List LoosePart) :
    (openings (parts.flatMap text)).map read = (tags parts).map result := by
  induction parts with
  | nil => rfl
  | cons part parts ih =>
      rw [List.flatMap_cons, openings_append, List.map_append, ih]
      cases part with
      | prose passage =>
          have absent : '<' ∉ (prose passage).text := fun member =>
            (passage.unmarked '<' member).1 rfl
          rw [openings_of_notMem absent]
          rfl
      | tag written =>
          have opened : openings (tag written).text = [written.inner ++ ['>']] := by
            have absent : '<' ∉ written.inner ++ ['>'] := by
              simp [written.open_notMem_inner]
            rw [text, LooseTag.text, openings, if_pos rfl, openings_of_notMem absent]
          rw [opened]
          simp [tags, tag?, each]

end LoosePart

/-! ## Every run -/

section Runs

variable {parts : List LoosePart} {document : String}
variable (written : document.toList = parts.flatMap LoosePart.text)
include written

theorem tagNames_eq_names :
    tagNames document.toList = (LoosePart.tags parts).map fun tag => tag.name.letters := by
  rw [tagNames, written]
  refine LoosePart.map_openings (fun tag rest => ?_) parts
  have stops : ∀ c ∈ ('>' :: rest).head?, EndsName c := by
    rintro c ⟨⟩
    exact ⟨by decide, by decide⟩
  rw [tagName_append stops, tag.tagName_inner]

theorem tagNames_trim_normalize_eq_names :
    tagNames (Line.trim (Margin.normalize document.toList)) =
      (LoosePart.tags parts).map fun tag => tagName (settleLines tag.inner) := by
  rw [tagNames_trim_normalize, written]
  refine LoosePart.map_openings (fun tag rest => ?_) parts
  have stops : ∀ c ∈ ('>' :: settleLines (rest.rdropWhile isMargin)).head?, EndsName c := by
    rintro c ⟨⟩
    exact ⟨by decide, by decide⟩
  rw [rdropWhile_append_cons rfl, settleLines_runwise.append_cons _ rfl, tagName_append stops]

end Runs

/-- In a document whose tags have any blanks behind their names, minifying preserves the names
if and only if none of them runs together with what follows: with a letter or a digit behind
blanks that end in an empty line. -/
theorem tagNames_minifyWith_eq_iff {parts : List LoosePart} {document : String}
    (written : document.toList = parts.flatMap LoosePart.text) (sigil : Sigil) :
    tagNames document.toList = (LoosePart.tags parts).map (fun tag => tag.name.letters) ∧
      (tagNames (minifyWith sigil document).toList = tagNames document.toList ↔
        ∀ tag ∈ LoosePart.tags parts, ¬ tag.RunsTogether) := by
  have names := tagNames_eq_names written
  have plain : PlainNames (tagNames document.toList) := by
    intro name member
    rw [names, List.mem_map] at member
    obtain ⟨tag, -, rfl⟩ := member
    exact ⟨List.cons_ne_nil _ _, tag.name.plain⟩
  refine ⟨names, ?_⟩
  rw [tagNames_minifyWith_eq_trim plain, tagNames_trim_normalize_eq_names written, names,
    List.map_inj_left]
  exact forall₂_congr fun tag _ => tag.tagName_settleLines_inner_iff

/-- A line end before a letter and an empty line before a slash run no name together. -/
theorem LoosePart.exists_rule :
    ∃ parts, "<p\r\n class=x>y</p><hr\n\n/>".toList = parts.flatMap text ∧
      ∀ tag ∈ tags parts, ¬ tag.RunsTogether := by
  let paragraph : TagName :=
    ⟨'p', [], by decide, by decide, fun region => by cases region <;> decide⟩
  let rule : TagName :=
    ⟨'h', ['r'], by decide, by decide, fun region => by cases region <;> decide⟩
  refine ⟨[.tag (.full paragraph ⟨['\r', '\n', ' '], "class=x".toList, by decide, by decide,
      by decide, by rintro _ ⟨⟩; rfl⟩),
    .prose ⟨['y'], by decide⟩, .tag (.closing paragraph),
    .tag (.full rule ⟨['\n', '\n'], ['/'], by decide, by decide, by decide,
      by rintro _ ⟨⟩; rfl⟩)], ?_⟩
  decide +kernel

/-- So both names stay. -/
theorem tagNames_minifyWith_rule :
    (∃ parts : List LoosePart,
      "<p\r\n class=x>y</p><hr\n\n/>".toList = parts.flatMap LoosePart.text) ∧
      tagNames (minifyWith ⟨0⟩ "<p\r\n class=x>y</p><hr\n\n/>").toList =
        tagNames "<p\r\n class=x>y</p><hr\n\n/>".toList := by
  obtain ⟨parts, written, apart⟩ := LoosePart.exists_rule
  exact ⟨⟨parts, written⟩, (tagNames_minifyWith_eq_iff written ⟨0⟩).2.mpr apart⟩

/-- An empty line before an attribute is taken out, and an element becomes another one. -/
theorem tagNames_minify_ne_of_emptyLine :
    (∃ parts : List LoosePart,
      "<a\n\nhref=\"x\">y</a>".toList = parts.flatMap LoosePart.text) ∧
      minify "<a\n\nhref=\"x\">y</a>" = "<ahref=\"x\">y</a>" ∧
      tagNames "<a\n\nhref=\"x\">y</a>".toList = [['a'], ['a']] ∧
      tagNames (minify "<a\n\nhref=\"x\">y</a>").toList = [['a', 'h', 'r', 'e', 'f'], ['a']] := by
  let anchor : TagName :=
    ⟨'a', [], by decide, by decide, fun region => by cases region <;> decide⟩
  refine ⟨⟨[.tag (.full anchor ⟨['\n', '\n'], "href=\"x\"".toList, by decide, by decide,
      by decide, by rintro _ ⟨⟩; rfl⟩),
    .prose ⟨['y'], by decide⟩, .tag (.closing anchor)], by decide⟩, ?_⟩
  decide +kernel

end HtmlMinifier
