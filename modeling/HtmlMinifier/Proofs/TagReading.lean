import HtmlMinifier.Proofs.Contract
import HtmlMinifier.Proofs.OpenTag

/-!
# The names of tags

The names of the tags of a text are read behind each `<`: there may be a slash, and then the
name goes on for as long as there are letters and digits.  Every text has names, whether it
is well-formed or not, and a name may be empty.

What comes behind a name is either a symbol that ends it or nothing.  So names stay when
some blanks take the place of others, and when blanks before a `<` go.  No stage does more to
blanks than that, with one exception: trimming lines also drops blanks with an empty line
among them, whatever stands on both sides.
-/

namespace HtmlMinifier

open Alphabet

/-! ## Reading -/

/-- What stands behind each `<` of a text. -/
def openings : List Char → List (List Char)
  | [] => []
  | c :: text => if c = '<' then text :: openings text else openings text

/-- The name at the front of a text, which may have a slash before it. -/
def tagName : List Char → List Char
  | '/' :: text => text.takeWhile Char.isAlphanum
  | text => text.takeWhile Char.isAlphanum

/-- The names of the tags of a text. -/
def tagNames (text : List Char) : List (List Char) :=
  (openings text).map tagName

/-- Whether a name cannot go on with a character, and cannot begin at it either. -/
def EndsName (c : Char) : Prop :=
  c ≠ '/' ∧ c.isAlphanum = false

theorem endsName_of_isBlank {c : Char} (blank : isBlank c = true) : EndsName c :=
  of_isBlank EndsName (by unfold EndsName; decide) blank

theorem endsName_of_isMargin {c : Char} (margin : isMargin c = true) : EndsName c := by
  by_cases null : c = '\x00'
  · rw [null]
    exact ⟨by decide, by decide⟩
  · exact endsName_of_isBlank (isBlank_of_isMargin margin null)

theorem openings_append (first second : List Char) :
    openings (first ++ second) = (openings first).map (· ++ second) ++ openings second := by
  induction first with
  | nil => rfl
  | cons c first ih =>
      rw [List.cons_append, openings, openings, ih]
      split <;> rfl

theorem openings_of_notMem {text : List Char} (absent : '<' ∉ text) : openings text = [] := by
  induction text with
  | nil => rfl
  | cons c text ih =>
      rw [List.mem_cons, not_or] at absent
      rw [openings, if_neg (Ne.symm absent.1), ih absent.2]

theorem mem_openings_of_isSuffix {rest text : List Char} (within : ('<' :: rest).IsSuffix text) :
    rest ∈ openings text := by
  obtain ⟨front, rfl⟩ := within
  rw [openings_append, openings, if_pos rfl]
  exact List.mem_append_right _ List.mem_cons_self

theorem takeWhile_append_of_stops {test : Char → Bool} {second : List Char}
    (stops : ∀ c ∈ second.head?, test c = false) (first : List Char) :
    (first ++ second).takeWhile test = first.takeWhile test := by
  rw [List.takeWhile_append, takeWhile_eq_nil stops, List.append_nil]
  split
  next all => exact ((List.takeWhile_prefix test).eq_of_length all).symm
  next => rfl

theorem tagName_of_head? {text : List Char} (other : ∀ c ∈ text.head?, c ≠ '/') :
    tagName text = text.takeWhile Char.isAlphanum := by
  unfold tagName
  split
  next rest => exact absurd rfl (other '/' rfl)
  next => rfl

/-- A name does not reach over a symbol that ends it. -/
theorem tagName_append {second : List Char} (stops : ∀ c ∈ second.head?, EndsName c)
    (first : List Char) : tagName (first ++ second) = tagName first := by
  have letters := takeWhile_append_of_stops fun c member => (stops c member).2
  cases first with
  | nil =>
      rw [List.nil_append, tagName_of_head? fun c member => (stops c member).1]
      exact letters []
  | cons c first =>
      by_cases slash : c = '/'
      · rw [slash]
        exact letters first
      · have other : ∀ rest : List Char, ∀ d ∈ (c :: rest).head?, d ≠ '/' := by
          rintro rest d ⟨⟩
          exact slash
        rw [List.cons_append, tagName_of_head? (other _), tagName_of_head? (other _)]
        exact letters (c :: first)

/-- The names of two texts in a row, where no name goes on with the second one. -/
theorem tagNames_append {second : List Char} (stops : ∀ c ∈ second.head?, EndsName c)
    (first : List Char) : tagNames (first ++ second) = tagNames first ++ tagNames second := by
  rw [tagNames, openings_append, List.map_append, List.map_map]
  congr 1
  exact List.map_congr_left fun rest _ => tagName_append stops rest

theorem tagNames_of_notMem {text : List Char} (absent : '<' ∉ text) : tagNames text = [] := by
  rw [tagNames, openings_of_notMem absent, List.map_nil]

theorem open_notMem_of_blanks {run : List Char} (blanks : ∀ c ∈ run, isBlank c = true) :
    '<' ∉ run :=
  fun member => absurd (blanks '<' member) (by decide)

/-- Blanks end a name, and so does a `<`. -/
theorem tagNames_gap {run behind : List Char} (blanks : ∀ c ∈ run, isBlank c = true)
    (parted : run = [] → ∃ rest, behind = '<' :: rest) (before : List Char) :
    tagNames (before ++ (run ++ behind)) = tagNames before ++ tagNames behind := by
  have stops : ∀ c ∈ (run ++ behind).head?, EndsName c := by
    cases run with
    | nil =>
        obtain ⟨rest, rfl⟩ := parted rfl
        rintro c ⟨⟩
        exact ⟨by decide, by decide⟩
    | cons a run =>
        rintro c ⟨⟩
        exact endsName_of_isBlank (blanks a List.mem_cons_self)
  have whole : tagNames (run ++ behind) = tagNames behind := by
    rw [tagNames, openings_append, openings_of_notMem (open_notMem_of_blanks blanks)]
    rfl
  rw [tagNames_append stops, whole]

/-- Where no `<` is dropped at the front of a text, the same stands behind each. -/
theorem openings_dropWhile {test : Char → Bool} (opens : test '<' = false) (text : List Char) :
    openings (text.dropWhile test) = openings text := by
  have dropped : '<' ∉ text.takeWhile test := by
    intro member
    rw [List.mem_takeWhile_imp member] at opens
    contradiction
  conv_rhs => rw [← List.takeWhile_append_dropWhile (p := test) (l := text), openings_append,
    openings_of_notMem dropped]
  rfl

theorem tagNames_dropWhile {test : Char → Bool} (opens : test '<' = false) (text : List Char) :
    tagNames (text.dropWhile test) = tagNames text := by
  rw [tagNames, openings_dropWhile opens, tagNames]

/-- What is dropped at the back of a text has no names and is no part of one. -/
theorem tagNames_rdropWhile {test : Char → Bool} (opens : test '<' = false)
    (ends : ∀ c, test c = true → EndsName c) (text : List Char) :
    tagNames (text.rdropWhile test) = tagNames text := by
  have dropped : ∀ c ∈ text.rtakeWhile test, test c = true := fun _ => List.mem_rtakeWhile_imp
  have unopened : '<' ∉ text.rtakeWhile test := by
    intro member
    rw [dropped '<' member] at opens
    contradiction
  have stops : ∀ c ∈ (text.rtakeWhile test).head?, EndsName c := fun c member =>
    ends c (dropped c (List.mem_of_mem_head? member))
  conv_rhs => rw [← List.rdropWhile_append_rtakeWhile (p := test) (l := text),
    tagNames_append stops, tagNames_of_notMem unopened, List.append_nil]

/-! ## Texts that are read alike -/

/-- A text takes the place of another one, and wherever it stands the names are the same. -/
def ReadAlike (text' text : List Char) : Prop :=
  ∀ before behind, tagNames (before ++ (text' ++ behind)) = tagNames (before ++ (text ++ behind))

namespace ReadAlike

variable {text' text first' first second' second : List Char}

theorem tagNames_eq (alike : ReadAlike text' text) : tagNames text' = tagNames text := by
  simpa using alike [] []

theorem refl (text : List Char) : ReadAlike text text :=
  fun _ _ => rfl

theorem append (front : ReadAlike first' first) (back : ReadAlike second' second) :
    ReadAlike (first' ++ second') (first ++ second) := by
  intro before behind
  rw [List.append_assoc, front, List.append_assoc, ← List.append_assoc, back]
  simp

/-- Blanks take the place of blanks. -/
theorem gap {run' run : List Char} (blanks' : ∀ c ∈ run', isBlank c = true)
    (blanks : ∀ c ∈ run, isBlank c = true) (same : run' = [] ↔ run = []) :
    ReadAlike run' run := by
  by_cases none : run = []
  · rw [none, same.mpr none]
    exact refl []
  · intro before behind
    rw [tagNames_gap blanks' fun none' => absurd (same.mp none') none,
      tagNames_gap blanks fun none' => absurd none' none]

/-- Blanks before a `<` go. -/
theorem drop {run : List Char} (blanks : ∀ c ∈ run, isBlank c = true) (text : List Char) :
    ReadAlike ('<' :: text) (run ++ '<' :: text) := by
  intro before behind
  have nothing : ∀ c ∈ ([] : List Char), isBlank c = true := by simp
  rw [List.append_assoc, List.cons_append, tagNames_gap blanks fun _ => ⟨_, rfl⟩]
  exact tagNames_gap nothing (fun _ => ⟨_, rfl⟩) before

theorem replace {β : Type} {pattern : Pattern Char β} {write : β → List Char}
    (each : ∀ text found rest, pattern.read text = some (found, rest) →
      ∃ matched, text = matched ++ rest ∧ ReadAlike (write found) matched) (text : List Char) :
    ReadAlike (pattern.replace write text) text :=
  Pattern.related_replace ReadAlike refl append each text

end ReadAlike

theorem Margin.joinLines_readAlike (text : List Char) : ReadAlike (joinLines text) text := by
  apply ReadAlike.replace
  intro text found rest read
  exact ⟨_, Pattern.append_of_read_phrase read, ReadAlike.gap (by decide) (by decide) (by decide)⟩

theorem BlockTag.moveUp_readAlike (text : List Char) : ReadAlike (moveUp text) text := by
  apply ReadAlike.replace
  intro text taken rest found
  obtain ⟨run, -, blanks, tagged, shape⟩ := exists_of_read found
  obtain ⟨behind, rfl⟩ := exists_eq_cons_of_tag tagged
  exact ⟨_, shape, ReadAlike.drop blanks behind⟩

theorem TextEdge.collapse_readAlike (text : List Char) : ReadAlike (collapse text) text := by
  refine related_collapse ReadAlike.refl ReadAlike.append (fun run blanks => ?_) text
  refine ReadAlike.gap ((space_respaced blanks).forall_isBlank blanks) blanks ?_
  cases run <;> simp [space]

theorem Attribute.reflow_readAlike (text : List Char) : ReadAlike (reflow text) text := by
  apply ReadAlike.replace
  intro text tag rest found
  obtain ⟨run', run, part, blanks', blanks, nonempty', nonempty, written, whole⟩ :=
    exists_runs_of_read found
  refine ⟨_, whole, ?_⟩
  rw [written]
  exact (ReadAlike.refl tag.head).append
    ((ReadAlike.gap blanks' blanks (iff_of_false nonempty' nonempty)).append (ReadAlike.refl part))

/-! ## Documents in which nothing is set aside -/

/-- The name of a region is read whole. -/
theorem Region.toLower_tagName {region : Region} {text taken rest : List Char}
    (read : Reader.name region.name text = some (taken, rest)) :
    (tagName text).map Char.toLower = region.name := by
  obtain ⟨any, ends⟩ := Reader.name_eq_some_iff.mp read
  obtain ⟨written, same, -, shape⟩ := Reader.phraseAnyCase_eq_some_iff.mp any
  rw [spell_char] at shape
  rw [region.toLower_name] at same
  have letters : ∀ c ∈ written, c.isAlphanum = true := by
    intro c member
    have inName := List.mem_map_of_mem (f := Char.toLower) member
    have all : ∀ d ∈ region.name, d.isAlphanum = true := by cases region <;> decide
    rw [← property_toLower Char.isAlphanum (by decide)]
    exact all _ (same ▸ inName)
  have stops : ∀ c ∈ rest.head?, c.isAlphanum = false := by
    cases rest with
    | nil => simp
    | cons d rest =>
        rintro c ⟨⟩
        have other : isWord d = false := (Bool.not_eq_true' _).mp ends
        exact (Bool.or_eq_false_iff.mp other).1
  have first : ∀ c ∈ text.head?, c ≠ '/' := by
    cases written with
    | nil => exact absurd same (by cases region <;> decide)
    | cons d written =>
        rw [shape]
        rintro c ⟨⟩ rfl
        exact absurd (letters '/' List.mem_cons_self) (by decide)
  rw [tagName_of_head? first, shape, List.takeWhile_append_of_pos letters,
    takeWhile_eq_nil stops, List.append_nil, same]

/-- Names at which no stage sets anything aside or drops it: none of them is empty or that
of a protected region. -/
def PlainNames (names : List (List Char)) : Prop :=
  ∀ name ∈ names, name ≠ [] ∧ ∀ region : Region, name.map Char.toLower ≠ region.name

namespace PlainNames

variable {text : List Char}

/-- A region begins with its name. -/
theorem cut_eq (plain : PlainNames (tagNames text)) (region : Region) :
    region.pattern.cut text = text.map .kept := by
  apply Pattern.cut_of_refused
  intro suffix within
  apply Region.read_of_not_opens
  apply Element.not_opens_of_name
  intro rest opens
  have opened : rest ∈ openings text :=
    mem_openings_of_isSuffix (opens ▸ (List.dropWhile_suffix isBlank).trans within)
  cases read : Reader.name region.name rest with
  | none => rfl
  | some pair =>
      exact absurd (Region.toLower_tagName read)
        ((plain _ (List.mem_map_of_mem opened)).2 region)

/-- A comment begins with no name. -/
theorem strip_eq (plain : PlainNames (tagNames text)) : Comment.strip text = text := by
  apply Comment.strip_of_conditions
  intro inside within
  have member := List.mem_map_of_mem (f := tagName) (mem_openings_of_isSuffix within)
  exact absurd rfl (plain _ member).1

end PlainNames

namespace Draft

variable {draft : Draft}

theorem apply_protect_of_plainNames (plain : PlainNames (tagNames draft.text))
    (region : Region) : draft.apply (.protect region) = draft :=
  apply_of_pieces_eq (plain.cut_eq region)

theorem apply_comments_of_plainNames (plain : PlainNames (tagNames draft.text)) :
    draft.apply .comments = draft := by
  refine apply_of_pieces_eq ?_
  rw [Stage.pieces, plain.strip_eq]

end Draft

/-- The normal form of a document has its names. -/
theorem Margin.tagNames_normalize (text : List Char) :
    tagNames (normalize text) = tagNames text := by
  have ends : ∀ c : Char, isMargin c = true → EndsName c := fun _ => endsName_of_isMargin
  have joined : tagNames (normalize text) = tagNames (Margin.trim text) :=
    (joinLines_readAlike (Margin.trim text)).tagNames_eq
  have stripped : tagNames (Margin.trim text) = tagNames (text.dropWhile isMargin) :=
    tagNames_rdropWhile (by decide) ends _
  rw [joined, stripped, tagNames_dropWhile (by decide)]

/-- Only where lines are trimmed do names change. -/
theorem tagNames_minifyWith_eq_trim {document : String}
    (plain : PlainNames (tagNames document.toList)) (sigil : Sigil) :
    tagNames (minifyWith sigil document).toList =
      tagNames (Line.trim (Margin.normalize document.toList)) := by
  have plain' : PlainNames (tagNames (Margin.normalize document.toList)) := by
    rwa [Margin.tagNames_normalize]
  let normal : Draft := ⟨Margin.normalize document.toList, Table.empty sigil⟩
  have start : (Draft.start sigil document).apply .normalize = normal :=
    Draft.apply_of_pieces_eq rfl
  have protects : ∀ region : Region, normal.apply (.protect region) = normal :=
    Draft.apply_protect_of_plainNames plain'
  have comments : normal.apply .comments = normal := Draft.apply_comments_of_plainNames plain'
  have finish : (Draft.start sigil document).run Stage.order =
      ⟨Attribute.reflow (TextEdge.collapse (BlockTag.moveUp (Line.trim normal.text))),
        Table.empty sigil⟩ := by
    simp only [Stage.order, Draft.run_cons, Draft.run_nil, start, protects, comments]
    simp only [Draft.apply, Stage.pieces, Table.park_map_kept]
    rfl
  rw [minifyWith, finish, Draft.restore, String.toList_ofList, Table.restore_empty,
    (Attribute.reflow_readAlike _).tagNames_eq, (TextEdge.collapse_readAlike _).tagNames_eq,
    (BlockTag.moveUp_readAlike _).tagNames_eq]

end HtmlMinifier
