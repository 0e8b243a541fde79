import HtmlMinifier.Proofs.ScriptBody

/-!
# Elements that are kept to the symbol

A preformatted text or a text area is set aside as it is written, but not before scripts,
style sheets and comments have been taken out of the document.  It survives to the symbol
when nothing that is taken out earlier is opened in it or before it.  What follows it may
be anything: a stage goes through a text from left to right, and what it finds behind the
element does not reach back over the `>` of the close tag.

For preformatted text nothing else is asked for.  A text area can hold what the earlier
stages react to, and then its text is not kept: a comment within it is dropped.
-/

namespace HtmlMinifier

open Alphabet

/-! ## What stages look for -/

/-- A word that holds a symbol at its front at most stands before such a symbol, at it or
behind it. -/
theorem isInfix_append_cons {β : Type} {a b : β} {letters front back : List β}
    (absent : a ∉ letters) (inside : (b :: letters).IsInfix (front ++ a :: back)) :
    (b :: letters).IsInfix front ∨ (b :: letters).IsPrefix (a :: back) ∨
      (b :: letters).IsInfix back := by
  rcases List.infix_append_iff_ne_nil.mp inside with
    before | behind | ⟨first, second, first_ne_nil, second_ne_nil, halves, _, start⟩
  · exact Or.inl before
  · exact Or.inr (List.infix_cons_iff.mp behind)
  · -- a word that reaches over the symbol would hold it behind its first letter
    obtain ⟨c, first, rfl⟩ := List.exists_cons_of_ne_nil first_ne_nil
    obtain ⟨d, second, rfl⟩ := List.exists_cons_of_ne_nil second_ne_nil
    obtain rfl := (List.cons_prefix_cons.mp start).1
    obtain ⟨-, rfl⟩ := List.cons.inj halves
    exact absurd (List.mem_append_right first List.mem_cons_self) absent

/-- The word that opens what a stage takes out of a document, for the stages that look for
one. -/
def Stage.opener? : Stage → Option (List Char)
  | normalize => none
  | protect region => some (Markup.openTag region.name)
  | comments => some Markup.commentOpen
  | lines => none
  | blocks => none
  | texts => none
  | attributes => none

section Openers

variable {α : Type} [Alphabet α] {front : List Char}

/-- Where no region of a kind is opened before a `>`, none is read before it. -/
theorem Region.read_append_close {region : Region}
    (unopened : ¬ (Markup.openTag region.name).IsInfix (front.map Char.toLower))
    {suffix : List α} (within : suffix.IsSuffix (spell front)) (rest : List α) :
    region.pattern.read (suffix ++ ofChar '>' :: rest) = none := by
  apply read_of_not_opens
  by_cases blanks : ∀ a ∈ suffix, isBlank a = true
  · apply Element.not_opens_of_name
    intro inTag shape
    rw [List.dropWhile_append_of_pos blanks,
      List.dropWhile_cons_of_neg (by simp [isBlank])] at shape
    simp at shape
  · have inked : ∃ b ∈ suffix, isBlank b = false := by simpa using blanks
    exact not_opens_append_cons unopened within inked (by simp [isMark]) rest

/-- Where no comment is opened before a `>`, none is read before it. -/
theorem Comment.read_append_close (unopened : ¬ Markup.commentOpen.IsInfix front)
    {suffix : List α} (within : suffix.IsSuffix (spell front)) (rest : List α) :
    pattern.read (suffix ++ ofChar '>' :: rest) = none := by
  have seam : Reader.phrase Markup.commentOpen (suffix ++ ofChar '>' :: rest) =
      (Reader.phrase Markup.commentOpen suffix).map (Reader.extend (ofChar '>' :: rest)) := by
    apply Reader.word_append
    rintro _ ⟨⟩
    simp [Markup.commentOpen, is]
  have refused : Reader.phrase Markup.commentOpen suffix = none := by
    rw [Option.eq_none_iff_forall_ne_some]
    rintro ⟨taken, behind⟩ read
    rw [(Reader.phrase_eq_some_iff.mp read).2] at within
    exact unopened (isInfix_of_isInfix_spell
      ((List.prefix_append _ behind).isInfix.trans within.isInfix))
  simp [pattern, read, Reader.after?, seam, refused]

/-- A stage keeps a text through a `>` before which what it takes out is not opened, whatever
follows. -/
theorem Stage.pieces_append_close {stage : Stage} {opener : List Char}
    (takes : stage.opener? = some opener)
    (unopened : ¬ opener.IsInfix (front.map Char.toLower)) (rest : List α) :
    stage.pieces (spell (front ++ ['>']) ++ rest) =
      (spell (front ++ ['>'])).map .kept ++ stage.pieces rest := by
  have parted : ∀ {γ : Type} (pattern : Pattern α γ), (∀ suffix : List α,
      suffix.IsSuffix (spell front) → pattern.read (suffix ++ ofChar '>' :: rest) = none) →
        pattern.cut (spell (front ++ ['>']) ++ rest) =
          (spell (front ++ ['>'])).map .kept ++ pattern.cut rest := by
    intro γ pattern refused
    apply Pattern.cut_append_of_refused
    intro suffix nonempty within
    rw [spell, List.map_append, List.map_singleton, List.suffix_concat_iff] at within
    obtain ⟨inside, rfl, within'⟩ := within.resolve_left nonempty
    rw [List.append_assoc]
    exact refused inside within'
  cases stage with
  | protect region =>
      obtain rfl := Option.some.inj takes
      exact parted region.pattern fun suffix within =>
        Region.read_append_close unopened within rest
  | comments =>
      obtain rfl := Option.some.inj takes
      have unopened' : ¬ Markup.commentOpen.IsInfix front :=
        fun inside => unopened (inside.map Char.toLower)
      have cut := parted Comment.pattern fun suffix within =>
        Comment.read_append_close unopened' within rest
      rw [pieces, Comment.strip, Pattern.replace, cut, List.flatMap_append,
        Piece.flatMap_text_kept, List.map_append]
      rfl
  | normalize | lines | blocks | texts | attributes => contradiction

end Openers

namespace Symbol

/-- Stages keep a text through a `>` before which nothing that they take out is opened. -/
theorem run_append_close {front : List Char} {stages : List Stage}
    (unopened : ∀ stage ∈ stages, ∃ opener, stage.opener? = some opener ∧
      ¬ opener.IsInfix (front.map Char.toLower)) (rest : List Symbol) :
    run (spell (front ++ ['>']) ++ rest) stages = spell (front ++ ['>']) ++ run rest stages := by
  induction stages generalizing rest with
  | nil => rfl
  | cons stage stages ih =>
      obtain ⟨⟨opener, takes, absent⟩, others⟩ := List.forall_mem_cons.mp unopened
      have step : apply (spell (front ++ ['>']) ++ rest) stage =
          spell (front ++ ['>']) ++ apply rest stage := by
        rw [apply, Stage.pieces_append_close takes absent, List.map_append, List.map_map]
        exact congrArg (· ++ apply rest stage) (List.map_id _)
      rw [run_cons, step, ih others, run_cons]

end Symbol

/-! ## Around the protection of a region -/

namespace Region

/-- The stages between the normal form of a document and the protection of a region. -/
def earlier : Region → List Stage
  | script => []
  | style => [.protect script]
  | pre => [.protect script, .protect style, .comments]
  | textarea => [.protect script, .protect style, .comments, .protect pre]

/-- The words that open what is taken out of a document before a region is protected. -/
def openers (region : Region) : List (List Char) :=
  region.earlier.filterMap Stage.opener?

/-- The stages behind the protection of a region. -/
def later (region : Region) : List Stage :=
  Stage.order.drop (region.earlier.length + 2)

theorem order_eq_append (region : Region) :
    Stage.order = .normalize :: (region.earlier ++ .protect region :: region.later) := by
  cases region <;> rfl

/-- No comments are dropped once a region is set aside as it is written. -/
theorem comments_notMem_later {region : Region} (verbatim : region.closer = []) :
    .comments ∉ region.later := by
  cases region with
  | script | style => simp [closer, Markup.closeTag] at verbatim
  | pre | textarea => decide

/-- The letters behind `<` in the words that open what is taken out before a region: they
are no angle brackets, and neither a tag of the region nor its close tag begins with them. -/
theorem exists_letters_of_mem_earlier {region : Region} {stage : Stage}
    (member : stage ∈ region.earlier) :
    ∃ letters, stage.opener? = some ('<' :: letters) ∧ '<' ∉ letters ∧ '>' ∉ letters ∧
      '\n' ∉ letters ∧ (∀ more, ¬ letters.IsPrefix (region.name ++ more)) ∧
        ∀ more, ¬ letters.IsPrefix ('/' :: more) := by
  cases region <;> simp only [earlier, List.mem_cons, List.not_mem_nil, or_false] at member
  all_goals
    rcases member with rfl | rfl | rfl | rfl <;>
      exact ⟨_, rfl, by decide, by decide, by decide, by simp [name], by simp [name]⟩

end Region

/-! ## Elements as they are written -/

/-- An element of a region, as it is written.  Its tags may be in any case, and its text may
be anything but a close tag. -/
structure Literal (region : Region) where
  /-- The name of the element in its open tag. -/
  opener : List Char
  /-- What stands between the name and the `>`. -/
  attributes : List Char
  inner : List Char
  /-- The name of the element in its close tag. -/
  closer : List Char
  opener_eq : opener.map Char.toLower = region.name
  closer_eq : closer.map Char.toLower = region.name
  endsWord_attributes : endsWord attributes = true
  unmarked_attributes : ∀ c ∈ attributes, c ≠ '<' ∧ c ≠ '>' ∧ c ≠ '\r'
  noReturn : '\r' ∉ inner
  unclosed : ¬ (Markup.closeTag region.name).IsInfix (inner.map Char.toLower)

namespace Literal

variable {region : Region} (element : Literal region)

/-- What stands between the first angle bracket of an element and its last one. -/
def middle : List Char :=
  element.opener ++ element.attributes ++ '>' :: (element.inner ++ '<' :: '/' :: element.closer)

/-- The text of an element. -/
def text : List Char :=
  '<' :: (element.middle ++ ['>'])

/-- What is opened before the end of an element and is not opened by its tags is opened
before the element or in its text. -/
theorem isInfix_or_of_isInfix {element : Literal region} {letters before : List Char}
    (noOpen : '<' ∉ letters) (noClose : '>' ∉ letters)
    (other : ∀ more, ¬ letters.IsPrefix (region.name ++ more))
    (noSlash : ∀ more, ¬ letters.IsPrefix ('/' :: more))
    (inside : ('<' :: letters).IsInfix ((before ++ '<' :: element.middle).map Char.toLower)) :
    ('<' :: letters).IsInfix (before.map Char.toLower) ∨
      ('<' :: letters).IsInfix (element.inner.map Char.toLower) := by
  have lower : (before ++ '<' :: element.middle).map Char.toLower =
      before.map Char.toLower ++ '<' :: ((region.name ++ element.attributes.map Char.toLower) ++
        '>' :: (element.inner.map Char.toLower ++ '<' :: '/' :: region.name)) := by
    simp [middle, element.opener_eq, element.closer_eq]
  have bareName : '<' ∉ region.name := by cases region <;> decide
  have bare : '<' ∉ region.name ++ element.attributes.map Char.toLower := by
    rw [List.mem_append, not_or]
    refine ⟨bareName, fun member => ?_⟩
    obtain ⟨c, inTag, angle⟩ := List.mem_map.mp member
    exact (element.unmarked_attributes c inTag).1 (eq_of_toLower_eq (by decide) angle)
  have outside : ∀ {text : List Char}, '<' ∉ text → ¬ ('<' :: letters).IsInfix text :=
    fun absent inside => absent (inside.subset List.mem_cons_self)
  rw [lower] at inside
  rcases isInfix_append_cons noOpen inside with before | start | behind
  · exact Or.inl before
  · rw [List.cons_prefix_cons, List.append_assoc] at start
    exact absurd start.2 (other _)
  rcases isInfix_append_cons noClose behind with inTag | start | behind
  · exact absurd inTag (outside bare)
  · exact absurd (List.cons_prefix_cons.mp start).1 (by decide)
  rcases isInfix_append_cons noOpen behind with inner | start | behind
  · exact Or.inr inner
  · exact absurd (List.cons_prefix_cons.mp start).2 (noSlash _)
  · exact absurd behind (outside (by simp [bareName]))

/-- An element is read as it is written, and it is kept as it is. -/
theorem read_text_append (element : Literal region) (verbatim : region.closer = [])
    {α : Type} [Alphabet α] (rest : List α) :
    region.pattern.read (ofChar '<' :: (spell element.middle ++ ofChar '>' :: rest)) =
      some (spell element.text, rest.dropWhile isBlank) := by
  have lower := region.toLower_name
  have opens : ('<' :: element.opener).map Char.toLower =
      (Markup.openTag region.name).map Char.toLower := by
    simp [Markup.openTag, element.opener_eq, lower]
  have closes : ('<' :: '/' :: (element.closer ++ ['>'])).map Char.toLower =
      (Markup.closeTag region.name).map Char.toLower := by
    simp [Markup.closeTag, element.closer_eq, lower]
  have unclosed : ¬ ((Markup.closeTag region.name).map Char.toLower).IsInfix
      (element.inner.map Char.toLower) := by
    have same : (Markup.closeTag region.name).map Char.toLower = Markup.closeTag region.name := by
      simp [Markup.closeTag, lower]
    rw [same]
    exact element.unclosed
  have read := Element.read_append (α := α) region.angled_name opens element.endsWord_attributes
    (fun member => (element.unmarked_attributes '>' member).2.1 rfl) unclosed closes rest
  have content : ∀ whole : Element α, region.content whole = whole.text := by
    intro whole
    cases region with
    | script | style => simp [Region.closer, Markup.closeTag] at verbatim
    | pre | textarea => rfl
  have shape : ofChar '<' :: (spell element.middle ++ ofChar '>' :: rest) =
      spell ('<' :: element.opener) ++ (spell element.attributes ++ ofChar '>' ::
        (spell element.inner ++ (spell ('<' :: '/' :: (element.closer ++ ['>'])) ++ rest))) := by
    simp [middle, spell]
  rw [Region.read_pattern, shape, read]
  simp [content, Element.text, text, middle, spell]

end Literal

/-! ## Documents with an element -/

namespace Holed

/-- What fills a hole of a document stands in the text of the document. -/
theorem isInfix_flattenAll_fillAll {text : List Holed} (opens : text.flatMap holes ≠ [])
    (region : List Symbol) :
    (Symbol.flattenAll region).IsInfix (Symbol.flattenAll (fillAll region text)) := by
  rw [flatMap_holes] at opens
  obtain ⟨piece, member⟩ := List.exists_mem_of_ne_nil _ opens
  obtain ⟨inText, none⟩ := List.mem_filter.mp member
  obtain rfl := Option.isNone_iff_eq_none.mp none
  obtain ⟨front, back, shape⟩ := List.append_of_mem inText
  rw [flattenAll_fillAll, shape, List.flatMap_append, List.flatMap_cons]
  exact ⟨_, _, (List.append_assoc _ _ _).trans rfl⟩

theorem dropWhile_fillAll (region : List Symbol) (text : List Holed) :
    (fillAll region text).dropWhile isBlank = fillAll region (text.dropWhile isBlank) := by
  rw [← encode_filled, ← encode_filled, dropWhile_isBlank_encode]

end Holed

namespace Literal

variable {region : Region} {before after : List Char}

/-- What becomes of the text before an element until regions are looked for. -/
def left (before : List Char) : List Char :=
  Margin.joinLines (before.dropWhile isMargin)

/-- What becomes of the text behind an element until the element is set aside. -/
def right (region : Region) (after : List Char) : List Holed :=
  Holed.run (spell (Margin.joinLines (after.rdropWhile isMargin))) region.earlier

/-- The document around an element, with a hole where the element has been. -/
def around (region : Region) (before after : List Char) : List Holed :=
  spell ((left before).rdropWhile isBlank) ++
    .hole :: Holed.apply ((right region after).dropWhile isBlank) (.protect region)

/-- What is not opened before an element is not opened when lines have been joined. -/
theorem isInfix_of_isInfix_left {word : List Char} (flat : '\n' ∉ word)
    (inside : word.IsInfix ((left before).map Char.toLower)) :
    word.IsInfix (before.map Char.toLower) :=
  (Margin.isInfix_of_isInfix_map_joinLines flat inside).trans
    ((List.dropWhile_suffix isMargin).isInfix.map Char.toLower)

/-- The normal form of a document keeps an element as it is. -/
theorem normalize_append (element : Literal region) :
    Margin.normalize (before ++ element.text ++ after) =
      left before ++ element.text ++ Margin.joinLines (after.rdropWhile isMargin) := by
  have named : ∀ {letters : List Char}, letters.map Char.toLower = region.name →
      '\r' ∉ letters := by
    intro letters same member
    have inName := List.mem_map_of_mem (f := Char.toLower) member
    rw [same] at inName
    cases region <;> exact absurd inName (by decide)
  have noReturn : '\r' ∉ element.middle := by
    have inTag : '\r' ∉ element.attributes :=
      fun member => (element.unmarked_attributes '\r' member).2.2 rfl
    simp [middle, named element.opener_eq, named element.closer_eq, inTag, element.noReturn]
  have shape : ∀ before after : List Char, before ++ element.text ++ after =
      before ++ '<' :: (element.middle ++ '>' :: after) := by
    simp [text]
  rw [shape, shape]
  exact Margin.normalize_append noReturn before after

/-- What is taken out of a document before a region is protected is not opened before an
element of the region or in its text. -/
def Untouched (element : Literal region) (before : List Char) : Prop :=
  ∀ opener ∈ region.openers,
    ¬ opener.IsInfix (before.map Char.toLower) ∧ ¬ opener.IsInfix (element.inner.map Char.toLower)

variable {element : Literal region}

/-- The stages before the protection of a region keep a document through an element that
they do not touch. -/
theorem Untouched.run_earlier (untouched : element.Untouched before) (rest : List Symbol) :
    Symbol.run (spell (left before ++ element.text) ++ rest) region.earlier =
      spell (left before ++ element.text) ++ Symbol.run rest region.earlier := by
  have parted : left before ++ element.text =
      (left before ++ '<' :: element.middle) ++ ['>'] := by
    simp [text]
  rw [parted]
  apply Symbol.run_append_close
  intro stage member
  obtain ⟨letters, takes, noOpen, noClose, flat, other, noSlash⟩ :=
    Region.exists_letters_of_mem_earlier member
  refine ⟨_, takes, fun inside => ?_⟩
  have flat' : '\n' ∉ '<' :: letters := by simp [flat]
  obtain ⟨apart, plain⟩ := untouched _ (List.mem_filterMap.mpr ⟨stage, member, takes⟩)
  rcases isInfix_or_of_isInfix noOpen noClose other noSlash inside with inLeft | inText
  · exact apart (isInfix_of_isInfix_left flat' inLeft)
  · exact plain inText

/-- The stages through the protection of a region set an untouched element aside and leave
a document that it fills. -/
theorem Untouched.run_start (untouched : element.Untouched before)
    (verbatim : region.closer = [])
    (unopened : ¬ (Markup.openTag region.name).IsInfix (before.map Char.toLower)) :
    Symbol.run (Symbol.start (String.ofList (before ++ element.text ++ after)))
        (.normalize :: (region.earlier ++ [.protect region])) =
      Holed.fillAll (spell element.text) (around region before after) := by
  have normal : Symbol.apply (spell (before ++ element.text ++ after)) .normalize =
      spell (left before ++ element.text) ++
        spell (Margin.joinLines (after.rdropWhile isMargin)) := by
    rw [Symbol.apply_spell, Stage.pieces, List.map_map, element.normalize_append, spell, spell,
      ← List.map_append]
    rfl
  have flat : '\n' ∉ Markup.openTag region.name := by
    cases region <;> decide
  have unopened' : ¬ (Markup.openTag region.name).IsInfix
      (((left before).rdropWhile isBlank).map Char.toLower) := fun inside =>
    unopened (isInfix_of_isInfix_left flat
      (inside.trans ((List.rdropWhile_prefix isBlank _).isInfix.map Char.toLower)))
  have behind : Symbol.run (spell (Margin.joinLines (after.rdropWhile isMargin))) region.earlier =
      Holed.fillAll (spell element.text) (right region after) := by
    rw [right, ← Holed.run_fillAll, Holed.fillAll_spell]
  have cut := Region.cut_append_cons unopened' (element.read_text_append verbatim
    (Holed.fillAll (spell element.text) (right region after)))
  have shape : spell (left before ++ element.text) ++
        Holed.fillAll (spell element.text) (right region after) =
      spell (left before) ++ ofChar '<' :: (spell element.middle ++
        ofChar '>' :: Holed.fillAll (spell element.text) (right region after)) := by
    simp [text, spell]
  calc
    Symbol.run (Symbol.start (String.ofList (before ++ element.text ++ after)))
          (.normalize :: (region.earlier ++ [.protect region])) =
        Symbol.apply (spell (left before ++ element.text) ++
          Holed.fillAll (spell element.text) (right region after)) (.protect region) := by
      rw [Symbol.start, String.toList_ofList, Symbol.run_cons]
      change Symbol.run (Symbol.apply (spell _) _) _ = _
      rw [normal, Symbol.run_append, untouched.run_earlier, behind]
      rfl
    _ = spell ((left before).rdropWhile isBlank) ++ .stored (spell element.text) ::
          Symbol.apply (Holed.fillAll (spell element.text) ((right region after).dropWhile isBlank))
            (.protect region) := by
      rw [Symbol.apply, Stage.pieces, shape, cut, List.map_append, List.map_map,
        Holed.dropWhile_fillAll]
      exact congrArg (· ++ _) (List.map_id _)
    _ = Holed.fillAll (spell element.text) (around region before after) := by
      rw [around, Holed.fillAll_append, Holed.fillAll_spell, Holed.fillAll, ← Holed.apply_fillAll]
      rfl

/-- An untouched element of a region that is kept as it is written survives to the symbol. -/
theorem Untouched.isInfix_minifyWith (untouched : element.Untouched before)
    (verbatim : region.closer = [])
    (unopened : ¬ (Markup.openTag region.name).IsInfix (before.map Char.toLower)) {sigil : Sigil}
    (absent : ¬ sigil.text.Sublist (before ++ element.text ++ after)) :
    element.text.IsInfix
      (minifyWith sigil (String.ofList (before ++ element.text ++ after))).toList := by
  have order : Stage.order = (.normalize :: (region.earlier ++ [.protect region])) ++
      region.later := by
    rw [region.order_eq_append]
    simp
  have opens : (Holed.run (around region before after) region.later).flatMap Holed.holes ≠ [] := by
    rw [Holed.holes_run_of_notMem (Region.comments_notMem_later verbatim), around]
    simp [Holed.holes, Holed.spread]
  have within := Holed.isInfix_flattenAll_fillAll opens (spell element.text)
  have spelled : Symbol.flattenAll (spell element.text) = element.text :=
    Symbol.flattenAll_map_char _
  rw [minifyWith, Draft.restore_run_start (by rwa [String.toList_ofList]), order,
    Symbol.run_append, untouched.run_start verbatim unopened, Holed.run_fillAll,
    String.toList_ofList]
  rwa [spelled] at within

end Literal

/-- Preformatted text survives to the symbol, whatever follows it. -/
theorem isInfix_minifyWith_pre {before after : List Char} (element : Literal .pre)
    (apart : ∀ opener ∈ [Markup.openTag Region.script.name, Markup.openTag Region.style.name,
      Markup.commentOpen, Markup.openTag Region.pre.name],
        ¬ opener.IsInfix (before.map Char.toLower))
    (plain : ∀ opener ∈ [Markup.openTag Region.script.name, Markup.openTag Region.style.name,
      Markup.commentOpen], ¬ opener.IsInfix (element.inner.map Char.toLower))
    {sigil : Sigil} (absent : ¬ sigil.text.Sublist (before ++ element.text ++ after)) :
    element.text.IsInfix
      (minifyWith sigil (String.ofList (before ++ element.text ++ after))).toList := by
  have untouched : element.Untouched before := fun opener member =>
    ⟨apart opener (List.mem_append_left [Markup.openTag Region.pre.name] member),
      plain opener member⟩
  exact untouched.isInfix_minifyWith rfl (apart _ (by simp)) absent

/-- Preformatted text in capitals, behind an open tag that nothing ends, in front of a comment
and a script that nothing ends either. -/
theorem isInfix_minifyWith_pre_between_open_tags :
    ∃ element : Literal .pre, element.text = "<PRE id=a>\n <i>  b\n\n</i></Pre>".toList ∧
      (∀ opener ∈ [Markup.openTag Region.script.name, Markup.openTag Region.style.name,
        Markup.commentOpen, Markup.openTag Region.pre.name],
          ¬ opener.IsInfix ("<p\n <textarea> ".toList.map Char.toLower)) ∧
      (∀ opener ∈ [Markup.openTag Region.script.name, Markup.openTag Region.style.name,
        Markup.commentOpen], ¬ opener.IsInfix (element.inner.map Char.toLower)) ∧
      ¬ (Sigil.mk 0).text.Sublist
        ("<p\n <textarea> ".toList ++ element.text ++ " <!-- <script> </pre>".toList) ∧
      element.text.IsInfix (minifyWith ⟨0⟩ (String.ofList
        ("<p\n <textarea> ".toList ++ element.text ++ " <!-- <script> </pre>".toList))).toList := by
  let element : Literal .pre := ⟨"PRE".toList, " id=a".toList, "\n <i>  b\n\n</i>".toList,
    "Pre".toList, by decide +kernel, by decide +kernel, by decide +kernel, by decide +kernel,
    by decide +kernel, by decide +kernel⟩
  have apart : ∀ opener ∈ [Markup.openTag Region.script.name, Markup.openTag Region.style.name,
      Markup.commentOpen, Markup.openTag Region.pre.name],
        ¬ opener.IsInfix ("<p\n <textarea> ".toList.map Char.toLower) := by decide +kernel
  have plain : ∀ opener ∈ [Markup.openTag Region.script.name, Markup.openTag Region.style.name,
      Markup.commentOpen], ¬ opener.IsInfix (element.inner.map Char.toLower) := by decide +kernel
  have absent : ¬ (Sigil.mk 0).text.Sublist
      ("<p\n <textarea> ".toList ++ element.text ++ " <!-- <script> </pre>".toList) := by
    decide +kernel
  exact ⟨element, by decide +kernel, apart, plain, absent,
    isInfix_minifyWith_pre element apart plain absent⟩

/-- A text area survives to the symbol when no script, style sheet, comment or preformatted
text is opened in it. -/
theorem isInfix_minifyWith_textarea {before after : List Char} (element : Literal .textarea)
    (apart : ∀ opener ∈ [Markup.openTag Region.script.name, Markup.openTag Region.style.name,
      Markup.commentOpen, Markup.openTag Region.pre.name, Markup.openTag Region.textarea.name],
        ¬ opener.IsInfix (before.map Char.toLower))
    (plain : ∀ opener ∈ [Markup.openTag Region.script.name, Markup.openTag Region.style.name,
      Markup.commentOpen, Markup.openTag Region.pre.name],
        ¬ opener.IsInfix (element.inner.map Char.toLower))
    {sigil : Sigil} (absent : ¬ sigil.text.Sublist (before ++ element.text ++ after)) :
    element.text.IsInfix
      (minifyWith sigil (String.ofList (before ++ element.text ++ after))).toList := by
  have untouched : element.Untouched before := fun opener member =>
    ⟨apart opener (List.mem_append_left [Markup.openTag Region.textarea.name] member),
      plain opener member⟩
  exact untouched.isInfix_minifyWith rfl (apart _ (by simp)) absent

/-- A text area with blank lines and what looks like tags, behind a stray angle bracket. -/
theorem isInfix_minifyWith_textarea_with_tags :
    ∃ element : Literal .textarea,
      element.text = "<textarea rows=2>\n\n <p> </pre>\n <b </TextArea>".toList ∧
      (∀ opener ∈ [Markup.openTag Region.script.name, Markup.openTag Region.style.name,
        Markup.commentOpen, Markup.openTag Region.pre.name, Markup.openTag Region.textarea.name],
          ¬ opener.IsInfix ("a < ".toList.map Char.toLower)) ∧
      (∀ opener ∈ [Markup.openTag Region.script.name, Markup.openTag Region.style.name,
        Markup.commentOpen, Markup.openTag Region.pre.name],
          ¬ opener.IsInfix (element.inner.map Char.toLower)) ∧
      ¬ (Sigil.mk 0).text.Sublist
        ("a < ".toList ++ element.text ++ "<textarea> c --> ".toList) ∧
      element.text.IsInfix (minifyWith ⟨0⟩ (String.ofList
        ("a < ".toList ++ element.text ++ "<textarea> c --> ".toList))).toList := by
  let element : Literal .textarea := ⟨"textarea".toList, " rows=2".toList,
    "\n\n <p> </pre>\n <b ".toList, "TextArea".toList, by decide +kernel, by decide +kernel,
    by decide +kernel, by decide +kernel, by decide +kernel, by decide +kernel⟩
  have apart : ∀ opener ∈ [Markup.openTag Region.script.name, Markup.openTag Region.style.name,
      Markup.commentOpen, Markup.openTag Region.pre.name, Markup.openTag Region.textarea.name],
        ¬ opener.IsInfix ("a < ".toList.map Char.toLower) := by decide +kernel
  have plain : ∀ opener ∈ [Markup.openTag Region.script.name, Markup.openTag Region.style.name,
      Markup.commentOpen, Markup.openTag Region.pre.name],
        ¬ opener.IsInfix (element.inner.map Char.toLower) := by decide +kernel
  have absent : ¬ (Sigil.mk 0).text.Sublist
      ("a < ".toList ++ element.text ++ "<textarea> c --> ".toList) := by
    decide +kernel
  exact ⟨element, by decide +kernel, apart, plain, absent,
    isInfix_minifyWith_textarea element apart plain absent⟩

/-- What looks like a comment in a text area is dropped from its text. -/
theorem not_isInfix_minifyWith_textarea_of_comment :
    ∃ element : Literal .textarea, element.text = "<textarea>a<!-- b --></textarea>".toList ∧
      (∀ opener ∈ [Markup.openTag Region.script.name, Markup.openTag Region.style.name,
        Markup.commentOpen, Markup.openTag Region.pre.name, Markup.openTag Region.textarea.name],
          ¬ opener.IsInfix (([] : List Char).map Char.toLower)) ∧
      ¬ (Sigil.mk 0).text.Sublist element.text ∧
      minifyWith ⟨0⟩ (String.ofList element.text) = "<textarea>a</textarea>" ∧
      ¬ element.text.IsInfix (minifyWith ⟨0⟩ (String.ofList element.text)).toList :=
  ⟨⟨"textarea".toList, [], "a<!-- b -->".toList, "textarea".toList, by decide +kernel,
    by decide +kernel, by decide +kernel, by decide +kernel, by decide +kernel, by decide +kernel⟩,
    by decide +kernel, by decide +kernel, by decide +kernel, by decide +kernel, by decide +kernel⟩

end HtmlMinifier
