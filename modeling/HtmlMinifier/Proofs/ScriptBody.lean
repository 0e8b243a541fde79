import HtmlMinifier.Proofs.Content
import HtmlMinifier.Proofs.Hole

/-!
# What a script body can reach

The first script of a document is set aside before anything else, with the blanks around
it.  What is left of the document is the same for all bodies, with a hole where the
script has been.  So the whole run is the same for all bodies, and what comes out depends
on the body only where the hole is filled in the end.

A hole can go: when a comment that is opened before the script is closed behind it, the
script goes with the comment, and then the body does not matter at all.
-/

namespace HtmlMinifier

open Alphabet

variable {α : Type} [Alphabet α]

/-! ## Around a region -/

/-- Blanks behind a text go with the blanks at its back, and with the margins of the
whole when the text is all margin. -/
theorem rdropWhile_dropWhile_append (first : List α) {run : List α}
    (blanks : ∀ a ∈ run, isBlank a = true) :
    ((first ++ run).dropWhile isMargin).rdropWhile isBlank =
      (first.dropWhile isMargin).rdropWhile isBlank := by
  rw [List.dropWhile_append]
  split
  next none =>
    have left : ∀ a ∈ run.dropWhile isMargin, isBlank a = true := fun a member =>
      blanks a ((List.dropWhile_suffix isMargin).subset member)
    rw [List.rdropWhile_eq_nil_iff.mpr left, List.isEmpty_iff.mp none, List.rdropWhile_nil]
  next =>
    have reversed : ∀ a ∈ run.reverse, isBlank a = true := by simpa using blanks
    rw [List.rdropWhile, List.reverse_append, List.dropWhile_append_of_pos reversed]
    rfl

/-- So do blanks in front of a text. -/
theorem dropWhile_rdropWhile_append (rest : List α) {run : List α}
    (blanks : ∀ a ∈ run, isBlank a = true) :
    ((run ++ rest).rdropWhile isMargin).dropWhile isBlank =
      (rest.rdropWhile isMargin).dropWhile isBlank := by
  have reversed : ∀ a ∈ run.reverse, isBlank a = true := by simpa using blanks
  have mirrored := congrArg List.reverse (rdropWhile_dropWhile_append rest.reverse reversed)
  simpa [List.rdropWhile] using mirrored

/-- The normal form of a document with something between angle brackets in it. -/
theorem Margin.normalize_append {inner : List α} (noReturn : ofChar '\r' ∉ inner)
    (first rest : List α) :
    normalize (first ++ ofChar '<' :: (inner ++ ofChar '>' :: rest)) =
      joinLines (first.dropWhile isMargin) ++
        ofChar '<' :: (inner ++ ofChar '>' :: joinLines (rest.rdropWhile isMargin)) := by
  have shape : ∀ rest : List α, ofChar '<' :: (inner ++ ofChar '>' :: rest) =
      (ofChar '<' :: (inner ++ [ofChar '>'])) ++ rest := by
    intro rest
    simp
  have absent : ofChar '\r' ∉ (ofChar '<' :: (inner ++ [ofChar '>']) : List α) := by
    simp [noReturn]
  have front := dropWhile_append_cons (by simp [isMargin] : isMargin (ofChar '<' : α) = false)
    first (inner ++ ofChar '>' :: rest)
  have back := rdropWhile_append_cons (by simp [isMargin] : isMargin (ofChar '>' : α) = false)
    (first.dropWhile isMargin ++ ofChar '<' :: inner) rest
  simp only [List.append_assoc, List.cons_append] at back
  calc
    normalize (first ++ ofChar '<' :: (inner ++ ofChar '>' :: rest)) =
        joinLines (first.dropWhile isMargin ++
          ofChar '<' :: (inner ++ ofChar '>' :: rest.rdropWhile isMargin)) :=
      congrArg joinLines ((congrArg (List.rdropWhile isMargin) front).trans back)
    _ = joinLines (first.dropWhile isMargin) ++
          joinLines (ofChar '<' :: (inner ++ ofChar '>' :: rest.rdropWhile isMargin)) :=
      joinLines_append_cons (by simp) _ _
    _ = joinLines (first.dropWhile isMargin) ++
          ofChar '<' :: (inner ++ ofChar '>' :: joinLines (rest.rdropWhile isMargin)) := by
      rw [shape (rest.rdropWhile isMargin), joinLines_append_of_notMem absent,
        shape (joinLines _)]

/-- A blank is a mark. -/
theorem Alphabet.mark_of_isBlank {a : α} (blank : isBlank a = true) :
    satisfies isMark a = true := by
  rw [← Bool.not_eq_false]
  intro inert
  rw [Encoding.isBlank_of_inert inert] at blank
  contradiction

/-- A word without line feeds has stood in a text in some case before its lines are joined. -/
theorem Margin.isInfix_of_isInfix_map_joinLines {word text : List Char} (flat : '\n' ∉ word)
    (inside : word.IsInfix ((joinLines text).map Char.toLower)) :
    word.IsInfix (text.map Char.toLower) := by
  obtain ⟨written, inText, rfl⟩ := List.infix_map_iff.mp inside
  have flat' : '\n' ∉ written := fun member => flat (List.mem_map_of_mem member)
  exact (isInfix_of_isInfix_joinLines flat' inText).map Char.toLower

namespace Region

/-- No letter of a region's name is a mark. -/
theorem isAnyCase_of_mark (region : Region) {c : Char} (inName : c ∈ region.name) {a : α}
    (mark : satisfies isMark a = true) : isAnyCase c a = false := by
  have letter : ∀ c ∈ region.name, isMark c.toLower = false := by
    cases region <;> decide
  obtain ⟨d, rfl, isMark⟩ := satisfies_iff.mp mark
  rw [isAnyCase, satisfies_ofChar, beq_eq_false_iff_ne]
  intro same
  rw [← isMark_toLower, same, letter c inName] at isMark
  contradiction

/-- Where no region of a kind is opened none is opened with a mark behind. -/
theorem not_opens_append_cons {region : Region} {front : List Char} {suffix : List α} {a : α}
    (unopened : ¬ (Markup.openTag region.name).IsInfix (front.map Char.toLower))
    (within : suffix.IsSuffix (spell front)) (inked : ∃ b ∈ suffix, isBlank b = false)
    (mark : satisfies isMark a = true) (text : List α) :
    Element.opens region.name (suffix ++ a :: text) = false := by
  apply Element.not_opens_of_name
  intro inTag opens
  have left : suffix.dropWhile isBlank ≠ [] := by
    intro none
    obtain ⟨b, member, inked⟩ := inked
    exact Bool.eq_false_iff.mp inked (List.dropWhile_eq_nil_iff.mp none b member)
  obtain ⟨b, inside, shape⟩ := List.exists_cons_of_ne_nil left
  rw [List.dropWhile_append, shape] at opens
  obtain ⟨rfl, rfl⟩ := List.cons.inj opens
  have deeper : (ofChar '<' :: inside).IsSuffix (spell front) :=
    shape ▸ (List.dropWhile_suffix isBlank).trans within
  cases named : Reader.name region.name (inside ++ a :: text) with
  | none => rfl
  | some pair =>
      have seam : Reader.phraseAnyCase region.name (inside ++ a :: text) =
          (Reader.phraseAnyCase region.name inside).map (Reader.extend (a :: text)) := by
        apply Reader.word_append
        rintro _ ⟨⟩ c inName
        exact region.isAnyCase_of_mark inName mark
      rw [(Reader.name_eq_some_iff.mp named).1] at seam
      obtain ⟨pair', any, -⟩ := Option.map_eq_some_iff.mp seam.symm
      obtain ⟨written, same, -, rfl⟩ := Reader.phraseAnyCase_eq_some_iff.mp any
      rw [region.toLower_name] at same
      have opened : (spell ('<' :: written) : List α).IsInfix (spell front) := by
        rw [spell_cons]
        have front := List.prefix_append (ofChar '<' :: spell written) pair'.2
        exact front.isInfix.trans deeper.isInfix
      have lower := (isInfix_of_isInfix_spell opened).map Char.toLower
      rw [List.map_cons, same] at lower
      exact absurd lower unopened

/-- A region is found behind a text in which none of its kind is opened.  The blanks
between them go. -/
theorem cut_append_cons {region : Region} {first : List Char} {text rest content : List α}
    (unopened : ¬ (Markup.openTag region.name).IsInfix
      ((first.rdropWhile isBlank).map Char.toLower))
    (read : region.pattern.read (ofChar '<' :: text) = some (content, rest)) :
    region.pattern.cut (spell first ++ ofChar '<' :: text) =
      (spell (first.rdropWhile isBlank)).map .kept ++
        .found content :: region.pattern.cut rest := by
  have parts := List.rdropWhile_append_rtakeWhile (p := isBlank) (l := first)
  have blanks : ∀ a ∈ (spell (first.rtakeWhile isBlank) : List α), isBlank a = true := by
    intro a member
    obtain ⟨c, inRun, rfl⟩ := List.mem_map.mp member
    have blank : isBlank c = true := List.mem_rtakeWhile_imp inRun
    exact (satisfies_ofChar _ c).trans blank
  have last := List.rdropWhile_last_not (p := isBlank) (l := first)
  generalize first.rdropWhile isBlank = front at parts unopened last
  generalize first.rtakeWhile isBlank = run at parts blanks
  have found : region.pattern.read (spell run ++ ofChar '<' :: text) = some (content, rest) := by
    rw [← read_dropWhile, List.dropWhile_append_of_pos blanks,
      List.dropWhile_cons_of_neg (by simp [isBlank]), read]
  have whole : spell first ++ ofChar '<' :: text =
      spell front ++ (spell run ++ ofChar '<' :: text) := by
    rw [← parts, spell, List.map_append, List.append_assoc]
    rfl
  rw [whole, Pattern.cut_append_of_refused, Pattern.cut_of_some found]
  intro suffix nonempty within
  apply read_of_not_opens
  have inked : ∃ b ∈ suffix, isBlank b = false := by
    obtain ⟨part, inside, rfl⟩ := List.suffix_map_iff.mp within
    have nonempty' : part ≠ [] := fun none => nonempty (by rw [none, List.map_nil])
    have ink : isBlank (part.getLast nonempty') = false := by
      rw [inside.getLast nonempty']
      exact Bool.eq_false_iff.mpr (last _)
    exact ⟨_, List.mem_map_of_mem (List.getLast_mem nonempty'), (satisfies_ofChar _ _).trans ink⟩
  cases run with
  | nil => exact not_opens_append_cons unopened within inked (by simp [isMark]) text
  | cons c run =>
      exact not_opens_append_cons unopened within inked
        (mark_of_isBlank (blanks _ List.mem_cons_self)) _

end Region

/-! ## Text as symbols -/

namespace Symbol

/-- A piece of a text as one symbol. -/
def ofTextPiece : Piece Char (List Char) → Symbol
  | .kept c => char c
  | .found content => stored (spell content)

/-- A stage may run over a text before its pieces become symbols. -/
theorem apply_spell (text : List Char) (stage : Stage) :
    apply (spell text) stage = (stage.pieces text).map ofTextPiece := by
  rw [← Encoding.encode_spelled, apply, stage.pieces_encode, List.map_flatMap, List.map_eq_flatMap]
  congr 1
  funext piece
  cases piece with
  | kept c => rfl
  | found content => exact congrArg (fun inner => [stored inner]) (Encoding.encode_spelled content)

end Symbol

/-! ## A script between blanks -/

/-- A script and the blanks around it, as they are written in a document. -/
structure Script where
  leading : List Char
  body : List Char
  trailing : List Char
  leading_blank : ∀ c ∈ leading, isBlank c = true
  trailing_blank : ∀ c ∈ trailing, isBlank c = true
  noReturn : '\r' ∉ body
  unclosed : ¬ (Markup.closeTag Region.script.name).IsInfix (body.map Char.toLower)

namespace Script

/-- An open tag with the given attributes. -/
def opening (attributes : List Char) : List Char :=
  Markup.openTag Region.script.name ++ attributes ++ ['>']

/-- A script with its open tag and with blanks around it. -/
def text (script : Script) (attributes : List Char) : List Char :=
  script.leading ++ opening attributes ++ script.body ++ Markup.closeTag Region.script.name ++
    script.trailing

/-- What is kept of a script. -/
def kept (script : Script) (attributes : List Char) : List Char :=
  opening attributes ++ Wrapper.script script.body ++ Markup.closeTag Region.script.name

/-- What becomes of the text before a script until the script is set aside. -/
def left (before : List Char) : List Char :=
  Margin.joinLines ((before.dropWhile isMargin).rdropWhile isBlank)

/-- What becomes of the text behind a script until scripts are looked for in it. -/
def right (after : List Char) : List Char :=
  Margin.joinLines ((after.rdropWhile isMargin).dropWhile isBlank)

variable {before attributes after : List Char}

theorem isInfix_of_isInfix_left {word : List Char} (flat : '\n' ∉ word)
    (inside : word.IsInfix (left before)) : word.IsInfix before :=
  (Margin.isInfix_of_isInfix_joinLines flat inside).trans
    ((List.rdropWhile_prefix isBlank _).isInfix.trans (List.dropWhile_suffix isMargin).isInfix)

theorem isInfix_of_isInfix_right {word : List Char} (flat : '\n' ∉ word)
    (inside : word.IsInfix (right after)) : word.IsInfix after :=
  (Margin.isInfix_of_isInfix_joinLines flat inside).trans
    ((List.dropWhile_suffix isBlank).isInfix.trans (List.rdropWhile_prefix isMargin _).isInfix)

/-- What is not opened before a script is not opened when lines have been joined. -/
theorem unopened_left
    (unopened : ¬ (Markup.openTag Region.script.name).IsInfix (before.map Char.toLower)) :
    ¬ (Markup.openTag Region.script.name).IsInfix ((left before).map Char.toLower) := by
  intro opened
  have joined := Margin.isInfix_of_isInfix_map_joinLines (by decide) opened
  exact unopened (joined.trans (((List.rdropWhile_prefix isBlank _).isInfix.trans
    (List.dropWhile_suffix isMargin).isInfix).map Char.toLower))

/-- A script is read to its close tag, and the blanks behind it go. -/
theorem read_append (script : Script) (closes : '>' ∉ attributes)
    (ends : endsWord attributes = true) (rest : List Char) :
    Region.script.pattern.read
        (opening attributes ++
          (script.body ++ (Markup.closeTag Region.script.name ++ rest))) =
      some (script.kept attributes, rest.dropWhile isBlank) := by
  have read := Element.read_append Region.script.angled_name rfl ends closes script.unclosed
    (rfl : (Markup.closeTag Region.script.name).map Char.toLower = _) rest
  simp only [spell_char] at read
  have shape : opening attributes ++
        (script.body ++ (Markup.closeTag Region.script.name ++ rest)) =
      Markup.openTag Region.script.name ++
        (attributes ++ ofChar '>' ::
          (script.body ++ (Markup.closeTag Region.script.name ++ rest))) := by
    simp [opening]
  rw [Region.read_pattern, shape, read]
  simp [Region.content, kept, opening]

/-! ## The hole that a script leaves -/

/-- The document around a script, with a hole where the script has been. -/
def around (before after : List Char) : List Holed :=
  spell (left before) ++ .hole :: Holed.apply (spell (right after)) (.protect .script)

theorem holes_around : (around before after).flatMap Holed.holes = [none] := by
  rw [around, List.flatMap_append, List.flatMap_cons, Holed.holes_spell,
    Holed.holes_apply_of_ne (by simp), Holed.holes_spell]
  rfl

/-- Only a script that stands within a comment leaves a hole within one. -/
theorem isInfix_of_commented_around (commented : Holed.Commented (around before after)) :
    Markup.commentOpen.IsInfix before ∧ Markup.commentClose.IsInfix after := by
  obtain ⟨front, a, back, shape, opens, opening, closing⟩ := commented
  have one : (front ++ a :: back).flatMap Holed.holes = [none] := shape ▸ holes_around
  obtain ⟨first, -, -⟩ := Holed.holes_eq_nil_of_singleton one opens
  have apart : a ∉ (spell (left before) : List Holed) := fun member =>
    opens (List.flatMap_eq_nil_iff.mp (Holed.holes_spell (left before)) a member)
  obtain ⟨between, rfl, shape'⟩ := exists_of_append_eq_append_cons apart shape
  cases between with
  | cons b between =>
      -- the one hole would stand before the one of the comment
      obtain ⟨rfl, -⟩ := List.cons.inj shape'
      simp [Holed.holes, Holed.spread] at first
  | nil =>
      obtain ⟨-, rfl⟩ := List.cons.inj shape'
      rw [List.append_nil] at opening
      exact ⟨isInfix_of_isInfix_left (by decide) (isInfix_of_isInfix_spell opening),
        isInfix_of_isInfix_right (by decide)
          (isInfix_of_isInfix_spell (Holed.isInfix_of_isInfix_apply_protect closing))⟩

/-- The minified document around a script, with the hole or without it. -/
def result (before after : List Char) : List Holed :=
  Holed.run (Holed.apply (Holed.apply (around before after) (.protect .style)) .comments)
    Stage.whitespaceOrder

/-- The hole is still there in the end, or it has gone with a comment. -/
theorem holes_result :
    (result before after).flatMap Holed.holes = [none] ∨
      (result before after).flatMap Holed.holes = [] ∧
        Markup.commentOpen.IsInfix before ∧ Markup.commentClose.IsInfix after := by
  have one : (Holed.apply (around before after) (.protect .style)).flatMap Holed.holes =
      [none] := by
    rw [Holed.holes_apply_of_ne (by simp), holes_around]
  rw [result, Holed.holes_run_of_notMem (by decide)]
  rcases Holed.holes_apply_comments one with stays | ⟨gone, commented⟩
  · exact Or.inl stays
  · exact Or.inr ⟨gone, isInfix_of_commented_around commented.of_apply_protect⟩

/-! ## Runs on a document with a script -/

section Runs

variable (unopened : ¬ (Markup.openTag Region.script.name).IsInfix (before.map Char.toLower))
  (closes : '>' ∉ attributes) (noReturn : '\r' ∉ attributes) (ends : endsWord attributes = true)

include unopened closes noReturn ends

/-- The first script of a document is cut out of it, and what stands around it does not
depend on its body or on the blanks. -/
theorem cut_normalize (script : Script) :
    Region.script.pattern.cut
        (Margin.normalize (before ++ script.text attributes ++ after)) =
      (left before).map .kept ++
        .found (script.kept attributes) :: Region.script.pattern.cut (right after) := by
  have flat : '\r' ∉ Region.script.name ++ attributes ++ '>' ::
      (script.body ++ '<' :: '/' :: Region.script.name) := by
    have named : '\r' ∉ Region.script.name := by decide
    simp [named, noReturn, script.noReturn]
  have shape : before ++ script.text attributes ++ after =
      (before ++ script.leading) ++ '<' ::
        ((Region.script.name ++ attributes ++ '>' ::
          (script.body ++ '<' :: '/' :: Region.script.name)) ++ '>' ::
            (script.trailing ++ after)) := by
    simp [text, opening, Markup.openTag, Markup.closeTag]
  have normal := Margin.normalize_append flat (before ++ script.leading)
    (script.trailing ++ after)
  have front : (Margin.joinLines ((before ++ script.leading).dropWhile isMargin)).rdropWhile
      isBlank = left before := by
    rw [← Margin.joinLines_runwise.rdropWhile,
      rdropWhile_dropWhile_append before script.leading_blank, left]
  have back : (Margin.joinLines ((script.trailing ++ after).rdropWhile isMargin)).dropWhile
      isBlank = right after := by
    rw [← Margin.joinLines_runwise.dropWhile,
      dropWhile_rdropWhile_append after script.trailing_blank, right]
  have read := script.read_append closes ends
    (Margin.joinLines ((script.trailing ++ after).rdropWhile isMargin))
  rw [back] at read
  have cut := Region.cut_append_cons (front ▸ unopened_left unopened) read
  rw [front, spell_char, spell_char] at cut
  rw [shape]
  refine (congrArg Region.script.pattern.cut normal).trans ?_
  rw [← cut]
  congr 2
  simp [Markup.closeTag]

/-- The first two stages set a script aside and leave a document that it fills. -/
theorem run_start (script : Script) :
    Symbol.run (Symbol.start (String.ofList (before ++ script.text attributes ++ after)))
        [.normalize, .protect .script] =
      Holed.fillAll (spell (script.kept attributes)) (around before after) := by
  have normal : Symbol.apply (spell (before ++ script.text attributes ++ after)) .normalize =
      spell (Margin.normalize (before ++ script.text attributes ++ after)) := by
    rw [Symbol.apply_spell, Stage.pieces, List.map_map]
    rfl
  calc
    Symbol.run (Symbol.start (String.ofList (before ++ script.text attributes ++ after)))
          [.normalize, .protect .script] =
        Symbol.apply (Symbol.apply (spell (before ++ script.text attributes ++ after)) .normalize)
          (.protect .script) := by
      rw [Symbol.start, String.toList_ofList]
      rfl
    _ = ((left before).map Piece.kept ++ Piece.found (script.kept attributes) ::
          Region.script.pattern.cut (right after)).map Symbol.ofTextPiece := by
      rw [normal, Symbol.apply_spell, Stage.pieces,
        script.cut_normalize unopened closes noReturn ends]
    _ = spell (left before) ++ .stored (spell (script.kept attributes)) ::
          Symbol.apply (spell (right after)) (.protect .script) := by
      rw [Symbol.apply_spell, List.map_append, List.map_cons, List.map_map]
      rfl
    _ = Holed.fillAll (spell (script.kept attributes)) (around before after) := by
      rw [around, Holed.fillAll_append, Holed.fillAll_spell, Holed.fillAll, ← Holed.apply_fillAll,
        Holed.fillAll_spell]
      rfl

/-- A document is minified to what its script fills. -/
theorem minifyWith_eq_fillAll (script : Script) {sigil : Sigil}
    (absent : ¬ sigil.text.Sublist (before ++ script.text attributes ++ after)) :
    minifyWith sigil (String.ofList (before ++ script.text attributes ++ after)) =
      String.ofList (Symbol.flattenAll
        (Holed.fillAll (spell (script.kept attributes)) (result before after))) := by
  have order : Stage.order = [.normalize, .protect .script] ++
      ([.protect .style, .comments] ++ Stage.whitespaceOrder) := rfl
  rw [minifyWith, Draft.restore_run_start (by rwa [String.toList_ofList]), order,
    Symbol.run_append, script.run_start unopened closes noReturn ends, Holed.run_fillAll]
  rfl

end Runs

end Script

/-- What a document is minified to depends on the body of its first script and on the
blanks around the script in one place only, where what is kept of the script is written.
When a comment reaches over the script, the output can be the same for all scripts. -/
theorem minifyWith_script {before attributes after : List Char}
    (unopened : ¬ (Markup.openTag Region.script.name).IsInfix (before.map Char.toLower))
    (closes : '>' ∉ attributes) (noReturn : '\r' ∉ attributes)
    (ends : endsWord attributes = true) :
    (∃ front back, ∀ (script : Script) (sigil : Sigil),
      ¬ sigil.text.Sublist (before ++ script.text attributes ++ after) →
        minifyWith sigil (String.ofList (before ++ script.text attributes ++ after)) =
          String.ofList (front ++ script.kept attributes ++ back)) ∨
    (Markup.commentOpen.IsInfix before ∧ Markup.commentClose.IsInfix after ∧
      ∃ output, ∀ (script : Script) (sigil : Sigil),
        ¬ sigil.text.Sublist (before ++ script.text attributes ++ after) →
          minifyWith sigil (String.ofList (before ++ script.text attributes ++ after)) =
            output) := by
  rcases Script.holes_result with stays | ⟨gone, opening, closing⟩
  · left
    obtain ⟨front, back, output⟩ := Holed.exists_of_holes_eq_singleton stays
    refine ⟨front, back, fun script sigil absent => ?_⟩
    have spelled : Symbol.flattenAll (spell (script.kept attributes)) = script.kept attributes :=
      Symbol.flattenAll_map_char _
    rw [script.minifyWith_eq_fillAll unopened closes noReturn ends absent, output, spelled]
  · right
    obtain ⟨output, same⟩ := Holed.exists_of_holes_eq_nil gone
    refine ⟨opening, closing, String.ofList output, fun script sigil absent => ?_⟩
    rw [script.minifyWith_eq_fillAll unopened closes noReturn ends absent, same]

/-- Two scripts behind the same paragraph leave the same text around them, even when the
second one looks like the front of a comment and of preformatted text. -/
theorem minifyWith_script_behind_paragraph :
    ¬ (Markup.openTag Region.script.name).IsInfix ("<p> a </p>".toList.map Char.toLower) ∧
    '>' ∉ " defer".toList ∧ '\r' ∉ " defer".toList ∧ endsWord " defer".toList = true ∧
    ∃ front back,
      minifyWith ⟨0⟩ "<p> a </p>\n<script defer> f() </script> <p> b --> c" =
        String.ofList (front ++ "<script defer>f()</script>".toList ++ back) ∧
      minifyWith ⟨0⟩ "<p> a </p><script defer><!-- <pre> b</script><p> b --> c" =
        String.ofList (front ++ "<script defer><pre> b</script>".toList ++ back) := by
  have unopened : ¬ (Markup.openTag Region.script.name).IsInfix
      ("<p> a </p>".toList.map Char.toLower) := by decide +kernel
  have closes : '>' ∉ " defer".toList := by decide +kernel
  have noReturn : '\r' ∉ " defer".toList := by decide +kernel
  have ends : endsWord " defer".toList = true := by decide +kernel
  obtain ⟨front, back, same⟩ | ⟨opening, -⟩ :=
    @minifyWith_script _ _ "<p> b --> c".toList unopened closes noReturn ends
  · have first := same ⟨['\n'], " f() ".toList, [' '], by decide +kernel, by decide +kernel,
      by decide +kernel, by decide +kernel⟩ ⟨0⟩ (by decide +kernel)
    have second := same ⟨[], "<!-- <pre> b".toList, [], by decide +kernel, by decide +kernel,
      by decide +kernel, by decide +kernel⟩ ⟨0⟩ (by decide +kernel)
    refine ⟨unopened, closes, noReturn, ends, front, back, ?_, ?_⟩
    · refine (congrArg (minifyWith ⟨0⟩) ?_).trans (first.trans (congrArg String.ofList ?_))
      · decide +kernel
      · exact congrArg (front ++ · ++ back) (by decide +kernel)
    · refine (congrArg (minifyWith ⟨0⟩) ?_).trans (second.trans (congrArg String.ofList ?_))
      · decide +kernel
      · exact congrArg (front ++ · ++ back) (by decide +kernel)
  · exact absurd opening (by decide +kernel)

/-- A script goes with the comment that reaches over it. -/
example : minifyWith ⟨0⟩ "<!-- <script>a</script> -->b" = "b" := by
  decide +kernel

end HtmlMinifier
