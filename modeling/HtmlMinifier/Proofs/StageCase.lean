import HtmlMinifier.Proofs.BlockNames
import HtmlMinifier.Proofs.LetterCase

/-!
# Stages over recased documents

Every stage makes of a recased document what it makes of the document, recased.  Only the
wrappers of scripts and style sheets ask for something: `<![CDATA[` must stand neither in
the body nor in the recased body, since its letters are the only ones that are looked for
in one case.  What is written anew, line feeds, spaces, angle brackets and close tags in
small letters, is the same in every recasing.
-/

namespace HtmlMinifier

open Alphabet Recasing

variable {α β : Type} [Alphabet α] [Alphabet β] (recasing : Recasing α β)

/-! ## Margins and phrases that are replaced -/

namespace Margin

theorem trim_map (text : List α) :
    trim (text.map recasing.write) = (trim text).map recasing.write := by
  have front := recasing.dropWhile_map recasing.isMargin_write
  rw [trim, trim, front, ← List.map_reverse, front, ← List.map_reverse]

end Margin

/-- A phrase of plain characters is replaced where it was. -/
theorem Pattern.phrase_replace_map {letters : List Char} (nonempty : letters ≠ [])
    (plain : ∀ c ∈ letters, isPlain c = true) {word : List Char}
    (plainWord : ∀ c ∈ word, isPlain c = true) (text : List α) :
    (Pattern.phrase letters nonempty).replace (fun _ => spell word) (text.map recasing.write) =
      ((Pattern.phrase letters nonempty).replace (fun _ => spell word) text).map
        recasing.write := by
  apply replace_map id
  · intro text
    change ((Reader.after? letters (text.map recasing.write)).map fun rest => ((), rest)) = _
    rw [after?_map plain]
    change _ = ((Reader.after? letters text).map fun rest => ((), rest)).map _
    cases Reader.after? letters text <;> rfl
  · intro match'
    exact (recasing.map_spell fun c member => recasing.fold_of_isPlain (plainWord c member)).symm

theorem Margin.normalize_map (text : List α) :
    normalize (text.map recasing.write) = (normalize text).map recasing.write := by
  unfold normalize
  rw [trim_map]
  exact Pattern.phrase_replace_map recasing (by decide) (by decide)
    (by decide : ∀ c ∈ ['\n'], isPlain c = true) _

/-! ## Wrappers of scripts and style sheets -/

namespace Wrapper

theorem opened?_map (text : List α) :
    opened? (text.map recasing.write) = (opened? text).map (List.map recasing.write) := by
  rw [opened?, opened?, recasing.dropWhile_map recasing.isBlank_write, after?_map (by decide)]

theorem isClosing_map (text : List α) : isClosing (text.map recasing.write) = isClosing text := by
  rw [isClosing, isClosing, after?_map (by decide)]
  cases Reader.after? Markup.commentClose text with
  | none => rfl
  | some rest =>
      simp only [Option.map_some, List.all_map]
      congr 1
      exact funext recasing.isBlank_write

theorem isScriptClosing_map (text : List α) :
    isScriptClosing (text.map recasing.write) = isScriptClosing text := by
  have blanks := recasing.dropWhile_map recasing.isBlank_write
  rw [isScriptClosing, isScriptClosing, blanks, after?_map (by decide)]
  cases Reader.after? Markup.lineComment (text.dropWhile isBlank) <;>
    simp only [Option.map_none, Option.map_some, Option.getD_none, Option.getD_some, blanks,
      isClosing_map]

theorem dropEnd_map {isEnd : List α → Bool} {isEnd' : List β → Bool}
    (same : ∀ text, isEnd' (text.map recasing.write) = isEnd text) (text : List α) :
    dropEnd isEnd' (text.map recasing.write) = (dropEnd isEnd text).map recasing.write := by
  rw [dropEnd, dropEnd, (respects_ite same).upTo_map]
  cases Reader.upTo (fun rest => if isEnd rest then some (rest, []) else none) text <;> rfl

theorem uncommentScript_map (body : List α) :
    uncommentScript (body.map recasing.write) = (uncommentScript body).map recasing.write := by
  rw [uncommentScript, uncommentScript, opened?_map]
  have drop := dropEnd_map recasing (isScriptClosing_map recasing)
  cases opened? body with
  | none => exact drop body
  | some rest =>
      simp only [Option.map_some, Option.elim_some,
        recasing.dropWhile_map recasing.isBlank_write]
      exact drop (rest.dropWhile isBlank)

theorem uncommentStyle_map (body : List α) :
    uncommentStyle (body.map recasing.write) = (uncommentStyle body).map recasing.write := by
  rw [uncommentStyle, uncommentStyle, opened?_map]
  have drop := dropEnd_map recasing (isClosing_map recasing)
  cases opened? body with
  | none => exact drop body
  | some rest => exact drop rest

/-- A text in which `<![CDATA[` stands in no case. -/
def Uncoded (text : List α) : Prop :=
  ∀ written : List Char, written.map Char.toLower = Markup.cdataOpen.map Char.toLower →
    ¬ (spell written).IsInfix text

theorem Uncoded.of_isInfix {part text : List α} (uncoded : Uncoded text)
    (inside : part.IsInfix text) : Uncoded part :=
  fun written same within => uncoded written same (within.trans inside)

/-- Nor does it stand in the recased text. -/
theorem Uncoded.map {text : List α} (uncoded : Uncoded text) :
    Uncoded (text.map recasing.write) := by
  intro written same inside
  obtain ⟨part, within, shape⟩ := List.infix_map_iff.mp inside
  obtain ⟨letters, rfl, rfl⟩ := recasing.exists_of_map_eq_spell shape.symm
  have ascii : ∀ c ∈ letters, (recasing.fold c).toNat < 128 := by
    intro c member
    have known : ∀ d ∈ Markup.cdataOpen.map Char.toLower, d.toNat < 128 := by decide
    rw [← toNat_toLower_lt]
    exact known _ (same ▸ List.mem_map_of_mem (List.mem_map_of_mem member))
  apply uncoded letters _ within
  rw [← same, List.map_map]
  exact List.map_congr_left fun c member => (recasing.toLower_fold_of_lt (ascii c member)).symm

theorem Uncoded.eraseCdata_eq {body : List α} (uncoded : Uncoded body) :
    eraseCdata body = body := by
  apply eraseCdata_of_not_occurs
  rw [Reader.occurs, Reader.upTo_phrase_eq_none (uncoded Markup.cdataOpen rfl)]
  rfl

theorem script_map {body : List α} (uncoded : Uncoded body) :
    script (body.map recasing.write) = (script body).map recasing.write := by
  have inside := uncoded.of_isInfix (uncommentScript_isInfix body)
  rw [script, script, uncommentScript_map, (inside.map recasing).eraseCdata_eq,
    inside.eraseCdata_eq, Margin.trim_map]

theorem style_map {body : List α} (uncoded : Uncoded body) :
    style (body.map recasing.write) = (style body).map recasing.write := by
  have inside := uncoded.of_isInfix (uncommentStyle_isInfix body)
  rw [style, style, uncommentStyle_map, (inside.map recasing).eraseCdata_eq,
    inside.eraseCdata_eq, Margin.trim_map]

end Wrapper

/-! ## Elements and regions -/

namespace Element

/-- An element, recased. -/
def map (recasing : Recasing α β) (element : Element α) : Element β :=
  ⟨element.opening.map recasing.write, element.body.map recasing.write,
    element.closing.map recasing.write⟩

theorem read_map {name : List Char} (ascii : ∀ c ∈ name, c.toNat < 128) (text : List α) :
    read name (text.map recasing.write) =
      (read name text).map (Prod.map (map recasing) (List.map recasing.write)) := by
  have opened : ∀ c ∈ Markup.openTag name, c.toNat < 128 :=
    List.forall_mem_cons.mpr ⟨by decide, ascii⟩
  have closed : ∀ c ∈ Markup.closeTag name, c.toNat < 128 := by
    simp only [Markup.closeTag, List.mem_cons, List.mem_append, List.not_mem_nil, or_false]
    rintro c (rfl | rfl | inName | rfl)
    · decide
    · decide
    · exact ascii c inName
    · decide
  have blanks := recasing.dropWhile_map recasing.isBlank_write
  have closing : recasing.Respects (Reader.phraseAnyCase (Markup.closeTag name))
      (Reader.phraseAnyCase (Markup.closeTag name)) := respects_phraseAnyCase closed
  have tagged : recasing.Respects (Reader.phrase ['>']) (Reader.phrase ['>']) :=
    respects_phrase (by decide)
  simp only [read, bind]
  rw [blanks, respects_name opened]
  cases Reader.name (Markup.openTag name) (text.dropWhile isBlank) with
  | none => rfl
  | some head =>
      simp only [Option.map_some, Option.bind_some, both, Prod.map, tagged.upTo_map]
      cases Reader.upTo (Reader.phrase ['>']) head.2 with
      | none => rfl
      | some tag =>
          simp only [Option.map_some, Option.bind_some, split, closing.upTo_map]
          cases Reader.upTo (Reader.phraseAnyCase (Markup.closeTag name)) tag.rest with
          | none => rfl
          | some inner => simp [split, map, blanks]

end Element

namespace Region

theorem ascii_name (region : Region) : ∀ c ∈ region.name, c.toNat < 128 := by
  cases region <;> decide

/-- A close tag that is written anew is in small letters. -/
theorem map_closeTag (region : Region) :
    (spell (Markup.closeTag region.name)).map recasing.write =
      spell (Markup.closeTag region.name) := by
  have stays : ∀ c : Char, (isPlain c || c.isLower) = true → recasing.fold c = c := by
    intro c same
    rcases Bool.or_eq_true_iff.mp same with plain | small
    · exact recasing.fold_of_isPlain plain
    · exact recasing.fold_of_isLower c small
  have letters : ∀ c ∈ Markup.closeTag region.name, (isPlain c || c.isLower) = true := by
    cases region <;> decide
  exact recasing.map_spell fun c member => stays c (letters c member)

/-- Scripts and style sheets lose their wrappers and need a body without `<![CDATA[`. -/
theorem content_map (region : Region) {element : Element α}
    (uncoded : region.closer ≠ [] → Wrapper.Uncoded element.body) :
    region.content (element.map recasing) = (region.content element).map recasing.write := by
  cases region with
  | script =>
      simp only [content, Element.map, Wrapper.script_map recasing (uncoded (by decide)),
        List.map_append, map_closeTag]
  | style =>
      simp only [content, Element.map, Wrapper.style_map recasing (uncoded (by decide)),
        List.map_append, map_closeTag]
  | pre | textarea => simp only [content, Element.map, Element.text, List.map_append]

theorem read_map (region : Region) {text : List α}
    (uncoded : region.closer ≠ [] → Wrapper.Uncoded text) :
    region.pattern.read (text.map recasing.write) =
      (region.pattern.read text).map
        (Prod.map (List.map recasing.write) (List.map recasing.write)) := by
  rw [read_pattern, read_pattern, Element.read_map recasing region.ascii_name]
  cases found : Element.read region.name text with
  | none => rfl
  | some pair =>
      obtain ⟨before, behind, -, -, shape⟩ := Element.exists_of_read found
      have body : pair.1.body.IsInfix text :=
        ⟨before ++ pair.1.opening, pair.1.closing ++ behind ++ pair.2, by
          simp [shape, Element.text]⟩
      have content := content_map recasing region fun anew => (uncoded anew).of_isInfix body
      exact congrArg some (Prod.ext content rfl)

theorem cut_map (region : Region) {text : List α}
    (uncoded : region.closer ≠ [] → Wrapper.Uncoded text) :
    region.pattern.cut (text.map recasing.write) =
      (region.pattern.cut text).map (recasing.piece (List.map recasing.write)) := by
  apply Recasing.cut_map (List.map recasing.write)
    (fun text => region.closer ≠ [] → Wrapper.Uncoded text) _ _ _ text uncoded
  · exact fun a text uncoded anew => (uncoded anew).of_isInfix (List.suffix_cons a text).isInfix
  · exact fun text content rest found uncoded anew =>
      (uncoded anew).of_isInfix (region.splits found).isInfix
  · exact fun text uncoded => read_map recasing region uncoded

end Region

/-! ## Comments -/

namespace Comment

theorem read_map (text : List α) :
    read (text.map recasing.write) =
      (read text).map (Prod.map (List.map recasing.write) (List.map recasing.write)) := by
  have closed : recasing.Respects (Reader.phrase Markup.commentClose)
      (Reader.phrase Markup.commentClose) := respects_phrase (by decide)
  simp only [read, bind]
  rw [after?_map (by decide)]
  cases Reader.after? Markup.commentOpen text with
  | none => rfl
  | some inside =>
      simp only [Option.map_some, Option.bind_some, closed.upTo_map]
      cases Reader.upTo (Reader.phrase Markup.commentClose) inside <;> rfl

theorem isConditional_map (content : List α) :
    isConditional (content.map recasing.write) = isConditional content := by
  rw [isConditional, isConditional, after?_map (by decide), Option.isSome_map,
    occurs_map (by decide)]

theorem strip_map (text : List α) :
    strip (text.map recasing.write) = (strip text).map recasing.write := by
  apply replace_map (List.map recasing.write) (read_map recasing)
  intro content
  have marks : ∀ letters : List Char, (∀ c ∈ letters, isPlain c = true) →
      (spell letters).map recasing.write = spell letters := fun letters plain =>
    recasing.map_spell fun c member => recasing.fold_of_isPlain (plain c member)
  rw [residue, residue, isConditional_map]
  split
  · rw [List.map_append, List.map_append, marks Markup.commentOpen (by decide),
      marks Markup.commentClose (by decide)]
  · rfl

end Comment

/-! ## Lines -/

namespace Line

theorem endsLine_map (text : List α) : endsLine (text.map recasing.write) = endsLine text := by
  cases text with
  | nil => rfl
  | cons a text => exact recasing.is_write (by decide) a

theorem trailing?_map : recasing.Respects trailing? trailing? := by
  intro text
  induction text with
  | nil => rfl
  | cons a text ih =>
      rw [List.map_cons, trailing?, trailing?, ih, endsLine_map, isBlank_write]
      cases isBlank a with
      | false => rfl
      | true =>
          cases trailing? text with
          | some pair => rfl
          | none => cases endsLine text <;> rfl

theorem startsLine_map (run : List α) :
    startsLine (run.map recasing.write) = startsLine run := by
  unfold startsLine
  rw [List.getLast?_map]
  cases run.getLast? with
  | none => rfl
  | some a => exact recasing.is_write (by decide) a

theorem trimFrom_map (atStart : Bool) (text : List α) :
    trimFrom atStart [] (text.map recasing.write) =
      (trimFrom atStart [] text).map recasing.write := by
  induction atStart, text using trimFrom_induction with
  | nil atStart => simp
  | start a text blank ih =>
      have blank' : isBlank (recasing.write a) = true := by rwa [isBlank_write]
      rw [List.map_cons, trimFrom_start blank, trimFrom_start blank',
        recasing.dropWhile_map recasing.isBlank_write, ih]
  | trailing text run rest read ih =>
      have read' := trailing?_map recasing text
      rw [read, Option.map_some] at read'
      rw [trimFrom_trailing read, trimFrom_trailing read', startsLine_map, ih]
  | kept atStart a text inside refused ih =>
      have refused' := trailing?_map recasing (a :: text)
      rw [refused, Option.map_none, List.map_cons] at refused'
      have inside' : (atStart && isBlank (recasing.write a)) = false := by rwa [isBlank_write]
      rw [List.map_cons, trimFrom_kept inside refused, trimFrom_kept inside' refused',
        trimFrom_eq _ [a], trimFrom_eq _ [recasing.write a], recasing.is_write (by decide), ih]
      rfl

theorem trim_map (text : List α) :
    trim (text.map recasing.write) = (trim text).map recasing.write :=
  trimFrom_map recasing true text

end Line

/-! ## Tags of blocks -/

namespace BlockTag

theorem mark_map : recasing.Respects mark mark := by
  intro text
  have closing : recasing.Respects (Reader.phrase ['<', '/']) (Reader.phrase ['<', '/']) :=
    respects_phrase (by decide)
  have opening : recasing.Respects (Reader.phrase ['<']) (Reader.phrase ['<']) :=
    respects_phrase (by decide)
  rw [mark, mark, closing, opening]
  cases Reader.phrase ['<', '/'] text <;> rfl

theorem ascii_spelled : ∀ letters ∈ spelled, ∀ c ∈ letters, c.toNat < 128 := by
  decide +kernel

theorem name_map : recasing.Respects name name := fun text =>
  name_eq_map fun letters member => Recasing.respects_name (ascii_spelled letters member) text

theorem tag_map : recasing.Respects tag tag := by
  intro text
  have close : recasing.Respects (Reader.phrase ['>']) (Reader.phrase ['>']) :=
    respects_phrase (by decide)
  simp only [tag, bind]
  rw [mark_map]
  cases mark text with
  | none => rfl
  | some opening =>
      simp only [Option.map_some, Option.bind_some, both, Prod.map]
      rw [name_map]
      cases name opening.2 with
      | none => rfl
      | some letters =>
          simp only [Option.map_some, Option.bind_some, both, Prod.map]
          rw [close.upTo_map]
          cases Reader.upTo (Reader.phrase ['>']) letters.2 with
          | none => rfl
          | some inner => simp [split]

theorem read_map (text : List α) :
    read (text.map recasing.write) = (read text).map recasing.both := by
  cases text with
  | nil => rfl
  | cons a text =>
      rw [List.map_cons, read, read, isBlank_write]
      split
      · rw [recasing.dropWhile_map recasing.isBlank_write, tag_map]
      · rfl

theorem moveUp_map (text : List α) :
    moveUp (text.map recasing.write) = (moveUp text).map recasing.write := by
  apply replace_map (List.map recasing.write) (read_map recasing)
  intro taken
  rfl

end BlockTag

/-! ## The edges of text -/

namespace TextEdge

theorem read_map (text : List α) :
    read (text.map recasing.write) =
      (read text).map (Prod.map (List.map recasing.write) (List.map recasing.write)) := by
  have outside : ∀ a, (!is '<' (recasing.write a)) = !is '<' a := fun a =>
    congrArg (!·) (recasing.is_write (by decide) a)
  simp only [read, bind]
  rw [after?_map (by decide)]
  cases Reader.after? ['>'] text with
  | none => rfl
  | some inside =>
      simp only [Option.map_some, Option.bind_some]
      rw [recasing.takeWhile_map outside, recasing.dropWhile_map outside, List.isEmpty_map]
      split
      · rfl
      · rw [after?_map (by decide)]
        cases Reader.after? ['<'] (inside.dropWhile fun a => !is '<' a) <;> rfl

theorem soften_map (text : List α) :
    soften (text.map recasing.write) = (soften text).map recasing.write := by
  have space_map : ∀ run : List α,
      space (run.map recasing.write) = (space run).map recasing.write := by
    intro run
    rw [space, space, List.isEmpty_map]
    split
    · rfl
    · rw [List.map_singleton, write_ofChar, recasing.fold_of_isPlain (by decide)]
  simp only [soften]
  rw [recasing.takeWhile_map recasing.isBlank_write, recasing.dropWhile_map recasing.isBlank_write,
    ← List.map_reverse, recasing.takeWhile_map recasing.isBlank_write,
    recasing.dropWhile_map recasing.isBlank_write, ← List.map_reverse, space_map, space_map,
    List.map_append, List.map_append]

theorem collapse_map (text : List α) :
    collapse (text.map recasing.write) = (collapse text).map recasing.write := by
  apply replace_map (List.map recasing.write) (read_map recasing)
  intro content
  rw [write, write, soften_map, List.map_cons, List.map_append, List.map_singleton, write_ofChar,
    write_ofChar, recasing.fold_of_isPlain (by decide), recasing.fold_of_isPlain (by decide)]

end TextEdge

/-! ## The first attribute -/

namespace Attribute

/-- A parted tag, recased. -/
def map (recasing : Recasing α β) (tag : Attribute α) : Attribute β :=
  ⟨tag.head.map recasing.write, tag.tail.map recasing.write⟩

theorem readTail_map : recasing.Respects readTail readTail := by
  intro text
  have close : recasing.Respects (Reader.phrase ['>']) (Reader.phrase ['>']) :=
    respects_phrase (by decide)
  cases text with
  | nil => rfl
  | cons a text =>
      rw [List.map_cons, readTail, readTail, isBlank_write]
      split
      · simp only [bind]
        rw [recasing.dropWhile_map recasing.isBlank_write, close.upTo_map]
        cases Reader.upTo (Reader.phrase ['>']) (text.dropWhile isBlank) with
        | none => rfl
        | some cut =>
            simp only [Option.map_some, Option.bind_some, split, List.isEmpty_map,
              recasing.takeWhile_map recasing.isBlank_write, List.getLast?_map]
            cases cut.before.isEmpty with
            | true =>
                simp only [if_true]
                cases (text.takeWhile isBlank).getLast? <;> simp [both]
            | false =>
                simp only [Bool.false_eq_true, if_false, List.isEmpty_map]
                split <;> simp [both]
      · rfl

theorem read_map (text : List α) :
    read (text.map recasing.write) =
      (read text).map (Prod.map (map recasing) (List.map recasing.write)) := by
  simp only [read, bind]
  rw [after?_map (by decide)]
  cases Reader.after? ['<'] text with
  | none => rfl
  | some named =>
      simp only [Option.map_some, Option.bind_some]
      rw [recasing.takeWhile_map recasing.isNameSymbol_write,
        recasing.dropWhile_map recasing.isNameSymbol_write, List.isEmpty_map]
      split
      · rfl
      · rw [readTail_map]
        have angle : recasing.write (ofChar '<') = ofChar '<' := by
          rw [write_ofChar, recasing.fold_of_isPlain (by decide)]
        cases readTail (named.dropWhile isNameSymbol) <;> simp [both, map, angle]

theorem reflow_map (text : List α) :
    reflow (text.map recasing.write) = (reflow text).map recasing.write := by
  apply replace_map (map recasing) (read_map recasing)
  intro tag
  rw [write, write, map, List.map_append, List.map_cons, write_ofChar,
    recasing.fold_of_isPlain (by decide)]

end Attribute

/-! ## All stages -/

/-- A stage makes of a recased document what it makes of the document, recased. -/
theorem Stage.pieces_map (stage : Stage) {text : List α}
    (uncoded : ∀ region, stage = .protect region → region.closer ≠ [] → Wrapper.Uncoded text) :
    stage.pieces (text.map recasing.write) =
      (stage.pieces text).map (recasing.piece (List.map recasing.write)) := by
  have kept : ∀ text : List α, (text.map recasing.write).map .kept =
      (text.map .kept).map (recasing.piece (List.map recasing.write)) := by
    intro text
    rw [List.map_map, List.map_map]
    rfl
  cases stage with
  | protect region => exact Region.cut_map recasing region (uncoded region rfl)
  | normalize | comments | lines | blocks | texts | attributes =>
      simp only [pieces, Margin.normalize_map, Comment.strip_map, Line.trim_map,
        BlockTag.moveUp_map, TextEdge.collapse_map, Attribute.reflow_map, kept]

end HtmlMinifier
