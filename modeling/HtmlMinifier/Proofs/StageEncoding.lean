import HtmlMinifier.Proofs.BlockNames
import HtmlMinifier.Proofs.Encoding

/-!
# Stages do not see what an opaque symbol stands for

Every stage makes of an encoded text the encoding of what it makes of the text:
the same symbols are kept, the same contents are set aside.  This holds for every
encoding and every text.  A token that stands directly before a letter, before a
second token or before the rest of another token changes nothing, because a stage
begins and stops at marks only and no word of an opaque symbol holds one.

There is one law for each reader of a stage and for each function built on it;
`Stage.pieces_encode` at the end gathers them.
-/

namespace HtmlMinifier

open Alphabet Encoding

variable {α β : Type} [Alphabet α] [Alphabet β] (encoding : Encoding α β)

/-! ## Blanks and margins -/

theorem agrees_isBlank : encoding.AgreesThroughout isBlank isBlank :=
  encoding.agreesThroughout_satisfies (by simp +contextual [isMark, or_imp])

theorem agrees_isMargin : encoding.AgreesThroughout isMargin isMargin :=
  encoding.agreesThroughout_satisfies (by simp +contextual [isMark, or_imp])

theorem agrees_is {c : Char} (mark : isMark c = true) :
    encoding.AgreesThroughout (is c) (is c) :=
  encoding.agreesThroughout_satisfies fun _ same => eq_of_beq same ▸ mark

theorem agrees_isNameSymbol : encoding.Agrees isNameSymbol isNameSymbol :=
  encoding.agrees_satisfies (by
    simp +contextual [isTelling, isMark, Char.isAlphanum, or_imp])

theorem Encoding.isBlank_of_inert {b : β} (inert : Inert b) : isBlank b = false :=
  satisfies_eq_false (by simp +contextual [isMark, or_imp]) inert

theorem dropWhile_isBlank_encode (text : List α) :
    (encoding.encode text).dropWhile isBlank = encoding.encode (text.dropWhile isBlank) :=
  (agrees_isBlank encoding).agrees.dropWhile_encode text

theorem Margin.trim_encode (text : List α) :
    trim (encoding.encode text) = encoding.encode (trim text) := by
  have agrees := agrees_isMargin encoding
  change ((encoding.encode text).dropWhile isMargin).rdropWhile isMargin =
    encoding.encode ((text.dropWhile isMargin).rdropWhile isMargin)
  rw [agrees.agrees.dropWhile_encode, agrees.rdropWhile_encode]

/-! ## Phrases that are replaced -/

/-- A phrase that begins with a mark is found in an encoded text where it is
found in the text. -/
theorem Pattern.phrase_replace_encode (c : Char) (letters : List Char)
    (nonempty : c :: letters ≠ []) (mark : isMark c = true)
    (telling : ∀ d ∈ c :: letters, isTelling d = true) (word : List Char) (text : List α) :
    (Pattern.phrase (c :: letters) nonempty).replace (fun _ => spell word)
        (encoding.encode text) =
      encoding.encode
        ((Pattern.phrase (c :: letters) nonempty).replace (fun _ => spell word) text) := by
  apply replace_encode id
  · intro text
    change ((Reader.after? (c :: letters) (encoding.encode text)).map fun rest => ((), rest)) =
      ((Reader.after? (c :: letters) text).map fun rest => ((), rest)).map
        (Prod.map id encoding.encode)
    rw [after?_encode telling]
    cases Reader.after? (c :: letters) text <;> rfl
  · intro b inert text
    change ((Reader.after? (c :: letters) (b :: text)).map fun rest => ((), rest)) = none
    rw [refuses_after? mark inert, Option.map_none]
  · intro match'
    exact (encoding.encode_spell word).symm

theorem Margin.normalize_encode (text : List α) :
    normalize (encoding.encode text) = encoding.encode (normalize text) := by
  unfold normalize
  rw [trim_encode]
  exact Pattern.phrase_replace_encode encoding '\r' ['\n'] (by decide) (by decide) (by decide)
    ['\n'] _

/-! ## Wrappers of scripts and style sheets -/

namespace Wrapper

theorem opened?_encode (text : List α) :
    opened? (encoding.encode text) = (opened? text).map encoding.encode := by
  rw [opened?, opened?, dropWhile_isBlank_encode, after?_encode (by decide)]

theorem isClosing_encode (text : List α) :
    isClosing (encoding.encode text) = isClosing text := by
  rw [isClosing, isClosing, after?_encode (by decide)]
  cases Reader.after? Markup.commentClose text with
  | none => rfl
  | some rest => exact (agrees_isBlank encoding).all_encode rest

theorem isScriptClosing_encode (text : List α) :
    isScriptClosing (encoding.encode text) = isScriptClosing text := by
  rw [isScriptClosing, isScriptClosing, dropWhile_isBlank_encode, after?_encode (by decide)]
  cases Reader.after? Markup.lineComment (text.dropWhile isBlank) <;>
    simp only [Option.map_none, Option.map_some, Option.getD_none, Option.getD_some,
      dropWhile_isBlank_encode, isClosing_encode]

theorem isClosing_of_inert {b : β} (inert : Inert b) (text : List β) :
    isClosing (b :: text) = false := by
  unfold isClosing
  rw [Markup.commentClose, refuses_after? (by decide) inert]

theorem isScriptClosing_of_inert {b : β} (inert : Inert b) (text : List β) :
    isScriptClosing (b :: text) = false := by
  have stays : (b :: text).dropWhile isBlank = b :: text := by
    simp [isBlank_of_inert inert]
  simp only [isScriptClosing, stays]
  rw [Markup.lineComment, refuses_after? (by decide) inert, Option.getD_none, stays,
    isClosing_of_inert inert]

theorem dropEnd_encode {isEnd : List α → Bool} {isEnd' : List β → Bool}
    (same : ∀ text, isEnd' (encoding.encode text) = isEnd text)
    (refuses : ∀ ⦃b⦄, Inert b → ∀ text, isEnd' (b :: text) = false) (text : List α) :
    dropEnd isEnd' (encoding.encode text) = encoding.encode (dropEnd isEnd text) := by
  have cut := (respects_ite same).upTo_encode (by
    intro b inert text
    simp [refuses inert text]) text
  rw [dropEnd, dropEnd, cut]
  cases Reader.upTo (fun rest => if isEnd rest then some (rest, []) else none) text <;> rfl

theorem uncommentScript_encode (body : List α) :
    uncommentScript (encoding.encode body) = encoding.encode (uncommentScript body) := by
  rw [uncommentScript, uncommentScript, opened?_encode]
  have drop := dropEnd_encode encoding (isScriptClosing_encode encoding)
    fun _ => isScriptClosing_of_inert
  cases opened? body with
  | none => exact drop body
  | some rest =>
      simp only [Option.map_some, Option.elim_some, dropWhile_isBlank_encode]
      exact drop (rest.dropWhile isBlank)

theorem uncommentStyle_encode (body : List α) :
    uncommentStyle (encoding.encode body) = encoding.encode (uncommentStyle body) := by
  rw [uncommentStyle, uncommentStyle, opened?_encode]
  have drop := dropEnd_encode encoding (isClosing_encode encoding) fun _ => isClosing_of_inert
  cases opened? body with
  | none => exact drop body
  | some rest => exact drop rest

theorem eraseCdata_encode (body : List α) :
    eraseCdata (encoding.encode body) = encoding.encode (eraseCdata body) := by
  have opening :=
    Pattern.phrase_replace_encode encoding '<' ['!', '[', 'C', 'D', 'A', 'T', 'A', '[']
    (by decide) (by decide) (by decide) []
  have closing := Pattern.phrase_replace_encode encoding ']' [']', '>'] (by decide) (by decide)
    (by decide) []
  have found : Reader.occurs Markup.cdataOpen (encoding.encode body) =
      Reader.occurs Markup.cdataOpen body := occurs_encode (by decide) (by decide) body
  unfold eraseCdata
  rw [found]
  split
  · exact (congrArg _ (opening body)).trans (closing _)
  · rfl

theorem script_encode (body : List α) :
    script (encoding.encode body) = encoding.encode (script body) := by
  rw [script, script, uncommentScript_encode, eraseCdata_encode, Margin.trim_encode]

theorem style_encode (body : List α) :
    style (encoding.encode body) = encoding.encode (style body) := by
  rw [style, style, uncommentStyle_encode, eraseCdata_encode, Margin.trim_encode]

end Wrapper

/-! ## Elements and regions -/

namespace Element

/-- An element, encoded. -/
def encode (encoding : Encoding α β) (element : Element α) : Element β :=
  ⟨encoding.encode element.opening, encoding.encode element.body,
    encoding.encode element.closing⟩

theorem respects_close (text : List α) :
    Reader.upTo (Reader.phrase ['>']) (encoding.encode text) =
      (Reader.upTo (Reader.phrase ['>']) text).map encoding.split :=
  (respects_phrase (by decide)).upTo_encode (refuses_phrase (by decide)) text

theorem read_encode {name : List Char} (telling : ∀ c ∈ name, isTelling c = true)
    (text : List α) :
    read name (encoding.encode text) =
      (read name text).map (Prod.map (encode encoding) encoding.encode) := by
  have opened : ∀ c ∈ Markup.openTag name, isTelling c = true :=
    List.forall_mem_cons.mpr ⟨by decide, telling⟩
  have closed : ∀ c ∈ Markup.closeTag name, isTelling c = true := by
    intro c member
    simp only [Markup.closeTag, List.mem_cons, List.mem_append, List.not_mem_nil, or_false]
      at member
    rcases member with rfl | rfl | inName | rfl
    · decide
    · decide
    · exact telling c inName
    · decide
  have closing : encoding.Respects (Reader.phraseAnyCase (Markup.closeTag name))
      (Reader.phraseAnyCase (Markup.closeTag name)) := respects_phraseAnyCase closed
  have ending := closing.upTo_encode (refuses_phraseAnyCase (by decide))
  simp only [read, bind]
  rw [dropWhile_isBlank_encode, respects_name opened]
  cases Reader.name (Markup.openTag name) (text.dropWhile isBlank) with
  | none => rfl
  | some head =>
      simp only [Option.map_some, Option.bind_some, both, Prod.map, respects_close]
      cases Reader.upTo (Reader.phrase ['>']) head.2 with
      | none => rfl
      | some tag =>
          simp only [Option.map_some, Option.bind_some, split, ending]
          cases Reader.upTo (Reader.phraseAnyCase (Markup.closeTag name)) tag.rest with
          | none => rfl
          | some inner =>
              simp [split, encode, dropWhile_isBlank_encode]

theorem refuses_read (name : List Char) : Refuses (read name : List β → _) := by
  intro b inert text
  simp only [read, bind, List.dropWhile_cons, isBlank_of_inert inert, Bool.false_eq_true,
    if_false]
  rw [Markup.openTag, refuses_name (by decide) inert, Option.bind_none]

end Element

namespace Region

theorem telling_name (region : Region) : ∀ c ∈ region.name, isTelling c = true := by
  cases region <;> decide

theorem content_encode (region : Region) (element : Element α) :
    region.content (element.encode encoding) = encoding.encode (region.content element) := by
  cases region <;>
    simp [content, Element.encode, Element.text, Wrapper.script_encode, Wrapper.style_encode]

theorem cut_encode (region : Region) (text : List α) :
    region.pattern.cut (encoding.encode text) =
      (region.pattern.cut text).flatMap (encoding.piece encoding.encode) := by
  apply Encoding.cut_encode
  · intro text
    simp only [pattern, Pattern.map, Element.pattern]
    rw [Element.read_encode encoding region.telling_name]
    cases Element.read region.name text with
    | none => rfl
    | some pair => simp [content_encode]
  · intro b inert text
    simp only [pattern, Pattern.map, Element.pattern]
    rw [Element.refuses_read region.name inert]

end Region

/-! ## Comments -/

namespace Comment

theorem read_encode (text : List α) :
    read (encoding.encode text) =
      (read text).map (Prod.map encoding.encode encoding.encode) := by
  simp only [read, bind]
  rw [after?_encode (by decide)]
  cases Reader.after? Markup.commentOpen text with
  | none => rfl
  | some inside =>
      simp only [Option.map_some, Option.bind_some]
      rw [Markup.commentClose,
        (respects_phrase (by decide)).upTo_encode (refuses_phrase (by decide))]
      cases Reader.upTo (Reader.phrase ['-', '-', '>']) inside <;> rfl

theorem isConditional_encode (content : List α) :
    isConditional (encoding.encode content) = isConditional content := by
  rw [isConditional, isConditional, after?_encode (by decide), Option.isSome_map,
    Markup.sectionOpen, occurs_encode (by decide) (by decide)]

theorem refuses_read : Refuses (read : List β → _) := by
  intro b inert text
  simp only [read, bind]
  rw [Markup.commentOpen, refuses_after? (by decide) inert, Option.bind_none]

theorem strip_encode (text : List α) :
    strip (encoding.encode text) = encoding.encode (strip text) := by
  apply replace_encode encoding.encode (read_encode encoding) refuses_read
  intro content
  rw [residue, residue, isConditional_encode]
  split <;> simp

end Comment

/-! ## Lines -/

namespace Line

theorem endsLine_encode (text : List α) :
    endsLine (encoding.encode text) = endsLine text := by
  cases text with
  | nil => rfl
  | cons a text =>
      rcases List.exists_cons_of_ne_nil (encoding.write_ne_nil a) with ⟨b, word, written⟩
      simp [encode_cons, endsLine, written,
        agrees_is encoding (by decide : isMark '\n' = true) a b (by simp [written])]

theorem respects_trailing? : encoding.Respects trailing? trailing? := by
  intro text
  induction text with
  | nil => rfl
  | cons a text ih =>
      have blanks := agrees_isBlank encoding a
      rcases char_or_sealed a with ⟨c, rfl⟩ | sealed
      · rw [encode_ofChar_cons, trailing?, trailing?, ih, endsLine_encode]
        have same : isBlank (ofChar c : β) = isBlank (ofChar c : α) := by simp [isBlank]
        rw [same]
        cases isBlank (ofChar c : α) with
        | false => rfl
        | true =>
            cases trailing? text with
            | some pair => simp [both]
            | none => cases endsLine text <;> simp [both, encoding.write_ofChar]
      · rcases encoding.exists_foreign sealed with ⟨b, word, written, foreign⟩
        have stops : isBlank a = false := satisfies_of_char?_eq_none sealed _
        simp [encode_cons, written, trailing?, stops, isBlank_of_inert foreign.inert]

theorem refuses_trailing? : Refuses (trailing? : Reader β) := by
  intro b inert text
  simp [trailing?, isBlank_of_inert inert]

theorem startsLine_encode (run : List α) :
    startsLine (encoding.encode run) = startsLine run := by
  have last := (agrees_is encoding (by decide : isMark '\n' = true)).any_getLast?_encode run
  have view : ∀ {γ : Type} [Alphabet γ] (run : List γ),
      startsLine run = run.getLast?.any (is '\n') := by
    intro γ _ run
    unfold startsLine
    cases run.getLast? <;> rfl
  rw [view, view, last]

/-- Inert symbols stay, and the walk is inside a line behind them. -/
theorem trimFrom_append_of_inert {word : List β} (nonempty : word ≠ [])
    (inert : ∀ b ∈ word, Inert b) (atStart : Bool) (text : List β) :
    trimFrom atStart [] (word ++ text) = word ++ trimFrom false [] text := by
  induction word generalizing atStart with
  | nil => contradiction
  | cons b word ih =>
      have first := inert b List.mem_cons_self
      have inside : (atStart && isBlank b) = false := by simp [isBlank_of_inert first]
      have mark : isMark '\n' = true := by decide
      have noBreak : is '\n' b = false :=
        satisfies_eq_false (fun _ same => eq_of_beq same ▸ mark) first
      rw [List.cons_append, trimFrom_kept inside (refuses_trailing? first _), noBreak, trimFrom_eq]
      cases word with
      | nil => rfl
      | cons b' word =>
          rw [ih (by simp) fun c member => inert c (List.mem_cons_of_mem b member)]
          rfl

theorem trimFrom_encode (atStart : Bool) (text : List α) :
    trimFrom atStart [] (encoding.encode text) = encoding.encode (trimFrom atStart [] text) := by
  induction atStart, text using trimFrom_induction with
  | nil atStart => simp
  | start a text blank ih =>
      rcases satisfies_iff.mp blank with ⟨c, rfl, _⟩
      have blank' : isBlank (ofChar c : β) = true := by simpa [isBlank] using blank
      rw [encode_ofChar_cons, trimFrom_start blank, trimFrom_start blank',
        dropWhile_isBlank_encode, ih]
  | trailing text run rest read ih =>
      have read' := respects_trailing? encoding text
      rw [read, Option.map_some] at read'
      rw [trimFrom_trailing read, trimFrom_trailing read', startsLine_encode, ih]
  | kept atStart a text inside refused ih =>
      have refused' := respects_trailing? encoding (a :: text)
      rw [refused, Option.map_none] at refused'
      rw [trimFrom_kept inside refused, trimFrom_eq _ [a]]
      rcases char_or_sealed a with ⟨c, rfl⟩ | sealed
      · have inside' : (atStart && isBlank (ofChar c : β)) = false := by
          simpa [isBlank] using inside
        have same : is '\n' (ofChar c : β) = is '\n' (ofChar c : α) := by simp [is]
        rw [encode_ofChar_cons] at refused' ⊢
        rw [trimFrom_kept inside' refused', trimFrom_eq _ [ofChar c], same, ih]
        simp
      · have within : is '\n' a = false := satisfies_of_char?_eq_none sealed _
        rw [within] at ih ⊢
        rw [encode_cons, trimFrom_append_of_inert (encoding.write_ne_nil a)
          (encoding.inert_of_mem sealed), ih]
        rfl

theorem trim_encode (text : List α) :
    trim (encoding.encode text) = encoding.encode (trim text) :=
  trimFrom_encode encoding true text

end Line

/-! ## Tags of blocks -/

namespace BlockTag

theorem respects_mark : encoding.Respects mark mark := by
  intro text
  have closing : Reader.phrase ['<', '/'] (encoding.encode text) =
      (Reader.phrase ['<', '/'] text).map encoding.both := respects_phrase (by decide) text
  have opening : Reader.phrase ['<'] (encoding.encode text) =
      (Reader.phrase ['<'] text).map encoding.both := respects_phrase (by decide) text
  rw [mark, mark, closing, opening]
  cases Reader.phrase ['<', '/'] text <;> rfl

theorem telling_spelled : ∀ letters ∈ spelled, ∀ c ∈ letters, isTelling c = true := by
  decide +kernel

theorem respects_name : encoding.Respects name name := fun text =>
  name_eq_map fun letters member => Encoding.respects_name (telling_spelled letters member) text

theorem tag_encode : encoding.Respects tag tag := by
  intro text
  simp only [tag, bind]
  rw [respects_mark]
  cases mark text with
  | none => rfl
  | some opening =>
      simp only [Option.map_some, Option.bind_some, both, Prod.map]
      rw [respects_name]
      cases name opening.2 with
      | none => rfl
      | some letters =>
          simp only [Option.map_some, Option.bind_some, both, Prod.map]
          rw [Element.respects_close]
          cases Reader.upTo (Reader.phrase ['>']) letters.2 with
          | none => rfl
          | some inner => simp [split]

theorem read_encode (text : List α) :
    read (encoding.encode text) = (read text).map encoding.both := by
  cases text with
  | nil => rfl
  | cons a text =>
      rcases char_or_sealed a with ⟨c, rfl⟩ | sealed
      · have same : isBlank (ofChar c : β) = isBlank (ofChar c : α) := by simp [isBlank]
        rw [encode_ofChar_cons, read, read, same]
        split
        · rw [dropWhile_isBlank_encode, tag_encode]
        · rfl
      · obtain ⟨b, word, written, foreign⟩ := encoding.exists_foreign sealed
        have stops : isBlank a = false := satisfies_of_char?_eq_none sealed _
        simp [encode_cons, written, read, stops, isBlank_of_inert foreign.inert]

theorem moveUp_encode (text : List α) :
    moveUp (encoding.encode text) = encoding.encode (moveUp text) := by
  apply replace_encode encoding.encode
  · exact read_encode encoding
  · intro b inert text
    simp [pattern, read, isBlank_of_inert inert]
  · intro taken
    rfl

end BlockTag

/-! ## The edges of text -/

namespace TextEdge

theorem read_encode (text : List α) :
    read (encoding.encode text) =
      (read text).map (Prod.map encoding.encode encoding.encode) := by
  have outside := (agrees_is encoding (by decide : isMark '<' = true)).not.agrees
  simp only [read, bind]
  rw [after?_encode (by decide)]
  cases Reader.after? ['>'] text with
  | none => rfl
  | some inside =>
      simp only [Option.map_some, Option.bind_some]
      rw [outside.takeWhile_encode, outside.dropWhile_encode, isEmpty_encode]
      split
      · rfl
      · rw [after?_encode (by decide)]
        cases Reader.after? ['<'] (inside.dropWhile fun a => !is '<' a) <;> rfl

theorem space_encode (run : List α) :
    space (encoding.encode run) = encoding.encode (space run) := by
  rw [space, space, isEmpty_encode]
  split
  · rfl
  · exact (encoding.encode_spell [' ']).symm

theorem soften_encode (text : List α) :
    soften (encoding.encode text) = encoding.encode (soften text) := by
  have blanks := agrees_isBlank encoding
  have inner := blanks.agrees.dropWhile_encode text
  have trimmed := blanks.rdropWhile_encode (text.dropWhile isBlank)
  have space_reverse : ∀ {γ : Type} [Alphabet γ] (run : List γ),
      space (run.reverse.takeWhile isBlank) =
        if run.getLast?.any isBlank then [ofChar ' '] else [] := by
    intro γ _ run
    rw [List.getLast?_eq_head?_reverse, space]
    cases run.reverse with
    | nil => rfl
    | cons a rest => cases blank : isBlank a <;> simp [blank]
  have behind : space ((encoding.encode (text.dropWhile isBlank)).reverse.takeWhile isBlank) =
      encoding.encode (space ((text.dropWhile isBlank).reverse.takeWhile isBlank)) := by
    rw [space_reverse, space_reverse, blanks.any_getLast?_encode]
    split
    · exact (encoding.encode_spell [' ']).symm
    · rfl
  unfold List.rdropWhile at trimmed
  simp only [soften]
  rw [blanks.agrees.takeWhile_encode, inner, space_encode, trimmed, behind, encode_append,
    encode_append]

theorem collapse_encode (text : List α) :
    collapse (encoding.encode text) = encoding.encode (collapse text) := by
  apply replace_encode encoding.encode
  · exact read_encode encoding
  · intro b inert text
    simp only [pattern, read, bind]
    rw [refuses_after? (by decide) inert, Option.bind_none]
  · intro content
    rw [write, write, soften_encode, encode_ofChar_cons, encode_append]
    exact congrArg (fun ending => ofChar '>' :: (encoding.encode (soften content) ++ ending))
      (encoding.encode_spell ['<']).symm

end TextEdge

/-! ## The first attribute -/

namespace Attribute

/-- A parted tag, encoded. -/
def encode (encoding : Encoding α β) (tag : Attribute α) : Attribute β :=
  ⟨encoding.encode tag.head, encoding.encode tag.tail⟩

theorem getLast?_encode_of_blank (run : List α) (blank : ∀ a ∈ run, isBlank a = true) :
    (encoding.encode run).getLast?.toList = encoding.encode run.getLast?.toList := by
  cases run using List.reverseRecOn with
  | nil => rfl
  | append_singleton run a _ =>
      rcases satisfies_iff.mp (blank a (by simp)) with ⟨c, rfl, _⟩
      simp [encoding.write_ofChar]

theorem readTail_encode : encoding.Respects readTail readTail := by
  intro text
  cases text with
  | nil => rfl
  | cons a text =>
      rcases char_or_sealed a with ⟨c, rfl⟩ | sealed
      · have same : isBlank (ofChar c : β) = isBlank (ofChar c : α) := by simp [isBlank]
        have blanks := (agrees_isBlank encoding).agrees
        rw [encode_ofChar_cons, readTail, readTail, same]
        split
        · simp only [bind]
          rw [dropWhile_isBlank_encode, Element.respects_close]
          cases Reader.upTo (Reader.phrase ['>']) (text.dropWhile isBlank) with
          | none => rfl
          | some cut =>
              have last := getLast?_encode_of_blank encoding (text.takeWhile isBlank)
                fun _ => List.mem_takeWhile_imp
              simp only [Option.map_some, Option.bind_some, split, isEmpty_encode,
                blanks.takeWhile_encode, last]
              cases cut.before.isEmpty with
              | true => simp only [if_true, isEmpty_encode]; split <;> simp [both]
              | false =>
                  simp only [Bool.false_eq_true, if_false, isEmpty_encode]
                  split <;> simp [both]
        · rfl
      · rcases encoding.exists_foreign sealed with ⟨b, word, written, foreign⟩
        have stops : isBlank a = false := satisfies_of_char?_eq_none sealed _
        simp [encode_cons, written, readTail, stops, isBlank_of_inert foreign.inert]

theorem read_encode (text : List α) :
    read (encoding.encode text) =
      (read text).map (Prod.map (encode encoding) encoding.encode) := by
  have names := agrees_isNameSymbol encoding
  simp only [read, bind]
  rw [after?_encode (by decide)]
  cases Reader.after? ['<'] text with
  | none => rfl
  | some named =>
      simp only [Option.map_some, Option.bind_some]
      rw [names.takeWhile_encode, names.dropWhile_encode, isEmpty_encode]
      split
      · rfl
      · rw [readTail_encode]
        cases readTail (named.dropWhile isNameSymbol) <;> simp [both, encode]

theorem reflow_encode (text : List α) :
    reflow (encoding.encode text) = encoding.encode (reflow text) := by
  apply replace_encode (encode encoding)
  · exact read_encode encoding
  · intro b inert text
    simp only [pattern, read, bind]
    rw [refuses_after? (by decide) inert, Option.bind_none]
  · intro tag
    simp [write, encode]

end Attribute

/-! ## All stages -/

theorem Encoding.flatMap_piece_kept {γ δ : Type} (describe : γ → δ) (text : List α) :
    (text.map (.kept : α → Piece α γ)).flatMap (encoding.piece describe) =
      (encoding.encode text).map .kept := by
  rw [List.flatMap_map, encode, List.map_flatMap]
  rfl

/-- A stage makes of an encoded text the encoding of what it makes of the text. -/
theorem Stage.pieces_encode (stage : Stage) (text : List α) :
    stage.pieces (encoding.encode text) =
      (stage.pieces text).flatMap (encoding.piece encoding.encode) := by
  cases stage <;>
    simp only [pieces, Encoding.flatMap_piece_kept, Margin.normalize_encode, Region.cut_encode,
      Comment.strip_encode, Line.trim_encode, BlockTag.moveUp_encode, TextEdge.collapse_encode,
      Attribute.reflow_encode]

end HtmlMinifier
