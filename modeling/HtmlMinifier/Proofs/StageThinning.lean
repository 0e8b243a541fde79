import HtmlMinifier.Proofs.Thinning
import Mathlib.Data.List.Induction

/-!
# Stages thin their documents

For each stage this file says what it takes off the front of a text, as it is
written there, and derives how the stage thins a document.  The whitespace stages
only change blanks.  The protection of a region keeps what is around the region
and stores a thinned region, up to a close tag that is written anew.
-/

namespace HtmlMinifier

open Alphabet

variable {α : Type} [Alphabet α]

/-! ## Phrases -/

namespace Reader

/-- A text that is cut at a phrase. -/
theorem append_of_upTo_phrase {letters : List Char} {text : List α} {split : Split α}
    (found : upTo (phrase letters) text = some split) :
    text = split.before ++ spell letters ++ split.rest := by
  have front := taken_of_upTo (phrase_faithful letters) found
  rw [← append_of_upTo (phrase_faithful letters) found, (phrase_eq_some_iff.mp front).1]

end Reader

/-- A phrase takes its letters. -/
theorem Pattern.append_of_read_phrase {letters : List Char} {nonempty : letters ≠ []}
    {text rest : List α} {found : Unit}
    (read : (phrase letters nonempty).read text = some (found, rest)) :
    text = spell letters ++ rest := by
  obtain ⟨rest', after, same⟩ := Option.map_eq_some_iff.mp read
  obtain rfl : rest' = rest := congrArg Prod.snd same
  exact Reader.after?_eq_some_iff.mp after

/-- A text in which a phrase is replaced by what is left of it. -/
theorem Pattern.thinned_phrase_replace {may : α → Prop} {letters : List Char}
    (nonempty : letters ≠ []) {word : List α} (thinned : Thinned may word (spell letters))
    (text : List α) :
    Thinned may ((Pattern.phrase letters nonempty).replace (fun _ => word) text) text := by
  apply thinned_replace
  intro text found rest read
  exact ⟨spell letters, append_of_read_phrase read, thinned⟩

/-! ## Margins, wrappers and comments -/

namespace Margin

theorem read_lineEnd_of_ne (a : α) (text : List α) (other : a ≠ ofChar '\r') :
    lineEnd.read (a :: text) = none :=
  Option.map_eq_none_iff.mpr (Reader.after?_cons_of_ne '\r' other text)

/-- Without carriage returns only the margins go. -/
theorem normalize_of_notMem {text : List α} (absent : ofChar '\r' ∉ text) :
    normalize text = (text.dropWhile isMargin).rdropWhile isMargin := by
  have absent' : ofChar '\r' ∉ trim text := fun member =>
    absent ((List.dropWhile_suffix isMargin).subset
      ((List.rdropWhile_prefix isMargin (text.dropWhile isMargin)).subset member))
  exact Pattern.replace_of_notMem read_lineEnd_of_ne absent'

end Margin

theorem exists_ofChar_of_isMargin {a : α} (margin : isMargin a = true) : ∃ c, a = ofChar c := by
  obtain ⟨c, same, -⟩ := satisfies_iff.mp margin
  exact ⟨c, same⟩

theorem Margin.trim_isInfix (text : List α) : (trim text).IsInfix text :=
  (List.rdropWhile_prefix isMargin _).isInfix.trans (List.dropWhile_suffix isMargin).isInfix

theorem Margin.trim_pruned (text : List α) : Pruned (trim text) text :=
  Pruned.trans (Thinned.rdropWhile (fun _ => exists_ofChar_of_isMargin) (text.dropWhile isMargin))
    (Thinned.dropWhile (fun _ => exists_ofChar_of_isMargin) text)

theorem Margin.normalize_pruned (text : List α) : Pruned (normalize text) text := by
  have lineFeed : Pruned [ofChar '\n'] (spell Markup.lineEnd : List α) :=
    Thinned.drop ⟨'\r', rfl⟩ (Thinned.refl _)
  exact Pruned.trans (Pattern.thinned_phrase_replace (by decide) lineFeed _) (trim_pruned text)

namespace Wrapper

theorem dropWhile_isBlank_pruned (text : List α) : Pruned (text.dropWhile isBlank) text :=
  Thinned.dropWhile (fun _ => exists_ofChar_of_isBlank) text

theorem after?_pruned {letters : List Char} {text rest : List α}
    (found : Reader.after? letters text = some rest) : Pruned rest text := by
  rw [Reader.after?_eq_some_iff.mp found]
  exact (Pruned.dropSpell letters).append (Thinned.refl rest)

theorem opened?_pruned {body rest : List α} (opened : opened? body = some rest) :
    Pruned rest body :=
  (after?_pruned opened).trans (dropWhile_isBlank_pruned body)

/-- A closing half of a wrapper is all dropped. -/
theorem isClosing_pruned {text : List α} (closing : isClosing text = true) : Pruned [] text := by
  unfold isClosing at closing
  split at closing
  next rest found =>
    have blanks : Pruned [] rest :=
      Thinned.dropAll fun a member =>
        exists_ofChar_of_isBlank (List.all_eq_true.mp closing a member)
    exact blanks.trans (after?_pruned found)
  next => contradiction

theorem isScriptClosing_pruned {text : List α} (closing : isScriptClosing text = true) :
    Pruned [] text := by
  have uncommented : Pruned
      ((Reader.after? Markup.lineComment (text.dropWhile isBlank)).getD (text.dropWhile isBlank))
      (text.dropWhile isBlank) := by
    cases found : Reader.after? Markup.lineComment (text.dropWhile isBlank) with
    | none => exact Thinned.refl _
    | some rest => exact after?_pruned found
  have front := uncommented.trans (dropWhile_isBlank_pruned text)
  exact (isClosing_pruned closing).trans ((dropWhile_isBlank_pruned _).trans front)

omit [Alphabet α] in
/-- What is dropped from the end of a text is such an end. -/
theorem exists_append_dropEnd (isEnd : List α → Bool) (text : List α) :
    ∃ dropped, text = dropEnd isEnd text ++ dropped ∧ (dropped = [] ∨ isEnd dropped = true) := by
  unfold dropEnd
  split
  next split found =>
    have faithful : Reader.Faithful
        (fun rest : List α => if isEnd rest then some (rest, []) else none) := by
      intro text taken rest read
      simp only [Option.ite_none_right_eq_some, Option.some.injEq, Prod.mk.injEq] at read
      simp [← read.2.1, ← read.2.2]
    have whole := Reader.append_of_upTo faithful found
    have taken := Reader.taken_of_upTo faithful found
    simp only [Option.ite_none_right_eq_some, Option.some.injEq, Prod.mk.injEq] at taken
    obtain ⟨atEnd, -, nothing⟩ := taken
    rw [← nothing, List.append_nil] at atEnd whole
    exact ⟨split.taken, whole.symm, Or.inr atEnd⟩
  next => exact ⟨[], (List.append_nil text).symm, Or.inl rfl⟩

omit [Alphabet α] in
theorem dropEnd_isPrefix (isEnd : List α → Bool) (text : List α) :
    (dropEnd isEnd text).IsPrefix text := by
  obtain ⟨dropped, whole, -⟩ := exists_append_dropEnd isEnd text
  exact ⟨dropped, whole.symm⟩

theorem opened?_isSuffix {body rest : List α} (opened : opened? body = some rest) :
    rest.IsSuffix body := by
  have behind : rest.IsSuffix (body.dropWhile isBlank) :=
    ⟨_, (Reader.after?_eq_some_iff.mp opened).symm⟩
  exact behind.trans (List.dropWhile_suffix isBlank)

theorem uncommentScript_isInfix (body : List α) : (uncommentScript body).IsInfix body := by
  unfold uncommentScript
  refine (dropEnd_isPrefix _ _).isInfix.trans ?_
  cases opened : opened? body with
  | none => exact List.infix_rfl
  | some rest =>
      exact ((List.dropWhile_suffix isBlank).trans (opened?_isSuffix opened)).isInfix

theorem uncommentStyle_isInfix (body : List α) : (uncommentStyle body).IsInfix body := by
  unfold uncommentStyle
  refine (dropEnd_isPrefix _ _).isInfix.trans ?_
  cases opened : opened? body with
  | none => exact List.infix_rfl
  | some rest => exact (opened?_isSuffix opened).isInfix

theorem dropEnd_pruned {isEnd : List α → Bool}
    (ends : ∀ rest, isEnd rest = true → Pruned [] rest) (text : List α) :
    Pruned (dropEnd isEnd text) text := by
  obtain ⟨dropped, whole, ending⟩ := exists_append_dropEnd isEnd text
  have gone : Pruned [] dropped := by
    rcases ending with rfl | atEnd
    · exact Thinned.nil
    · exact ends dropped atEnd
  have kept := (Thinned.refl (dropEnd isEnd text)).append gone
  rwa [List.append_nil, ← whole] at kept

theorem eraseCdata_pruned (body : List α) : Pruned (eraseCdata body) body := by
  unfold eraseCdata
  split
  · exact Pruned.trans (Pattern.thinned_phrase_replace (by decide) (Pruned.dropSpell _) _)
      (Pattern.thinned_phrase_replace (by decide) (Pruned.dropSpell _) body)
  · exact Thinned.refl body

theorem uncommentScript_pruned (body : List α) : Pruned (uncommentScript body) body := by
  unfold uncommentScript
  cases opened : opened? body with
  | none => exact dropEnd_pruned (fun _ => isScriptClosing_pruned) body
  | some rest =>
      exact (dropEnd_pruned (fun _ => isScriptClosing_pruned) _).trans
        ((dropWhile_isBlank_pruned rest).trans (opened?_pruned opened))

theorem uncommentStyle_pruned (body : List α) : Pruned (uncommentStyle body) body := by
  unfold uncommentStyle
  cases opened : opened? body with
  | none => exact dropEnd_pruned (fun _ => isClosing_pruned) body
  | some rest =>
      exact (dropEnd_pruned (fun _ => isClosing_pruned) rest).trans (opened?_pruned opened)

theorem script_pruned (body : List α) : Pruned (script body) body :=
  (Margin.trim_pruned _).trans ((eraseCdata_pruned _).trans (uncommentScript_pruned body))

theorem style_pruned (body : List α) : Pruned (style body) body :=
  (Margin.trim_pruned _).trans ((eraseCdata_pruned _).trans (uncommentStyle_pruned body))

end Wrapper

namespace Comment

/-- A comment is its content between two marks. -/
theorem append_of_read {text content rest : List α} (found : read text = some (content, rest)) :
    text = spell Markup.commentOpen ++ content ++ spell Markup.commentClose ++ rest := by
  obtain ⟨inside, split, opened, closed, rfl, rfl⟩ := read_eq_some_iff.mp found
  rw [Reader.after?_eq_some_iff.mp opened, Reader.append_of_upTo_phrase closed]
  simp

theorem strip_shortened (text : List α) : Shortened (strip text) text := by
  apply Pattern.thinned_replace
  intro text content rest found
  refine ⟨_, append_of_read found, ?_⟩
  unfold residue
  split
  · exact Thinned.refl _
  · exact Thinned.dropAll fun _ _ => trivial

end Comment

/-! ## Elements and regions -/

namespace Element

/-- An element at the front of a text stands between blanks. -/
theorem exists_of_read {name : List Char} {text rest : List α} {element : Element α}
    (found : read name text = some (element, rest)) :
    ∃ before behind, (∀ a ∈ before, isBlank a = true) ∧ (∀ a ∈ behind, isBlank a = true) ∧
      text = before ++ element.text ++ behind ++ rest := by
  rcases read_eq_some_iff.mp found with ⟨head, inTag, tag, inner, named, tagged, closed, rfl, rfl⟩
  refine ⟨text.takeWhile isBlank, inner.rest.takeWhile isBlank,
    fun _ => List.mem_takeWhile_imp, fun _ => List.mem_takeWhile_imp, ?_⟩
  calc
    text = text.takeWhile isBlank ++ text.dropWhile isBlank :=
      List.takeWhile_append_dropWhile.symm
    _ = text.takeWhile isBlank ++ (head ++ inTag) := by rw [Reader.name_faithful _ named]
    _ = text.takeWhile isBlank ++ (head ++ (tag.before ++ tag.taken ++ tag.rest)) := by
      rw [Reader.append_of_upTo (Reader.phrase_faithful _) tagged]
    _ = text.takeWhile isBlank ++ (head ++ (tag.before ++ tag.taken ++
          (inner.before ++ inner.taken ++ inner.rest))) := by
      rw [Reader.append_of_upTo (Reader.phraseAnyCase_faithful _) closed]
    _ = _ := by
      simp [Element.text]

/-- The close tag of an element is the tag that is looked for, in some case. -/
theorem exists_closing_of_read {name : List Char} {text rest : List α} {element : Element α}
    (found : read name text = some (element, rest)) :
    ∃ written, written.map Char.toLower = (Markup.closeTag name).map Char.toLower ∧
      element.closing = spell written := by
  rcases read_eq_some_iff.mp found with ⟨head, inTag, tag, inner, _, _, closed, rfl, _⟩
  obtain ⟨written, same, taken, _⟩ := Reader.phraseAnyCase_eq_some_iff.mp
    (Reader.taken_of_upTo (Reader.phraseAnyCase_faithful _) closed)
  exact ⟨written, same, taken⟩

/-- The open tag of an element is the name that is looked for, in some case, through
the next `>`. -/
theorem exists_opening_of_read {name : List Char} {text rest : List α} {element : Element α}
    (found : read name text = some (element, rest)) :
    ∃ written inner, written.map Char.toLower = (Markup.openTag name).map Char.toLower ∧
      element.opening = spell written ++ inner ++ [ofChar '>'] := by
  rcases read_eq_some_iff.mp found with ⟨head, inTag, tag, _, named, tagged, _, rfl, _⟩
  obtain ⟨written, same, rfl, _⟩ :=
    Reader.phraseAnyCase_eq_some_iff.mp (Reader.name_eq_some_iff.mp named).1
  have taken := Reader.taken_of_upTo (Reader.phrase_faithful _) tagged
  exact ⟨written, tag.before, same, by rw [(Reader.phrase_eq_some_iff.mp taken).1]; rfl⟩

end Element

namespace Region

/-- A region at the front of a text is an element between blanks. -/
theorem exists_of_read {region : Region} {text content rest : List α}
    (found : region.pattern.read text = some (content, rest)) :
    ∃ before element behind, (∀ a ∈ before, isBlank a = true) ∧
      (∀ a ∈ behind, isBlank a = true) ∧ text = before ++ element.text ++ behind ++ rest ∧
      content = region.content element ∧
      ∃ written, written.map Char.toLower = (Markup.closeTag region.name).map Char.toLower ∧
        element.closing = spell written := by
  simp only [pattern, Pattern.map, Element.pattern] at found
  cases read : Element.read region.name text with
  | none => simp [read] at found
  | some pair =>
      obtain ⟨element, rest'⟩ := pair
      simp only [read, Option.some.injEq, Prod.mk.injEq] at found
      rcases found with ⟨rfl, rfl⟩
      rcases Element.exists_of_read read with ⟨before, behind, front, back, shape⟩
      exact ⟨before, element, behind, front, back, shape, rfl, Element.exists_closing_of_read read⟩

/-- The close tag that is written anew behind what is kept of a region. -/
def closer : Region → List Char
  | script => Markup.closeTag script.name
  | style => Markup.closeTag style.name
  | pre => []
  | textarea => []

/-- What is kept of a region is a pruned element, with its close tag written
anew. -/
theorem exists_core (region : Region) (element : Element α) :
    ∃ core, region.content element = core ++ spell region.closer ∧
      Shortened core element.text ∧
      (region.closer = [] ∧ core = element.text ∨
        region.closer = Markup.closeTag region.name ∧
          Pruned core (element.opening ++ element.body)) := by
  have shorten : ∀ {core : List α}, Pruned core (element.opening ++ element.body) →
      Shortened core element.text := fun pruned =>
    pruned.shortened.trans (Thinned.of_sublist (List.sublist_append_left _ _))
  cases region with
  | script =>
      have pruned := (Thinned.refl element.opening).append (Wrapper.script_pruned element.body)
      exact ⟨_, rfl, shorten pruned, Or.inr ⟨rfl, pruned⟩⟩
  | style =>
      have pruned := (Thinned.refl element.opening).append (Wrapper.style_pruned element.body)
      exact ⟨_, rfl, shorten pruned, Or.inr ⟨rfl, pruned⟩⟩
  | pre => exact ⟨element.text, by simp [content, closer], Thinned.refl _, Or.inl ⟨rfl, rfl⟩⟩
  | textarea => exact ⟨element.text, by simp [content, closer], Thinned.refl _, Or.inl ⟨rfl, rfl⟩⟩

/-- What is around the regions is kept. -/
theorem shortened_rest (region : Region) (text : List α) :
    Shortened (region.pattern.replace (fun _ => []) text) text := by
  apply Pattern.thinned_replace
  intro text content rest found
  rcases exists_of_read found with ⟨before, element, behind, _, _, shape, _⟩
  exact ⟨before ++ element.text ++ behind, shape, Thinned.dropAll fun _ _ => trivial⟩

/-- Where no close tag is written anew, only blanks around regions go. -/
theorem respaced_of_closer_eq_nil {region : Region} (verbatim : region.closer = [])
    (text : List α) : Respaced (region.pattern.replace id text) text := by
  apply Pattern.thinned_replace
  intro text content rest found
  obtain ⟨before, element, behind, front, back, shape, rfl, _⟩ := exists_of_read found
  refine ⟨before ++ element.text ++ behind, shape, ?_⟩
  have whole : region.content element = [] ++ element.text ++ [] := by
    cases region with
    | script => simp [closer, Markup.closeTag] at verbatim
    | style => simp [closer, Markup.closeTag] at verbatim
    | pre => simp [content]
    | textarea => simp [content]
  rw [id, whole]
  exact ((Thinned.dropAll front).append (Thinned.refl _)).append (Thinned.dropAll back)

end Region

/-! ## Lines -/

namespace Line

theorem isBlank_of_trailing? {text run rest : List α} (read : trailing? text = some (run, rest)) :
    ∀ a ∈ run, isBlank a = true := by
  induction text generalizing run with
  | nil => simp [trailing?] at read
  | cons a text ih => grind [trailing?]

theorem trimFrom_respaced (atStart : Bool) (text : List α) :
    Respaced (trimFrom atStart [] text) text := by
  induction atStart, text using trimFrom_induction with
  | nil atStart =>
      rw [trimFrom_nil]
      exact Thinned.nil
  | start a text blank ih =>
      rw [trimFrom_start blank]
      exact (ih.trans (Thinned.dropWhile (fun _ blank => blank) text)).drop blank
  | trailing text run rest read ih =>
      have dropped : Respaced [] run := Thinned.dropAll (isBlank_of_trailing? read)
      rw [trimFrom_trailing read, ← trailing?_faithful read]
      exact dropped.append ih
  | kept atStart a text inside refused ih =>
      rw [trimFrom_kept inside refused, trimFrom_eq _ [a]]
      exact ih.keep a

theorem trim_respaced (text : List α) : Respaced (trim text) text :=
  trimFrom_respaced true text

end Line

/-! ## Tags of blocks, the edges of text and the first attribute -/

namespace BlockTag

/-- The tag of a block is taken with the blanks before it. -/
theorem exists_of_read {text taken rest : List α} (found : read text = some (taken, rest)) :
    ∃ run, run ≠ [] ∧ (∀ a ∈ run, isBlank a = true) ∧ tag (taken ++ rest) = some (taken, rest) ∧
      text = run ++ taken ++ rest := by
  cases text with
  | nil => simp [read] at found
  | cons a text =>
      simp only [read, Option.ite_none_right_eq_some] at found
      obtain ⟨blank, tagged⟩ := found
      have whole := tag_faithful tagged
      refine ⟨a :: text.takeWhile isBlank, List.cons_ne_nil _ _,
        List.forall_mem_cons.mpr ⟨blank, fun _ => List.mem_takeWhile_imp⟩, whole ▸ tagged, ?_⟩
      rw [List.append_assoc, whole, List.cons_append, List.takeWhile_append_dropWhile]

/-- The tag of a block begins with an angle bracket. -/
theorem exists_eq_cons_of_tag {text taken rest : List α}
    (tagged : tag text = some (taken, rest)) : ∃ behind, taken = ofChar '<' :: behind := by
  obtain ⟨opening, named, letters, inTag, inner, marked, -, -, rfl, -⟩ :=
    tag_eq_some_iff.mp tagged
  unfold mark at marked
  split at marked
  next pair closing =>
    rw [Option.some.inj marked] at closing
    rw [(Reader.phrase_eq_some_iff.mp closing).1]
    exact ⟨_, rfl⟩
  next =>
    rw [(Reader.phrase_eq_some_iff.mp marked).1]
    exact ⟨_, rfl⟩

/-- The tag of a block ends with an angle bracket. -/
theorem exists_eq_append_of_tag {text taken rest : List α}
    (tagged : tag text = some (taken, rest)) : ∃ front, taken = front ++ [ofChar '>'] := by
  obtain ⟨opening, named, letters, inTag, inner, -, -, closed, rfl, -⟩ :=
    tag_eq_some_iff.mp tagged
  have close := Reader.taken_of_upTo (Reader.phrase_faithful _) closed
  rw [(Reader.phrase_eq_some_iff.mp close).1]
  exact ⟨_, rfl⟩

theorem moveUp_respaced (text : List α) : Respaced (moveUp text) text := by
  apply Pattern.thinned_replace
  intro text taken rest found
  obtain ⟨run, -, blanks, -, shape⟩ := exists_of_read found
  exact ⟨run ++ taken, shape, (Thinned.dropAll blanks).append (Thinned.refl taken)⟩

end BlockTag

namespace TextEdge

theorem space_respaced {run : List α} (blank : ∀ a ∈ run, isBlank a = true) :
    Respaced (space run) run := by
  cases run with
  | nil => exact Thinned.nil
  | cons a run =>
      rcases List.forall_mem_cons.mp blank with ⟨first, others⟩
      exact Thinned.exchange (Or.inl rfl) first (Thinned.dropAll others)

theorem space_reverse (run : List α) : space run.reverse = space run := by
  simp [space]

/-- A text is taken with its delimiters. -/
theorem append_of_read {text content rest : List α} (found : read text = some (content, rest)) :
    text = ofChar '>' :: (content ++ [ofChar '<']) ++ rest := by
  obtain ⟨inside, opened, rfl, -, closed⟩ := read_eq_some_iff.mp found
  rw [Reader.after?_eq_some_iff] at opened closed
  rw [opened, List.cons_append, List.append_assoc]
  exact congrArg (ofChar '>' :: ·)
    ((congrArg _ closed).symm.trans List.takeWhile_append_dropWhile).symm

section Related

variable {relation : List α → List α → Prop} (refl : ∀ text, relation text text)
  (append : ∀ {first first' second second'}, relation first' first → relation second' second →
    relation (first' ++ second') (first ++ second))
  (edge : ∀ run, (∀ a ∈ run, isBlank a = true) → relation (space run) run)
include refl append edge

/-- A relation that holds of the blanks at an edge and what becomes of them, and that texts
inherit from their parts, holds of a text and what it is softened to. -/
theorem related_soften (text : List α) : relation (soften text) text := by
  have leading := edge (text.takeWhile isBlank) fun _ => List.mem_takeWhile_imp
  have inner := refl ((text.dropWhile isBlank).rdropWhile isBlank)
  have trailing := edge ((text.dropWhile isBlank).rtakeWhile isBlank)
    fun _ => List.mem_rtakeWhile_imp
  have whole := append leading (append inner trailing)
  rw [List.rdropWhile_append_rtakeWhile, List.takeWhile_append_dropWhile, List.rtakeWhile,
    space_reverse, ← List.append_assoc] at whole
  exact whole

theorem related_collapse (text : List α) : relation (collapse text) text := by
  refine Pattern.related_replace relation refl append ?_ text
  intro text content rest found
  exact ⟨_, append_of_read found,
    append (refl [ofChar '>']) (append (related_soften refl append edge content) (refl _))⟩

end Related

theorem soften_respaced (text : List α) : Respaced (soften text) text :=
  related_soften Thinned.refl Thinned.append (fun _ => space_respaced) text

theorem collapse_respaced (text : List α) : Respaced (collapse text) text :=
  related_collapse Thinned.refl Thinned.append (fun _ => space_respaced) text

end TextEdge

namespace Attribute

/-- In front of a tail stands at least one blank.  The tail ends with `>`, and begins with a
blank only when there is nothing else. -/
theorem exists_run_of_readTail {text tail rest : List α}
    (found : readTail text = some (tail, rest)) :
    ∃ run front, run ≠ [] ∧ (∀ a ∈ run, isBlank a = true) ∧ tail = front ++ [ofChar '>'] ∧
      text = run ++ (tail ++ rest) ∧
      ((∃ b, isBlank b = true ∧ tail = [b, ofChar '>']) ∨ ∀ a ∈ tail.head?, isBlank a = false) := by
  cases text with
  | nil => simp [readTail] at found
  | cons a text =>
      simp only [readTail, Option.ite_none_right_eq_some] at found
      obtain ⟨blank, found⟩ := found
      obtain ⟨cut, closed, found⟩ := Option.bind_eq_some_iff.mp found
      simp only [Option.ite_none_left_eq_some, Option.some.injEq, Prod.mk.injEq] at found
      obtain ⟨nonempty, rfl, rfl⟩ := found
      have close : cut.taken = [ofChar '>'] :=
        (Reader.phrase_eq_some_iff.mp
          (Reader.taken_of_upTo (Reader.phrase_faithful _) closed)).1
      have shape := Reader.append_of_upTo (Reader.phrase_faithful _) closed
      have parts := List.takeWhile_append_dropWhile (p := isBlank) (l := text)
      have first := inked_head_dropWhile text
      have blanks : ∀ b ∈ a :: text.takeWhile isBlank, isBlank b = true :=
        List.forall_mem_cons.mpr ⟨blank, fun _ => List.mem_takeWhile_imp⟩
      rw [← shape, close] at parts first
      rw [close]
      cases before : cut.before with
      | cons c inner =>
          rw [before] at parts first
          refine ⟨a :: text.takeWhile isBlank, c :: inner, List.cons_ne_nil _ _, blanks, rfl, ?_,
            .inr (by simpa using first)⟩
          conv_lhs => rw [← parts]
          simp
      | nil =>
          rw [before] at parts
          cases run : text.takeWhile isBlank using List.reverseRecOn with
          | nil => simp [before, run] at nonempty
          | append_singleton front b _ =>
              rw [run] at parts blanks
              refine ⟨a :: front, [b], List.cons_ne_nil _ _, fun c member => ?_, by simp, ?_,
                .inl ⟨b, blanks b (by simp), by simp⟩⟩
              · exact blanks c (List.mem_append_left [b] member)
              · conv_lhs => rw [← parts]
                simp

/-- A tag that is parted is its head, at least one blank, and its tail, which begins with a
blank only when there is nothing else in front of its `>`. -/
theorem exists_run_of_read {text rest : List α} {tag : Attribute α}
    (found : read text = some (tag, rest)) :
    ∃ run front, run ≠ [] ∧ (∀ a ∈ run, isBlank a = true) ∧ tag.tail = front ++ [ofChar '>'] ∧
      text = tag.head ++ (run ++ (tag.tail ++ rest)) ∧
      ((∃ b, isBlank b = true ∧ tag.tail = [b, ofChar '>']) ∨
        ∀ a ∈ tag.tail.head?, isBlank a = false) := by
  obtain ⟨named, tail, opened, -, tailed, rfl⟩ := read_eq_some_iff.mp found
  obtain ⟨run, front, nonempty, blanks, ends, shape, begins⟩ := exists_run_of_readTail tailed
  refine ⟨run, front, nonempty, blanks, ends, ?_, begins⟩
  rw [Reader.after?_eq_some_iff.mp opened, ← shape, List.cons_append,
    List.takeWhile_append_dropWhile]
  rfl

/-- A tag with an attribute is its head, blanks, and its tail, which may begin with some of
the blanks. -/
theorem exists_of_read {text rest : List α} {tag : Attribute α}
    (found : read text = some (tag, rest)) :
    ∃ a run kept part, (∀ b ∈ a :: run, isBlank b = true) ∧ kept.IsSuffix run ∧
      tag.tail = kept ++ part ∧ text = tag.head ++ (a :: run ++ part) ++ rest := by
  obtain ⟨run, front, nonempty, blanks, -, whole, begins⟩ := exists_run_of_read found
  obtain ⟨a, run, rfl⟩ := List.exists_cons_of_ne_nil nonempty
  rcases begins with ⟨b, blank, bare⟩ | inked
  · have all : ∀ c ∈ a :: (run ++ [b]), isBlank c = true := by
      rw [← List.cons_append, List.forall_mem_append]
      exact ⟨blanks, by simpa using blank⟩
    exact ⟨a, run ++ [b], [b], [ofChar '>'], all, List.suffix_append run [b], bare,
      by simp [whole, bare]⟩
  · exact ⟨a, run, [], tag.tail, blanks, List.nil_suffix, rfl, by simp [whole]⟩

/-- A tag with an attribute is written with other blanks between the same two parts. -/
theorem exists_runs_of_read {text rest : List α} {tag : Attribute α}
    (found : read text = some (tag, rest)) :
    ∃ run' run part, (∀ b ∈ run', isBlank b = true) ∧ (∀ b ∈ run, isBlank b = true) ∧
      run' ≠ [] ∧ run ≠ [] ∧ write tag = tag.head ++ (run' ++ part) ∧
      text = tag.head ++ (run ++ part) ++ rest := by
  obtain ⟨a, run, kept, part, blanks, within, shape, whole⟩ := exists_of_read found
  have stay : ∀ b ∈ ofChar '\n' :: kept, isBlank b = true := by
    refine List.forall_mem_cons.mpr ⟨by simp [isBlank], fun b member => ?_⟩
    exact blanks b (List.mem_cons_of_mem a (within.subset member))
  refine ⟨ofChar '\n' :: kept, a :: run, part, stay, blanks, List.cons_ne_nil _ _,
    List.cons_ne_nil _ _, ?_, whole⟩
  rw [write, shape, List.cons_append]

theorem reflow_respaced (text : List α) : Respaced (reflow text) text := by
  apply Pattern.thinned_replace
  intro text tag rest found
  obtain ⟨a, run, kept, part, blanks, ⟨dropped, rfl⟩, shape, whole⟩ := exists_of_read found
  obtain ⟨blank, others⟩ := List.forall_mem_cons.mp blanks
  have last : Respaced kept (dropped ++ kept) :=
    (Thinned.dropAll fun b member => others b (List.mem_append_left kept member)).append
      (Thinned.refl kept)
  refine ⟨_, whole, (Thinned.refl tag.head).append ?_⟩
  rw [shape]
  exact (last.append (Thinned.refl part)).exchange (Or.inr rfl) blank

end Attribute

/-! ## All stages -/

namespace Stage

/-- Whether a stage changes blanks only. -/
def Respaces : Stage → Prop
  | normalize => False
  | protect region => region.closer = []
  | comments => False
  | lines => True
  | blocks => True
  | texts => True
  | attributes => True

/-- A stage that protects no region thins the document, and only the removal of comments
drops more than characters. -/
theorem protects_or_thins (stage : Stage) (text : List α) :
    (∃ region, stage = protect region) ∨
      ∃ result, stage.pieces text = result.map .kept ∧ Shortened result text ∧
        (stage ≠ comments → Pruned result text) ∧ (stage.Respaces → Respaced result text) := by
  have respaces : ∀ {result : List α}, Respaced result text →
      Shortened result text ∧ (stage ≠ comments → Pruned result text) ∧
        (stage.Respaces → Respaced result text) := fun respaced =>
    ⟨respaced.shortened, fun _ => respaced.pruned, fun _ => respaced⟩
  cases stage with
  | protect region => exact Or.inl ⟨region, rfl⟩
  | normalize =>
      have pruned := Margin.normalize_pruned text
      exact Or.inr ⟨_, rfl, pruned.shortened, fun _ => pruned, False.elim⟩
  | comments =>
      exact Or.inr ⟨_, rfl, Comment.strip_shortened text, fun other => absurd rfl other, False.elim⟩
  | lines => exact Or.inr ⟨_, rfl, respaces (Line.trim_respaced text)⟩
  | blocks => exact Or.inr ⟨_, rfl, respaces (BlockTag.moveUp_respaced text)⟩
  | texts => exact Or.inr ⟨_, rfl, respaces (TextEdge.collapse_respaced text)⟩
  | attributes => exact Or.inr ⟨_, rfl, respaces (Attribute.reflow_respaced text)⟩

/-- What a stage keeps outside of the contents that it sets aside. -/
theorem shortened_kept (stage : Stage) (text : List α) :
    Shortened ((stage.pieces text).flatMap (Piece.text fun _ => [])) text := by
  rcases stage.protects_or_thins text with ⟨region, rfl⟩ | ⟨result, pieces, shortened, _⟩
  · exact region.shortened_rest text
  · rwa [pieces, Piece.flatMap_text_kept]

/-- A content that a stage sets aside is thinned text of the document, perhaps
with a close tag written anew behind it. -/
theorem exists_core (stage : Stage) {text content : List α}
    (member : .found content ∈ stage.pieces text) :
    ∃ core, Shortened core text ∧
      (content = core ∨ ∃ region : Region,
        content = core ++ spell (Markup.closeTag region.name)) := by
  rcases stage.protects_or_thins text with ⟨region, rfl⟩ | ⟨result, pieces, _⟩
  · obtain ⟨matched, within, element, stored, part⟩ := Pattern.exists_matched_of_mem_cut
      (fun content matched => ∃ element : Element α,
        content = region.content element ∧ element.text.Sublist matched) (by
          intro text content rest found
          rcases Region.exists_of_read found with ⟨before, element, behind, _, _, shape, stored, _⟩
          exact ⟨_, shape, element, stored,
            (List.sublist_append_right before _).trans (List.sublist_append_left _ behind)⟩)
      member
    rcases region.exists_core element with ⟨core, shape, thinned, cases⟩
    refine ⟨core, thinned.trans (Thinned.of_sublist (part.trans within)), ?_⟩
    rw [stored, shape]
    rcases cases with ⟨none, _⟩ | ⟨anew, _⟩
    · exact Or.inl (by simp [none])
    · exact Or.inr ⟨region, by rw [anew]⟩
  · simp [pieces] at member

/-- No opaque symbol is new in what a stage keeps or sets aside. -/
theorem mem_of_mem_pieces {stage : Stage} {text : List α} {a : α} (sealed : char? a = none) :
    (.kept a ∈ stage.pieces text → a ∈ text) ∧
      ∀ content, .found content ∈ stage.pieces text → a ∈ content → a ∈ text := by
  have inked : isBlank a = false := by simp [isBlank, satisfies, sealed]
  constructor
  · intro member
    apply (stage.shortened_kept text).mem_of_mem inked
    exact List.mem_flatMap.mpr ⟨_, member, List.mem_singleton_self _⟩
  · intro content member inside
    rcases stage.exists_core member with ⟨core, shortened, rfl | ⟨region, rfl⟩⟩
    · exact shortened.mem_of_mem inked inside
    · rcases List.mem_append.mp inside with inCore | inTag
      · exact shortened.mem_of_mem inked inCore
      · rcases List.mem_map.mp inTag with ⟨c, _, rfl⟩
        rw [char?_ofChar] at sealed
        contradiction

/-- A stage that changes blanks only changes no more within what it sets aside. -/
theorem respaced {stage : Stage} (respaces : stage.Respaces) (text : List α) :
    Respaced ((stage.pieces text).flatMap (Piece.text id)) text := by
  rcases stage.protects_or_thins text with ⟨region, rfl⟩ | ⟨result, pieces, _, _, respaced⟩
  · exact Region.respaced_of_closer_eq_nil respaces text
  · rw [pieces, Piece.flatMap_text_kept]
    exact respaced respaces

/-- A reading of symbols that passes over characters reads the same behind every stage
that drops no comments. -/
theorem flatMap_pieces_eq {γ : Type} {view : α → List γ} (passes : ∀ c, view (ofChar c) = [])
    {stage : Stage} (other : stage ≠ comments) (text : List α) :
    ((stage.pieces text).flatMap (Piece.text id)).flatMap view = text.flatMap view := by
  have blanks : ∀ a, isBlank a = true → view a = [] := by
    intro a blank
    obtain ⟨c, rfl⟩ := exists_ofChar_of_isBlank blank
    exact passes c
  have pruned : ∀ {text' text : List α}, Pruned text' text →
      text'.flatMap view = text.flatMap view := fun pruned =>
    pruned.flatMap_eq blanks (by rintro _ ⟨c, rfl⟩; exact passes c)
  have run : ∀ {run : List α}, (∀ a ∈ run, isBlank a = true) → run.flatMap view = [] :=
    fun blank => List.flatMap_eq_nil_iff.mpr fun a member => blanks a (blank a member)
  have word : ∀ letters : List Char, (spell letters : List α).flatMap view = [] := fun letters =>
    (pruned (Pruned.dropSpell letters)).symm
  rcases stage.protects_or_thins text with ⟨region, rfl⟩ | ⟨result, pieces, -, prunes, -⟩
  · apply Pattern.related_replace fun text' text => text'.flatMap view = text.flatMap view
    · exact fun _ => rfl
    · intro first first' second second' front back
      rw [List.flatMap_append, List.flatMap_append, front, back]
    · intro text content rest found
      obtain ⟨before, element, behind, front, back, shape, rfl, written, -, closing⟩ :=
        Region.exists_of_read found
      refine ⟨_, shape, ?_⟩
      have inner : (region.content element).flatMap view = element.text.flatMap view := by
        obtain ⟨core, content, -, ⟨-, rfl⟩ | ⟨-, kept⟩⟩ := region.exists_core element
        · rw [content, List.flatMap_append, word, List.append_nil]
        · rw [content, List.flatMap_append, word, List.append_nil, pruned kept, Element.text,
            List.flatMap_append, List.flatMap_append, closing, List.flatMap_append, word,
            List.append_nil]
      rw [id, inner, List.flatMap_append, List.flatMap_append, run front, run back, List.nil_append,
        List.append_nil]
  · rw [pieces, Piece.flatMap_text_kept, pruned (prunes other)]

end Stage

end HtmlMinifier
