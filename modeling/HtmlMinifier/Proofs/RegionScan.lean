import HtmlMinifier.Proofs.ScriptBody
import HtmlMinifier.Proofs.Unwrapping
import Mathlib.Data.Nat.Find

/-!
# A scan for regions

The regions of one kind are protected as in this scan.  From a cursor on the first one is sought,
with all the blanks before it and behind it.  What is in front of them stays, what is kept of the
region takes their place, and the scan goes on behind them.  A script or a style sheet is kept
without its wrapper, and closes with a tag in lower case; preformatted text and text areas are
kept as they are.

Tokens leave no trace: restoring a draft whose regions have just been set aside gives what the
scan gives, as long as the characters of the sigil do not stand in the document in their order.
-/

namespace HtmlMinifier

open Alphabet

/-! ## In front of what is found -/

namespace Reader

/-- In front of the place where a text is cut the reader refuses. -/
theorem refused_of_upTo {α : Type} {reader : Reader α} (faithful : Faithful reader)
    {text suffix : List α} {split : Split α} (found : upTo reader text = some split)
    (nonempty : suffix ≠ []) (within : suffix.IsSuffix split.before) :
    reader (suffix ++ (split.taken ++ split.rest)) = none := by
  induction text generalizing split with
  | nil =>
      cases read : reader [] with
      | none => simp [upTo_nil_of_none read] at found
      | some pair =>
          rw [upTo_of_some read, Option.some.injEq] at found
          rw [← found] at within
          exact absurd (List.suffix_nil.mp within) nonempty
  | cons a text ih =>
      cases read : reader (a :: text) with
      | some pair =>
          rw [upTo_of_some read, Option.some.injEq] at found
          rw [← found] at within
          exact absurd (List.suffix_nil.mp within) nonempty
      | none =>
          rw [upTo_cons_of_none read, Option.map_eq_some_iff] at found
          obtain ⟨split, inner, rfl⟩ := found
          rcases List.suffix_cons_iff.mp within with rfl | further
          · rw [← append_of_upTo faithful inner] at read
            simpa only [List.cons_append, List.append_assoc] using read
          · have earlier := ih inner further
            exact earlier

end Reader

/-- A word that ends before a tag is closed ends where the rest of the tag begins. -/
theorem Alphabet.head?_of_endsWord {more rest : List Char} {c : Char}
    (ends : endsWord (more ++ c :: rest) = true) : ∀ d ∈ more.head?, isWord d = false := by
  cases more with
  | nil => simp
  | cons d more =>
      rintro _ ⟨⟩
      simpa [endsWord] using ends

/-! ## Scans for a pattern -/

namespace Pattern

variable {α β : Type}

/-- A scan, from the text behind the cursor to what becomes of it.  A place is told by a text, what
stands before it, what is written for it, and what stands behind it. -/
inductive Scans (place : List α → List α → List α → List α → Prop) : List α → List α → Prop
  | kept {text : List α} (clear : ∀ before written behind, ¬ place text before written behind) :
      Scans place text text
  | replaced {text before written behind result : List α}
      (here : place text before written behind)
      (first : ∀ before' written' behind', place text before' written' behind' →
        before.length ≤ before'.length)
      (further : Scans place behind result) :
      Scans place text (before ++ (written ++ result))

/-- A pattern reads what is at a place, and where it reads there is a place, or further in
front. -/
structure Finds (pattern : Pattern α β) (write : β → List α)
    (place : List α → List α → List α → List α → Prop) : Prop where
  exists_read : ∀ {text before written behind}, place text before written behind →
    ∃ matched found, text = before ++ matched ∧
      pattern.read matched = some (found, behind) ∧ write found = written
  exists_place : ∀ (front : List α) {suffix rest : List α} {found : β},
    pattern.read suffix = some (found, rest) →
      ∃ before written behind, place (front ++ suffix) before written behind ∧
        before.length ≤ front.length

namespace Finds

variable {pattern : Pattern α β} {write : β → List α}
  {place : List α → List α → List α → List α → Prop}

/-- A text without a place is kept. -/
theorem replace_of_clear (finds : pattern.Finds write place) {text : List α}
    (clear : ∀ before written behind, ¬ place text before written behind) :
    pattern.replace write text = text := by
  apply replace_of_refused
  rintro suffix ⟨front, rfl⟩
  cases read : pattern.read suffix with
  | none => rfl
  | some pair =>
      obtain ⟨before, written, behind, here, -⟩ := finds.exists_place front read
      exact absurd here (clear before written behind)

/-- At the first place what is written for it takes its place. -/
theorem replace_of_first (finds : pattern.Finds write place) {text before written behind : List α}
    (here : place text before written behind)
    (first : ∀ before' written' behind', place text before' written' behind' →
      before.length ≤ before'.length) :
    pattern.replace write text = before ++ (written ++ pattern.replace write behind) := by
  obtain ⟨matched, found, rfl, read, rfl⟩ := finds.exists_read here
  have kept : ∀ suffix, suffix ≠ [] → suffix.IsSuffix before →
      pattern.read (suffix ++ matched) = none := by
    rintro suffix nonempty ⟨front, rfl⟩
    cases read' : pattern.read (suffix ++ matched) with
    | none => rfl
    | some pair =>
        -- A match further in front would be a place in front of the first one.
        obtain ⟨before', written', behind', here', near⟩ := finds.exists_place front read'
        rw [← List.append_assoc] at here'
        have least := first before' written' behind' here'
        have positive := List.length_pos_iff.mpr nonempty
        rw [List.length_append] at least
        omega
  rw [replace_append_of_refused kept, replace_of_some read]

/-- Of several places one is the first. -/
theorem exists_first {text before written behind : List α}
    (here : place text before written behind) :
    ∃ before written behind, place text before written behind ∧
      ∀ before' written' behind', place text before' written' behind' →
        before.length ≤ before'.length := by
  classical
  have some : ∃ length before written behind, place text before written behind ∧
      before.length = length := ⟨_, before, written, behind, here, rfl⟩
  obtain ⟨first, written, behind, here, least⟩ := Nat.find_spec some
  refine ⟨first, written, behind, here, fun before' written' behind' here' => ?_⟩
  rw [least]
  exact Nat.find_min' some ⟨before', written', behind', here', rfl⟩

/-- The scan comes to an end. -/
theorem exists_scans (finds : pattern.Finds write place) (text : List α) :
    ∃ result, Scans place text result := by
  induction length : text.length using Nat.strongRecOn generalizing text with
  | ind n ih =>
      by_cases clear : ∀ before written behind, ¬ place text before written behind
      · exact ⟨text, .kept clear⟩
      · simp only [not_forall, not_not] at clear
        obtain ⟨_, _, _, here⟩ := clear
        obtain ⟨before, written, behind, here, first⟩ := exists_first here
        obtain ⟨matched, found, rfl, read, -⟩ := finds.exists_read here
        have shorter := pattern.shrinks read
        rw [List.length_append] at length
        obtain ⟨result, further⟩ := ih behind.length (by omega) behind rfl
        exact ⟨_, .replaced here first further⟩

/-- To replace what a pattern finds is to scan the text for its places. -/
theorem replace_eq_iff_scans (finds : pattern.Finds write place) {text result : List α} :
    pattern.replace write text = result ↔ Scans place text result := by
  have scanned : ∀ {result}, Scans place text result → pattern.replace write text = result := by
    intro result scans
    induction scans with
    | kept clear => exact finds.replace_of_clear clear
    | replaced here first _ ih => rw [finds.replace_of_first here first, ih]
  constructor
  · rintro rfl
    obtain ⟨result, scans⟩ := finds.exists_scans text
    rwa [scanned scans]
  · exact scanned

end Finds

end Pattern

/-! ## Regions as they are written -/

namespace Region

theorem toLower_openTag (region : Region) :
    (Markup.openTag region.name).map Char.toLower = Markup.openTag region.name := by
  cases region <;> decide

theorem toLower_closeTag (region : Region) :
    (Markup.closeTag region.name).map Char.toLower = Markup.closeTag region.name := by
  cases region <;> decide

/-- The close tag of a region does not stand in front of the first one that is found. -/
theorem not_isInfix_of_upTo (region : Region) {text : List Char} {split : Reader.Split Char}
    (found : Reader.upTo (Reader.phraseAnyCase (Markup.closeTag region.name)) text = some split) :
    ¬ (Markup.closeTag region.name).IsInfix (split.before.map Char.toLower) := by
  rintro ⟨front, back, within⟩
  obtain ⟨_, back', shape, inFront, -⟩ := List.map_eq_append_iff.mp within.symm
  obtain ⟨front', tag, rfl, -, same⟩ := List.map_eq_append_iff.mp inFront
  have nonempty : tag ++ back' ≠ [] := by
    intro empty
    rw [(List.append_eq_nil_iff.mp empty).1] at same
    contradiction
  have inside : (tag ++ back').IsSuffix split.before := ⟨front', by rw [shape, List.append_assoc]⟩
  have refused := Reader.refused_of_upTo (Reader.phraseAnyCase_faithful _) found nonempty inside
  have read : Reader.phraseAnyCase (Markup.closeTag region.name)
      (tag ++ back' ++ (split.taken ++ split.rest)) =
      some (tag, back' ++ (split.taken ++ split.rest)) :=
    Reader.phraseAnyCase_eq_some_iff.mpr ⟨tag, same.trans region.toLower_closeTag.symm,
      (spell_char tag).symm, by rw [spell_char, List.append_assoc]⟩
  rw [read] at refused
  contradiction

/-- A region as it is written. -/
structure Written (region : Region) where
  /-- The `<` and the name. -/
  opener : List Char
  /-- What follows the name in the open tag, without the `>`. -/
  more : List Char
  /-- What stands between the open tag and the close tag. -/
  body : List Char
  /-- The close tag. -/
  closer : List Char
  opens : opener.map Char.toLower = Markup.openTag region.name
  ends : ∀ c ∈ more.head?, isWord c = false
  unclosed : '>' ∉ more
  first : ¬ (Markup.closeTag region.name).IsInfix (body.map Char.toLower)
  closes : closer.map Char.toLower = Markup.closeTag region.name

namespace Written

variable {region : Region}

/-- The open tag from its `<` through its `>`. -/
def opening (written : Written region) : List Char :=
  written.opener ++ (written.more ++ ['>'])

def text (written : Written region) : List Char :=
  written.opening ++ (written.body ++ written.closer)

/-- What is kept of a region. -/
def kept : {region : Region} → Written region → List Char
  | script, written =>
      written.opening ++ (Unwrapping.script written.body ++ Markup.closeTag script.name)
  | style, written =>
      written.opening ++ (Unwrapping.style written.body ++ Markup.closeTag style.name)
  | pre, written => written.text
  | textarea, written => written.text

/-- The element that is read there. -/
def element (written : Written region) : Element Char :=
  ⟨written.opening, written.body, written.closer⟩

theorem content_element (written : Written region) :
    region.content written.element = written.kept := by
  cases region with
  | script => rw [content, element, Unwrapping.script_eq, spell_char, List.append_assoc, kept]
  | style => rw [content, element, Unwrapping.style_eq, spell_char, List.append_assoc, kept]
  | pre => exact List.append_assoc _ _ _
  | textarea => exact List.append_assoc _ _ _

theorem exists_text_eq (written : Written region) :
    ∃ behind, written.text = '<' :: behind := by
  obtain ⟨others, shape⟩ :=
    exists_of_map_toLower_angle (written.opens.trans region.toLower_openTag.symm)
  exact ⟨_, by rw [text, opening, shape]; rfl⟩

theorem endsWord_more (written : Written region) : endsWord written.more = true := by
  have ends := written.ends
  cases more : written.more with
  | nil => rfl
  | cons c more =>
      rw [more] at ends
      simp [endsWord, ends c rfl]

/-- A region is read as it is written, with the blanks around it. -/
theorem read_append (written : Written region) {run run' behind : List Char}
    (blanks : ∀ c ∈ run, isBlank c = true) (blanks' : ∀ c ∈ run', isBlank c = true)
    (maximal' : ∀ c ∈ behind.head?, isBlank c = false) :
    region.pattern.read (run ++ (written.text ++ (run' ++ behind))) =
      some (written.kept, behind) := by
  obtain ⟨inText, shape⟩ := written.exists_text_eq
  have stops : (run ++ (written.text ++ (run' ++ behind))).dropWhile isBlank =
      written.text ++ (run' ++ behind) := by
    rw [List.dropWhile_append_of_pos blanks]
    exact dropWhile_eq_self (by rw [shape]; rintro _ ⟨⟩; rfl)
  have left : (run' ++ behind).dropWhile isBlank = behind := by
    rw [List.dropWhile_append_of_pos blanks']
    exact dropWhile_eq_self maximal'
  have first : ¬ ((Markup.closeTag region.name).map Char.toLower).IsInfix
      (written.body.map Char.toLower) := by
    rw [region.toLower_closeTag]
    exact written.first
  have found := Element.read_append (α := Char) region.angled_name
    (written.opens.trans region.toLower_openTag.symm) written.endsWord_more written.unclosed first
    (written.closes.trans region.toLower_closeTag.symm) (run' ++ behind)
  simp only [spell_char, ofChar_char, left, List.append_assoc] at found
  have shape : written.text ++ (run' ++ behind) = written.opener ++ (written.more ++
      '>' :: (written.body ++ (written.closer ++ (run' ++ behind)))) := by
    simp [text, opening]
  rw [← region.read_dropWhile, stops, read_pattern, shape, found, Option.map_some]
  exact congrArg some (Prod.ext written.content_element rfl)

end Written

/-- A place of a region in a text: all the blanks before it, the region and all the blanks
behind it. -/
inductive Place (region : Region) : List Char → List Char → List Char → List Char → Prop
  | mk {before run run' behind : List Char} (written : Written region)
      (blanks : ∀ c ∈ run, isBlank c = true)
      (maximal : ∀ c ∈ before.getLast?, isBlank c = false)
      (blanks' : ∀ c ∈ run', isBlank c = true)
      (maximal' : ∀ c ∈ behind.head?, isBlank c = false) :
      Place region (before ++ (run ++ (written.text ++ (run' ++ behind))))
        before written.kept behind

/-- What is read as a region is written as one. -/
theorem exists_written_of_read {region : Region} {text content rest : List Char}
    (found : region.pattern.read text = some (content, rest)) :
    ∃ (run run' : List Char) (written : Written region), (∀ c ∈ run, isBlank c = true) ∧
      (∀ c ∈ run', isBlank c = true) ∧ (∀ c ∈ rest.head?, isBlank c = false) ∧
      text = run ++ (written.text ++ (run' ++ rest)) ∧ content = written.kept := by
  rw [read_pattern, Option.map_eq_some_iff] at found
  obtain ⟨⟨element, rest'⟩, found, same⟩ := found
  obtain ⟨head, inTag, tag, inner, named, tagged, closed, rfl, rfl⟩ :=
    Element.read_eq_some_iff.mp found
  obtain ⟨any, ends⟩ := Reader.name_eq_some_iff.mp named
  obtain ⟨opener, opens, rfl, opened⟩ := Reader.phraseAnyCase_eq_some_iff.mp any
  obtain ⟨unclosed, close, rfl⟩ := Reader.upTo_singleton_eq_some_iff.mp tagged
  have whole := Reader.append_of_upTo (Reader.phraseAnyCase_faithful _) closed
  obtain ⟨closer, closes, closing, -⟩ := Reader.phraseAnyCase_eq_some_iff.mp
    (Reader.taken_of_upTo (Reader.phraseAnyCase_faithful _) closed)
  have runs := List.takeWhile_append_dropWhile (p := isBlank) (l := text)
  have runs' := List.takeWhile_append_dropWhile (p := isBlank) (l := inner.rest)
  obtain ⟨rfl, rfl⟩ := Prod.mk.inj same
  let written : Written region :=
    { opener, more := tag.before, body := inner.before, closer
      opens := opens.trans region.toLower_openTag
      ends := head?_of_endsWord ends
      unclosed
      first := region.not_isInfix_of_upTo closed
      closes := closes.trans region.toLower_closeTag }
  have shape : text = text.takeWhile isBlank ++
      (written.text ++ (inner.rest.takeWhile isBlank ++ inner.rest.dropWhile isBlank)) := by
    rw [runs']
    conv_lhs => rw [← runs, opened, ← whole, closing]
    simp [Written.text, Written.opening, written]
  have element : (⟨spell opener ++ tag.before ++ tag.taken, inner.before, inner.taken⟩ :
      Element Char) = written.element := by
    rw [close, closing, spell_char]
    simp [Written.element, Written.opening, written]
  exact ⟨_, _, written, fun _ => List.mem_takeWhile_imp, fun _ => List.mem_takeWhile_imp,
    inked_head_dropWhile inner.rest, shape, by rw [element, written.content_element]⟩

theorem finds_place (region : Region) : region.pattern.Finds id (Place region) where
  exists_read here := by
    obtain ⟨written, blanks, maximal, blanks', maximal'⟩ := here
    exact ⟨_, _, rfl, written.read_append blanks blanks' maximal', rfl⟩
  exists_place front {suffix rest content} found := by
    obtain ⟨run, run', written, blanks, blanks', maximal', rfl, rfl⟩ := exists_written_of_read found
    have parts := List.rdropWhile_append_rtakeWhile (p := isBlank) (l := front)
    have shape : front ++ (run ++ (written.text ++ (run' ++ rest))) =
        front.rdropWhile isBlank ++ ((front.rtakeWhile isBlank ++ run) ++
          (written.text ++ (run' ++ rest))) := by
      conv_lhs => rw [← parts]
      simp only [List.append_assoc]
    have maximal : ∀ c ∈ (front.rdropWhile isBlank).getLast?, isBlank c = false := by
      intro c last
      have nonempty : front.rdropWhile isBlank ≠ [] := by
        intro empty
        simp [empty] at last
      exact Unwrapping.getLast?_of_suffix_rdropWhile nonempty List.suffix_rfl c last
    refine ⟨front.rdropWhile isBlank, written.kept, rest, ?_,
      (List.rdropWhile_prefix isBlank front).length_le⟩
    rw [shape]
    exact .mk written (List.forall_mem_append.mpr ⟨fun _ => List.mem_rtakeWhile_imp, blanks⟩)
      maximal blanks' maximal'

/-- To keep of every region what is kept of it is to scan the text for places of regions. -/
theorem replace_eq_iff_scans (region : Region) {text result : List Char} :
    region.pattern.replace id text = result ↔ Pattern.Scans (Place region) text result :=
  region.finds_place.replace_eq_iff_scans

end Region

/-! ## Setting regions aside and restoring them -/

/-- What a stage makes of a text, with all that it sets aside put back. -/
theorem Symbol.flattenAll_apply_spell (text : List Char) (stage : Stage) :
    flattenAll (apply (spell text) stage) = (stage.pieces text).flatMap (Piece.text id) := by
  rw [apply_spell, flattenAll_eq_flatMap, List.flatMap_map]
  refine List.flatMap_congr fun piece _ => ?_
  cases piece with
  | kept c => rfl
  | found content => exact flattenAll_map_char content

/-- Restoring a draft whose regions of one kind have just been set aside gives what the scan for
them gives. -/
theorem Draft.restore_protect_eq_iff_scans {sigil : Sigil} {document : String}
    (absent : ¬ sigil.text.Sublist document.toList) (region : Region) {result : String} :
    ((start sigil document).apply (.protect region)).restore = result ↔
      Pattern.Scans (Region.Place region) document.toList result.toList := by
  have restored : ((start sigil document).apply (.protect region)).restore =
      String.ofList (region.pattern.replace id document.toList) := by
    have run := restore_run_start absent [.protect region]
    rw [run_cons, run_nil, Symbol.run_cons, Symbol.run_nil] at run
    rw [run]
    exact congrArg String.ofList (Symbol.flattenAll_apply_spell document.toList (.protect region))
  rw [restored, ← region.replace_eq_iff_scans, ← String.toList_inj, String.toList_ofList]

/-- A wrapper goes only once, and what looks like another half of one stays. -/
theorem Draft.restore_protect_script_of_halves :
    ¬ (Sigil.mk 0).text.Sublist "a <script> <!--<!--> ////--> </SCRIPT>\n<scripts>b".toList ∧
      ((start ⟨0⟩ "a <script> <!--<!--> ////--> </SCRIPT>\n<scripts>b").apply
        (.protect .script)).restore = "a<script><!--> //</script><scripts>b" ∧
      Pattern.Scans (Region.Place .script)
        "a <script> <!--<!--> ////--> </SCRIPT>\n<scripts>b".toList
        "a<script><!--> //</script><scripts>b".toList := by
  have absent : ¬ (Sigil.mk 0).text.Sublist
      "a <script> <!--<!--> ////--> </SCRIPT>\n<scripts>b".toList := by decide +kernel
  have restored : ((start ⟨0⟩ "a <script> <!--<!--> ////--> </SCRIPT>\n<scripts>b").apply
      (.protect .script)).restore = "a<script><!--> //</script><scripts>b" := by decide +kernel
  exact ⟨absent, restored, (restore_protect_eq_iff_scans absent .script).mp restored⟩

end HtmlMinifier
