import HtmlMinifier.Proofs.BlankRun
import HtmlMinifier.Proofs.Removal
import HtmlMinifier.Proofs.SigilChoice

/-!
# Tags that minifying brings about

A tag that is not in a document can be in what the document is minified to: when a
comment, a CDATA marker or an empty line stands between its letters, it is taken out and
the letters stand together.  This is the only way.  Where no removal brings a tag
together, neither does anything else that happens to a document, whichever sigil is used
and even when the document holds tokens of its own.
-/

namespace HtmlMinifier

open Alphabet

/-! ## Stages that change blanks -/

theorem BlankRun.settle_regapped (text : List Char) :
    ∃ left, Bared left text ∧ Regapped (settle text) left := by
  refine ⟨pattern.replace (fun run => if settled run = [] then [] else run) text, ?_, ?_⟩
  · apply Bared.replace
    intro text run rest found
    obtain ⟨nonempty, blanks, -, rfl⟩ := read_eq_some_iff.mp found
    refine ⟨run, rfl, ?_⟩
    split
    next gone =>
      refine Bared.removed (.emptyLine blanks ?_)
      by_contra noEmptyLine
      rcases settled_eq_or noEmptyLine with same | lineFeed
      · exact nonempty (same.symm.trans gone)
      · exact absurd (lineFeed.symm.trans gone) (List.cons_ne_nil _ _)
    next => exact Bared.refl
  · induction text using (pattern (α := Char)).induction with
    | nil => simpa using Regapped.nil
    | found text run rest found ih =>
        obtain ⟨-, blanks, -, rfl⟩ := read_eq_some_iff.mp found
        rw [settle, Pattern.replace_of_some found, Pattern.replace_of_some found]
        by_cases gone : settled run = []
        · rw [gone, if_pos rfl]
          exact ih
        · rw [if_neg gone]
          exact Regapped.gap ((settled_respaced blanks).forall_isBlank blanks)
            (fun none => absurd none gone) ih
    | kept c text refused ih =>
        rw [settle, Pattern.replace_cons_of_none refused, Pattern.replace_cons_of_none refused]
        exact ih.keep c

namespace BlockTag

theorem moveUp_regapped (text : List Char) : Regapped (moveUp text) text := by
  apply Regapped.replace
  intro text taken rest found
  obtain ⟨run, -, -, tagged, shape⟩ := exists_of_read found
  have nothing : ∀ c ∈ ([] : List Char), isBlank c = true := by simp
  exact ⟨run ++ taken, shape,
    Regapped.gap nothing (fun _ => exists_eq_cons_of_tag tagged) (Regapped.refl taken)⟩

end BlockTag

theorem TextEdge.collapse_regapped (text : List Char) : Regapped (collapse text) text := by
  refine related_collapse Regapped.refl Regapped.append (fun run blanks => ?_) text
  cases run with
  | nil => exact Regapped.nil
  | cons c run =>
      have one : ∀ d ∈ [' '], isBlank d = true := by decide
      have whole : Regapped ([' '] ++ []) (c :: run ++ []) :=
        Regapped.gap one (fun none => absurd none (List.cons_ne_nil _ _)) Regapped.nil
      rwa [List.append_nil, List.append_nil] at whole

theorem Attribute.reflow_regapped (text : List Char) : Regapped (reflow text) text := by
  apply Regapped.replace
  intro text tag rest found
  obtain ⟨run', run, part, blanks', -, nonempty, -, written, whole⟩ := exists_runs_of_read found
  refine ⟨_, whole, ?_⟩
  rw [written]
  exact (Regapped.refl tag.head).append
    (Regapped.gap blanks' (fun none => absurd none nonempty) (Regapped.refl part))

/-! ## What is set aside -/

/-- A name of letters and digits. -/
def IsName (letters : List Char) : Prop :=
  letters ≠ [] ∧ ∀ c ∈ letters, c.isAlphanum = true

namespace IsName

variable {letters : List Char}

theorem notMem (named : IsName letters) {c : Char} (other : c.isAlphanum = false) :
    c ∉ letters := by
  intro member
  rw [named.2 c member] at other
  contradiction

theorem isBlank_of_mem (named : IsName letters) : ∀ c ∈ letters, isBlank c = false := by
  intro c member
  rw [Bool.eq_false_iff]
  intro blank
  have blanks := of_isBlank (fun c => c.isAlphanum = false) (by decide) blank
  exact named.notMem blanks member

end IsName

/-- What stands in a part of a text when removable stretches are taken out stands in the
text when they are. -/
theorem Bared.exists_of_isInfix {word left part text : List Char} (bared : Bared left part)
    (within : part.IsInfix text) (inside : word.IsInfix left) :
    ∃ left', Bared left' text ∧ word.IsInfix left' := by
  obtain ⟨before, behind, rfl⟩ := within
  exact ⟨_, bared.around before behind, inside.trans (List.infix_append before left behind)⟩

namespace Region

/-- A region is kept as it is written, or with another close tag and with a part of its body
out of which CDATA markers are erased. -/
theorem content_eq_or (region : Region) (element : Element Char) :
    region.content element = element.text ∨
      ∃ part kept, part.IsInfix element.body ∧ kept.IsInfix (Wrapper.eraseCdata part) ∧
        region.content element = element.opening ++ kept ++ Markup.closeTag region.name := by
  have spelled : ∀ letters : List Char, (spell letters : List Char) = letters := spell_char
  cases region with
  | script =>
      exact Or.inr ⟨_, _, Wrapper.uncommentScript_isInfix element.body, Margin.trim_isInfix _,
        by rw [content, spelled]; rfl⟩
  | style =>
      exact Or.inr ⟨_, _, Wrapper.uncommentStyle_isInfix element.body, Margin.trim_isInfix _,
        by rw [content, spelled]; rfl⟩
  | pre => exact Or.inl rfl
  | textarea => exact Or.inl rfl

/-- A tag in what is kept of a region stands in the region when removable stretches are
taken out. -/
theorem exists_bared_of_isInfix_content {letters : List Char} (named : IsName letters)
    (region : Region) {element : Element Char} {opener : List Char}
    (opening : element.opening = opener ++ ['>'])
    (inside : ('<' :: letters).IsInfix (region.content element)) :
    ∃ left, Bared left element.text ∧ ('<' :: letters).IsInfix left := by
  rcases region.content_eq_or element with same | ⟨part, kept, inBody, erased, content⟩
  · exact ⟨element.text, Bared.refl, same ▸ inside⟩
  have body : element.body.IsInfix element.text := ⟨element.opening, element.closing, rfl⟩
  have noAngle : '<' ∉ '/' :: (region.name ++ ['>']) := by
    cases region <;> decide
  have parted : region.content element =
      (opener ++ '>' :: kept) ++ '<' :: '/' :: (region.name ++ ['>']) := by
    simp [content, opening, Markup.closeTag]
  rw [parted] at inside
  rcases isInfix_append_cons (named.notMem (by decide)) inside with before | start | behind
  · rcases isInfix_append_cons (named.notMem (by decide)) before with inTag | start | inKept
    · have tag : opener.IsInfix element.text :=
        ⟨[], '>' :: (element.body ++ element.closing), by simp [Element.text, opening]⟩
      exact ⟨element.text, Bared.refl, inTag.trans tag⟩
    · exact absurd (List.cons_prefix_cons.mp start).1 (by decide)
    · exact (Wrapper.eraseCdata_bared part).exists_of_isInfix (inBody.trans body)
        (inKept.trans erased)
  · -- a name does not begin with the slash of a close tag
    obtain ⟨c, rest, rfl⟩ := List.exists_cons_of_ne_nil named.1
    obtain ⟨rfl, -⟩ := List.cons_prefix_cons.mp (List.cons_prefix_cons.mp start).2
    exact absurd List.mem_cons_self (named.notMem (by decide))
  · exact absurd (behind.subset List.mem_cons_self) noAngle

end Region

/-- So does a tag in whatever a stage sets aside. -/
theorem Stage.exists_bared_of_isInfix_content {letters : List Char} (named : IsName letters)
    {stage : Stage} {text content : List Char} (member : .found content ∈ stage.pieces text)
    (inside : ('<' :: letters).IsInfix content) :
    ∃ left, Bared left text ∧ ('<' :: letters).IsInfix left := by
  rcases stage.protects_or_thins text with ⟨region, rfl⟩ | ⟨result, pieces, -⟩
  · obtain ⟨suffix, rest, within, read⟩ := Pattern.exists_read_of_mem_cut region.splits member
    rw [Region.read_pattern, Option.map_eq_some_iff] at read
    obtain ⟨⟨element, rest'⟩, read, same⟩ := read
    obtain ⟨rfl, -⟩ := Prod.mk.inj same
    obtain ⟨before, behind, -, -, shape⟩ := Element.exists_of_read read
    obtain ⟨written, inner, -, opening⟩ := Element.exists_opening_of_read read
    have part : element.text.IsInfix suffix := ⟨before, behind ++ rest', by simp [shape]⟩
    obtain ⟨left, bared, inLeft⟩ :=
      region.exists_bared_of_isInfix_content named opening inside
    exact bared.exists_of_isInfix (part.trans within.isInfix) inLeft
  · simp [pieces] at member

/-! ## Tokens and what they stand for -/

namespace Token

variable {sigil : Sigil} {limit : Nat}

/-- A text masks what it becomes when its tokens are replaced. -/
theorem masked_replace (write : Fin limit → List Char) (text : List Char) :
    Masked (fun stretch => ∃ index, stretch = write index) text
      ((pattern sigil limit).replace write text) := by
  induction text using (pattern sigil limit).induction with
  | nil => simpa using Masked.nil
  | found text index rest read ih =>
      rw [Pattern.replace_of_some read]
      obtain ⟨digits, -, digital, -, rfl⟩ := read_eq_some_iff.mp read
      have shape : sigil.text ++ digits ++ '%' :: rest =
          '%' :: (sigil.tail ++ digits ++ ['%']) ++ rest := by
        simp [Sigil.text_eq_cons]
      rw [shape]
      refine Masked.mask (fun c member => ?_) ⟨index, rfl⟩ ih
      simp only [List.mem_cons, List.mem_append, List.not_mem_nil, or_false] at member
      rcases member with rfl | (inTail | inDigits) | rfl
      · decide
      · exact isMark_of_isAlphanum (Sigil.isAlphanum_of_mem_tail inTail)
      · exact isMark_of_isAlphanum (by simp [Char.isAlphanum, digital c inDigits])
      · decide
  | kept a text refused ih =>
      rw [Pattern.replace_cons_of_none refused]
      exact ih.keep a

/-- An angle bracket at the end of a text stays there when tokens are replaced. -/
theorem exists_replace_eq_append (write : Fin limit → List Char) (text : List Char) :
    ∃ front, (pattern sigil limit).replace write (text ++ ['>']) = front ++ ['>'] := by
  generalize shape : text ++ ['>'] = whole
  induction whole using (pattern sigil limit).induction generalizing text with
  | nil => simp at shape
  | found whole index rest read ih =>
      obtain ⟨digits, -, -, -, parts⟩ := read_eq_some_iff.mp read
      cases rest using List.reverseRecOn with
      | nil =>
          have last := (List.append_inj' (shape.trans parts) rfl).2
          simp at last
      | append_singleton rest c _ =>
          rw [← List.cons_append, ← List.append_assoc] at parts
          obtain ⟨-, last⟩ := List.append_inj' (shape.trans parts) rfl
          obtain ⟨front, same⟩ := ih rest (by rw [last])
          rw [Pattern.replace_of_some read, same]
          exact ⟨write index ++ front, (List.append_assoc _ _ _).symm⟩
  | kept a whole refused ih =>
      rw [Pattern.replace_cons_of_none refused]
      cases text with
      | nil =>
          obtain ⟨rfl, rfl⟩ := List.cons.inj shape
          exact ⟨[], by simp⟩
      | cons b text =>
          obtain ⟨-, behind⟩ := List.cons.inj shape
          obtain ⟨front, same⟩ := ih text behind
          exact ⟨a :: front, by rw [same, List.cons_append]⟩

end Token

namespace Table

variable {letters : List Char} {table : Table}

/-- Everything in a table stands between angle brackets and holds no tag of a name. -/
def Lacks (letters : List Char) (table : Table) : Prop :=
  ∀ index < table.size, (∃ inner, table.content index = '<' :: (inner ++ ['>'])) ∧
    ¬ ('<' :: letters).IsInfix (table.content index)

theorem exists_expand_eq (table : Table) (limit : Nat) (inner : List Char) :
    ∃ inner', table.expand limit ('<' :: (inner ++ ['>'])) = '<' :: (inner' ++ ['>']) := by
  have refused : (Token.pattern table.sigil limit).read ('<' :: (inner ++ ['>'])) = none := by
    rw [Token.read_pattern, Token.read_of_not_percent '<' _ (by decide)]
  rw [expand_eq_replace, Pattern.replace_cons_of_none refused]
  obtain ⟨inner', same⟩ := Token.exists_replace_eq_append _ inner
  exact ⟨inner', congrArg ('<' :: ·) same⟩

/-- Expanding a text brings no tag together. -/
theorem Lacks.isInfix_of_isInfix_expand (lacks : table.Lacks letters) (named : IsName letters)
    {limit : Nat} (within : limit ≤ table.size) {text : List Char}
    (inside : ('<' :: letters).IsInfix (table.expand limit text)) :
    ('<' :: letters).IsInfix text := by
  induction limit using Nat.strongRecOn generalizing text with
  | ind limit ih =>
      rw [expand_eq_replace] at inside
      refine (Token.masked_replace _ text).isInfix_of_isInfix (named.notMem (by decide))
        (named.notMem (by decide)) ?_ ?_ inside
      · rintro stretch ⟨index, rfl⟩
        obtain ⟨⟨inner, shape⟩, -⟩ := lacks index (index.isLt.trans_le within)
        rw [shape]
        exact table.exists_expand_eq index inner
      · rintro stretch ⟨index, rfl⟩ inContent
        have below := index.isLt.trans_le within
        exact (lacks index below).2 (ih index index.isLt below.le inContent)

theorem Lacks.insert (lacks : table.Lacks letters) {content : List Char}
    (bracketed : ∃ inner, content = '<' :: (inner ++ ['>']))
    (without : ¬ ('<' :: letters).IsInfix content) : (table.insert content).Lacks letters := by
  intro index below
  rw [size_insert] at below
  rcases Nat.lt_succ_iff_lt_or_eq.mp below with earlier | rfl
  · rw [content_insert_of_lt earlier]
    exact lacks index earlier
  · rw [content_insert_size]
    exact ⟨bracketed, without⟩

theorem Lacks.park (lacks : table.Lacks letters) {pieces : List (Piece Char (List Char))}
    (found : ∀ content, .found content ∈ pieces →
      (∃ inner, content = '<' :: (inner ++ ['>'])) ∧ ¬ ('<' :: letters).IsInfix content) :
    (table.park pieces).2.Lacks letters := by
  induction pieces generalizing table with
  | nil => exact lacks
  | cons piece pieces ih =>
      have found' := fun content member => found content (List.mem_cons_of_mem piece member)
      cases piece with
      | kept c => rw [park_kept]; exact ih lacks found'
      | found content =>
          obtain ⟨bracketed, without⟩ := found content List.mem_cons_self
          rw [park_found]
          exact ih (lacks.insert bracketed without) found'

/-- A text is masked when matches are set aside. -/
theorem masked_park (table : Table) {pattern : Pattern Char (List Char)}
    (splits : pattern.Splits) (text : List Char) :
    Masked (fun _ => True) (table.park (pattern.cut text)).1 text := by
  induction text using pattern.induction generalizing table with
  | nil => simpa using Masked.nil
  | found text content rest read ih =>
      rw [Pattern.cut_of_some read, park_found]
      obtain ⟨matched, rfl⟩ := splits read
      exact Masked.mask (fun c member => Token.inert_of_mem_text member) trivial (ih _)
  | kept c text refused ih =>
      rw [Pattern.cut_cons_of_none refused, park_kept]
      exact (ih table).keep c

end Table

/-! ## Every run -/

namespace Stage

/-- The stages that take out what is removable, or set regions aside. -/
def takingOrder : List Stage :=
  contentOrder ++ [protect .pre, protect .textarea]

/-- The stages behind them, which only change blanks. -/
def changingOrder : List Stage :=
  [blocks, texts, attributes]

theorem order_eq_takingOrder_append : order = takingOrder ++ lines :: changingOrder :=
  rfl

/-- A stage that takes something out leaves a bared part of the text, with tokens in it. -/
theorem exists_bared {stage : Stage} (member : stage ∈ takingOrder) (table : Table)
    (text : List Char) :
    ∃ left part, Masked (fun _ => True) (table.park (stage.pieces text)).1 left ∧
      Bared left part ∧ part.IsInfix text := by
  have protects : ∀ region : Region, ∃ left part,
      Masked (fun _ => True) (table.park ((protect region).pieces text)).1 left ∧
        Bared left part ∧ part.IsInfix text := fun region =>
    ⟨text, text, table.masked_park region.splits text, Bared.refl, List.infix_rfl⟩
  simp only [takingOrder, contentOrder, List.cons_append, List.nil_append, List.mem_cons,
    List.not_mem_nil, or_false] at member
  rcases member with rfl | rfl | rfl | rfl | rfl | rfl
  · rw [pieces, Table.park_map_kept]
    exact ⟨_, _, Masked.refl _, Margin.joinLines_bared _, Margin.trim_isInfix text⟩
  · exact protects .script
  · exact protects .style
  · rw [pieces, Table.park_map_kept]
    exact ⟨_, _, Masked.refl _, Comment.strip_bared text, List.infix_rfl⟩
  · exact protects .pre
  · exact protects .textarea

/-- A stage that only changes blanks leaves all tags apart. -/
theorem regapped_park {stage : Stage} (member : stage ∈ changingOrder) (table : Table)
    (text : List Char) : Regapped (table.park (stage.pieces text)).1 text := by
  simp only [changingOrder, List.mem_cons, List.not_mem_nil, or_false] at member
  rcases member with rfl | rfl | rfl
  all_goals rw [pieces, Table.park_map_kept]
  · exact BlockTag.moveUp_regapped text
  · exact TextEdge.collapse_regapped text
  · exact Attribute.reflow_regapped text

end Stage

namespace Draft

/-- A tag is in a draft nowhere, and no removal brings it together. -/
structure Apart (letters : List Char) (draft : Draft) : Prop where
  text : ∀ left, Bared left draft.text → ¬ ('<' :: letters).IsInfix left
  table : draft.table.Lacks letters

/-- A tag is in a draft nowhere. -/
structure Lacks (letters : List Char) (draft : Draft) : Prop where
  text : ¬ ('<' :: letters).IsInfix draft.text
  table : draft.table.Lacks letters

variable {letters : List Char} {draft : Draft}

/-- What is set aside by a stage holds no tag that no removal brings together. -/
theorem Apart.lacks_apply (apart : draft.Apart letters) (named : IsName letters)
    (stage : Stage) : (draft.apply stage).table.Lacks letters := by
  refine apart.table.park fun content member => ⟨Stage.exists_content_eq member, fun inside => ?_⟩
  obtain ⟨left, bared, inLeft⟩ := Stage.exists_bared_of_isInfix_content named member inside
  exact apart.text left bared inLeft

theorem Apart.apply (apart : draft.Apart letters) (named : IsName letters) {stage : Stage}
    (member : stage ∈ Stage.takingOrder) : (draft.apply stage).Apart letters := by
  refine ⟨fun left' bared' inside => ?_, apart.lacks_apply named stage⟩
  obtain ⟨middle, part, masked, bared, within⟩ :=
    Stage.exists_bared member draft.table draft.text
  obtain ⟨left, further, masked'⟩ := masked.exists_bared bared'
  have inLeft : ('<' :: letters).IsInfix left := by
    refine masked'.isInfix (by decide) ?_ inside
    rw [List.mem_cons, not_or]
    exact ⟨by decide, named.notMem (by decide)⟩
  obtain ⟨whole, bared'', inWhole⟩ := (further.trans bared).exists_of_isInfix within inLeft
  exact apart.text whole bared'' inWhole

theorem Apart.run (apart : draft.Apart letters) (named : IsName letters) {stages : List Stage}
    (members : ∀ stage ∈ stages, stage ∈ Stage.takingOrder) :
    (draft.run stages).Apart letters := by
  induction stages generalizing draft with
  | nil => exact apart
  | cons stage stages ih =>
      obtain ⟨first, others⟩ := List.forall_mem_cons.mp members
      exact ih (apart.apply named first) others

/-- Trimming lines brings no tag together that removals do not bring together. -/
theorem Apart.apply_lines (apart : draft.Apart letters) (named : IsName letters) :
    (draft.apply .lines).Lacks letters := by
  refine ⟨fun inside => ?_, apart.lacks_apply named .lines⟩
  have trimmed : (draft.apply .lines).text =
      BlankRun.settle ((draft.text.dropWhile isBlank).rdropWhile isBlank) := by
    simp only [Draft.apply, Stage.pieces, Table.park_map_kept, Line.trim_eq_settle]
  obtain ⟨left, bared, regapped⟩ :=
    BlankRun.settle_regapped ((draft.text.dropWhile isBlank).rdropWhile isBlank)
  have part : ((draft.text.dropWhile isBlank).rdropWhile isBlank).IsInfix draft.text :=
    (List.rdropWhile_prefix isBlank _).isInfix.trans (List.dropWhile_suffix isBlank).isInfix
  rw [trimmed] at inside
  have inLeft := regapped.isInfix (named.notMem (by decide)) named.isBlank_of_mem inside
  obtain ⟨whole, bared', inWhole⟩ := bared.exists_of_isInfix part inLeft
  exact apart.text whole bared' inWhole

theorem Lacks.apply (lacks : draft.Lacks letters) (named : IsName letters) {stage : Stage}
    (member : stage ∈ Stage.changingOrder) : (draft.apply stage).Lacks letters := by
  constructor
  · intro inside
    have regapped := Stage.regapped_park member draft.table draft.text
    exact lacks.text (regapped.isInfix (named.notMem (by decide)) named.isBlank_of_mem inside)
  · apply lacks.table.park
    intro content found
    simp only [Stage.changingOrder, List.mem_cons, List.not_mem_nil, or_false] at member
    rcases member with rfl | rfl | rfl <;> simp [Stage.pieces] at found

theorem Lacks.run (lacks : draft.Lacks letters) (named : IsName letters) {stages : List Stage}
    (members : ∀ stage ∈ stages, stage ∈ Stage.changingOrder) :
    (draft.run stages).Lacks letters := by
  induction stages generalizing draft with
  | nil => exact lacks
  | cons stage stages ih =>
      obtain ⟨first, others⟩ := List.forall_mem_cons.mp members
      exact ih (lacks.apply named first) others

theorem Lacks.not_isInfix_restore (lacks : draft.Lacks letters) (named : IsName letters) :
    ¬ ('<' :: letters).IsInfix draft.restore.toList := by
  rw [restore, String.toList_ofList]
  exact fun inside => lacks.text (lacks.table.isInfix_of_isInfix_expand named le_rfl inside)

end Draft

/-- Minifying brings a tag together only where removals do. -/
theorem not_isInfix_minifyWith {letters : List Char} (named : IsName letters) {html : String}
    (apart : ∀ left, Bared left html.toList → ¬ ('<' :: letters).IsInfix left) (sigil : Sigil) :
    ¬ ('<' :: letters).IsInfix (minifyWith sigil html).toList := by
  have start : (Draft.start sigil html).Apart letters :=
    ⟨apart, fun index below => absurd below (Nat.not_lt_zero index)⟩
  have taken := start.run named fun _ member => member
  have changed := (taken.apply_lines named).run named fun _ member => member
  rw [minifyWith, Stage.order_eq_takingOrder_append, Draft.run_append, Draft.run_cons]
  exact changed.not_isInfix_restore named

/-- Minifying creates no script element where none comes together when comments, CDATA
markers and empty lines are taken out of a document. -/
theorem not_isInfix_minifyWith_script {html : String}
    (apart : ∀ left, Bared left html.toList →
      ¬ (Markup.openTag Region.script.name).IsInfix (left.map Char.toLower))
    (sigil : Sigil) :
    ¬ (Markup.openTag Region.script.name).IsInfix
      ((minifyWith sigil html).toList.map Char.toLower) := by
  intro inside
  obtain ⟨written, within, same⟩ := List.infix_map_iff.mp inside
  cases written with
  | nil => simp [Markup.openTag] at same
  | cons c letters =>
      obtain ⟨angle, lower⟩ := List.cons.inj same
      obtain rfl : c = '<' := eq_of_toLower_eq (by decide) angle.symm
      have named : IsName letters := by
        refine ⟨fun none => ?_, fun d member => ?_⟩
        · simp [none, Region.name] at lower
        · have inName := List.mem_map_of_mem (f := Char.toLower) member
          have plain : ∀ d ∈ Region.script.name, d.isAlphanum = true := by decide
          rw [← property_toLower Char.isAlphanum (by decide)]
          exact plain _ (lower ▸ inName)
      refine not_isInfix_minifyWith named (fun left bared inLeft => ?_) sigil within
      have whole := inLeft.map Char.toLower
      rw [List.map_cons, ← lower] at whole
      exact apart left bared whole

/-- A style sheet with CDATA markers, an empty line and comments. -/
theorem not_isInfix_minifyWith_script_of_style :
    (∀ left, Bared left "<style><![CDATA[p{}]]></style>\n\n<p\n\nid=a><!-- b --></p>".toList →
      ¬ (Markup.openTag Region.script.name).IsInfix (left.map Char.toLower)) ∧
    ¬ (Markup.openTag Region.script.name).IsInfix
      ((minifyWith ⟨0⟩ "<style><![CDATA[p{}]]></style>\n\n<p\n\nid=a><!-- b --></p>").toList.map
        Char.toLower) := by
  have apart : ∀ left,
      Bared left "<style><![CDATA[p{}]]></style>\n\n<p\n\nid=a><!-- b --></p>".toList →
        ¬ (Markup.openTag Region.script.name).IsInfix (left.map Char.toLower) := by
    intro left bared inside
    have scattered := inside.sublist.trans (bared.sublist.map Char.toLower)
    exact absurd scattered (by decide +kernel)
  exact ⟨apart, not_isInfix_minifyWith_script apart ⟨0⟩⟩

/-- An empty line within the letters of a tag is taken out, and a text that is no script
becomes one. -/
theorem isInfix_minify_script_of_emptyLine :
    ¬ (Markup.openTag Region.script.name).IsInfix
        ("<scr\n\nipt>f()</scr\n\nipt>".toList.map Char.toLower) ∧
      minify "<scr\n\nipt>f()</scr\n\nipt>" = "<script>f()</script>" ∧
      (Markup.openTag Region.script.name).IsInfix
        ((minify "<scr\n\nipt>f()</scr\n\nipt>").toList.map Char.toLower) := by
  decide +kernel

/-- So is a comment. -/
example : minify "<scr<!-- -->ipt>f()</scr<!-- -->ipt>" = "<script>f()</script>" := by
  decide +kernel

/-- So is a CDATA marker in a style sheet. -/
example : minify "<style><scr<![CDATA[ipt></style>" = "<style><script></style>" := by
  decide +kernel

end HtmlMinifier
