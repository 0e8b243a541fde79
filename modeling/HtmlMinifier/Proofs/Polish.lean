import HtmlMinifier.Proofs.SheetWhitespace

/-!
# Polished sheets

A sheet is polished when its runs of blanks have been settled, its blocks moved up, the
edges of its texts softened and its first attributes reflowed.  Each of these steps
leaves what the others have done: a polished sheet is not changed by polishing it again.

The steps on a text are looked at first.  What they share is that a text consists of
blanks, a core without blanks at its ends, and blanks again; all but settling change the
outer parts only.
-/

namespace HtmlMinifier

open Alphabet

variable {α : Type} [Alphabet α]

/-! ## Settled texts -/

namespace BlankRun

theorem settle_of_blank {run : List α} (blanks : ∀ a ∈ run, isBlank a = true) :
    settle run = settled run := by
  have whole := settle_run_append blanks (by simp : ∀ a ∈ ([] : List α).head?, isBlank a = false)
  rwa [List.append_nil, settle_nil, List.append_nil] at whole

theorem settled_lineFeed : settled ([ofChar '\n'] : List α) = [ofChar '\n'] :=
  settled_append_cons [] (by simp)

theorem settled_settled (run : List α) : settled (settled run) = settled run := by
  by_cases flat : ∀ a ∈ run, is '\n' a = false
  · rw [settled_of_forall_not flat, settled_of_forall_not flat]
  · obtain ⟨front, back, rfl, behind⟩ := exists_last flat
    rw [settled_append_cons front behind]
    split
    · exact settled_of_forall_not (by simp)
    · exact settled_lineFeed

/-- A settled text is settled. -/
theorem settle_settle (text : List α) : settle (settle text) = settle text := by
  induction text using (pattern (α := α)).induction with
  | nil => rw [settle_nil, settle_nil]
  | found text run rest found ih =>
      obtain ⟨-, blanks, stops, rfl⟩ := read_eq_some_iff.mp found
      have blanks' := (settled_respaced blanks).forall_isBlank blanks
      have stops' := (settle_respaced rest).inked_head stops
      rw [settle_run_append blanks stops, settle_run_append blanks' stops', settled_settled, ih]
  | kept a text refused ih =>
      have inked : isBlank a = false := by simpa [pattern, read] using refused
      rw [settle_cons inked, settle_cons inked, ih]

/-- Texts around a symbol that is no blank are settled one by one. -/
theorem settle_runwise : Runwise (settle (α := α)) where
  append_cons front _ inked text := settle_append_cons front inked text
  respaced := settle_respaced

end BlankRun

/-! ## Softened texts -/

namespace TextEdge

/-- A text as blanks, a core and blanks. -/
structure Inset (leading core trailing : List α) : Prop where
  leading_blank : ∀ a ∈ leading, isBlank a = true
  trailing_blank : ∀ a ∈ trailing, isBlank a = true
  inked_head : ∀ a ∈ core.head?, isBlank a = false
  inked_last : ∀ a ∈ core.getLast?, isBlank a = false
  /-- Where there is no core all blanks are leading ones. -/
  trailing_eq_nil : core = [] → trailing = []

theorem inset_text (text : List α) :
    Inset (text.takeWhile isBlank) ((text.dropWhile isBlank).rdropWhile isBlank)
      ((text.dropWhile isBlank).rtakeWhile isBlank) where
  leading_blank _ := List.mem_takeWhile_imp
  trailing_blank _ := List.mem_rtakeWhile_imp
  inked_head := by
    have dropped : Respaced ((text.dropWhile isBlank).rdropWhile isBlank)
        (text.dropWhile isBlank) :=
      Thinned.rdropWhile (fun _ blank => blank) _
    exact dropped.inked_head (inked_head_dropWhile text)
  inked_last := by
    rw [List.rdropWhile, List.getLast?_reverse]
    exact inked_head_dropWhile _
  trailing_eq_nil none := by
    have blanks := List.rdropWhile_eq_nil_iff.mp none
    rw [← dropWhile_eq_self (inked_head_dropWhile text), List.dropWhile_eq_nil_iff.mpr blanks]
    rfl

theorem forall_isBlank_space (run : List α) : ∀ a ∈ space run, isBlank a = true := by
  rw [space]
  split <;> simp [isBlank]

theorem space_space (run : List α) : space (space run) = space run := by
  cases run <;> rfl

variable {leading core trailing : List α}

namespace Inset

theorem inked_head_append (inset : Inset leading core trailing) :
    ∀ a ∈ (core ++ trailing).head?, isBlank a = false := by
  cases core with
  | nil => simp [inset.trailing_eq_nil rfl]
  | cons a core => exact inset.inked_head

/-- The blanks around a core become one space each. -/
theorem soften_eq (inset : Inset leading core trailing) :
    soften (leading ++ (core ++ trailing)) = space leading ++ (core ++ space trailing) := by
  have stops := inset.inked_head_append
  have taken : (leading ++ (core ++ trailing)).takeWhile isBlank = leading := by
    rw [List.takeWhile_append_of_pos inset.leading_blank, takeWhile_eq_nil stops, List.append_nil]
  have left : (leading ++ (core ++ trailing)).dropWhile isBlank = core ++ trailing := by
    rw [List.dropWhile_append_of_pos inset.leading_blank, dropWhile_eq_self stops]
  have blanks : ∀ a ∈ trailing.reverse, isBlank a = true := by simpa using inset.trailing_blank
  have last : ∀ a ∈ core.reverse.head?, isBlank a = false := by simpa using inset.inked_last
  have takenBack : (core ++ trailing).reverse.takeWhile isBlank = trailing.reverse := by
    rw [List.reverse_append, List.takeWhile_append_of_pos blanks, takeWhile_eq_nil last,
      List.append_nil]
  have leftBack : (core ++ trailing).reverse.dropWhile isBlank = core.reverse := by
    rw [List.reverse_append, List.dropWhile_append_of_pos blanks, dropWhile_eq_self last]
  simp only [soften, taken, left, takenBack, leftBack, List.reverse_reverse, space_reverse,
    List.append_assoc]

/-- One space each around a core are blanks around it. -/
theorem spaces (inset : Inset leading core trailing) :
    Inset (space leading) core (space trailing) where
  leading_blank := forall_isBlank_space leading
  trailing_blank := forall_isBlank_space trailing
  inked_head := inset.inked_head
  inked_last := inset.inked_last
  trailing_eq_nil none := by rw [inset.trailing_eq_nil none]; rfl

end Inset

/-- A softened text, part by part. -/
theorem soften_text (text : List α) :
    soften text = space (text.takeWhile isBlank) ++
      ((text.dropWhile isBlank).rdropWhile isBlank ++
        space ((text.dropWhile isBlank).rtakeWhile isBlank)) := by
  have parts := (inset_text text).soften_eq
  rwa [List.rdropWhile_append_rtakeWhile, List.takeWhile_append_dropWhile] at parts

/-- A softened text is soft. -/
theorem soften_soften (text : List α) : soften (soften text) = soften text := by
  rw [soften_text text, (inset_text text).spaces.soften_eq, space_space, space_space]

/-- A space is settled. -/
theorem settle_space (run : List α) : BlankRun.settle (space run) = space run := by
  have flat : ∀ a ∈ space run, is '\n' a = false := by
    rw [space]
    split <;> simp [is]
  rw [BlankRun.settle_of_blank (forall_isBlank_space run), BlankRun.settled_of_forall_not flat]

/-- Softening unsettles nothing. -/
theorem settle_soften {text : List α} (settled : BlankRun.settle text = text) :
    BlankRun.settle (soften text) = soften text := by
  have inset := (inset_text text).spaces
  have core : BlankRun.settle ((text.dropWhile isBlank).rdropWhile isBlank) =
      (text.dropWhile isBlank).rdropWhile isBlank := by
    rw [BlankRun.settle_runwise.rdropWhile, BlankRun.settle_runwise.dropWhile, settled]
  rw [soften_text, BlankRun.settle_run_append inset.leading_blank inset.inked_head_append,
    ← BlankRun.settle_of_blank inset.leading_blank, settle_space]
  congr 1
  generalize (text.dropWhile isBlank).rdropWhile isBlank = middle at inset core
  cases middle using List.reverseRecOn with
  | nil => exact settle_space _
  | append_singleton front a _ =>
      have inked : isBlank a = false := inset.inked_last a (by simp)
      rw [BlankRun.settle_append_cons front inked, BlankRun.settle_nil] at core
      rw [List.append_assoc, List.singleton_append, BlankRun.settle_append_cons front inked,
        settle_space, List.append_cancel_right core]

end TextEdge

/-! ## Polished passages -/

namespace Passage

/-- A settled text, without blanks at its back where a block follows. -/
def settleBefore (block : Bool) (passage : Passage α) : Passage α :=
  if block then passage.settle.dropBack isBlank else passage.settle

theorem settle_settleBefore (block : Bool) (passage : Passage α) :
    (passage.settleBefore block).settle = passage.settleBefore block := by
  have settled := BlankRun.settle_settle passage.symbols
  apply Passage.ext
  cases block with
  | false => exact settled
  | true =>
      change BlankRun.settle ((BlankRun.settle passage.symbols).rdropWhile isBlank) = _
      rw [BlankRun.settle_runwise.rdropWhile, settled]
      rfl

/-- A text that ends with no blank keeps its back when it is changed in its blanks only. -/
theorem dropBack_of_respaced {passage passage' : Passage α}
    (respaced : Respaced passage'.symbols (passage.dropBack isBlank).symbols) :
    passage'.dropBack isBlank = passage' := by
  have last : ∀ a ∈ (passage.dropBack isBlank).symbols.getLast?, isBlank a = false := by
    change ∀ a ∈ (passage.symbols.rdropWhile isBlank).getLast?, _
    rw [List.rdropWhile, List.getLast?_reverse]
    exact inked_head_dropWhile _
  exact Passage.ext (rdropWhile_eq_self (respaced.inked_last last))

theorem settleBefore_of_respaced {block : Bool} {passage passage' : Passage α}
    (settled : passage'.settle = passage')
    (respaced : Respaced passage'.symbols (passage.settleBefore block).symbols) :
    passage'.settleBefore block = passage' := by
  rw [settleBefore, settled]
  split
  next before =>
    rw [settleBefore, if_pos before] at respaced
    exact dropBack_of_respaced respaced
  next => rfl

theorem settleBefore_settleBefore (block : Bool) (passage : Passage α) :
    (passage.settleBefore block).settleBefore block = passage.settleBefore block :=
  settleBefore_of_respaced (passage.settle_settleBefore block) (Thinned.refl _)

/-- A text between two brackets, of which the second may be the tag of a block, when it
has been polished. -/
def polish (block : Bool) (passage : Passage α) : Passage α :=
  (passage.settleBefore block).soften

theorem polish_polish (block : Bool) (passage : Passage α) :
    (passage.polish block).polish block = passage.polish block := by
  have settled := congrArg symbols (passage.settle_settleBefore block)
  have unchanged : (passage.polish block).settleBefore block = passage.polish block :=
    settleBefore_of_respaced (Passage.ext (TextEdge.settle_soften settled))
      (TextEdge.soften_respaced _)
  rw [polish, unchanged]
  exact Passage.ext (TextEdge.soften_soften _)

end Passage

/-! ## Polished brackets -/

namespace Attributes

theorem settle_settle (attributes : Attributes) : attributes.settle.settle = attributes.settle := by
  simp [settle, BlankRun.settle_settle]

theorem settle_reflow (attributes : Attributes) :
    attributes.settle.reflow.settle = attributes.settle.reflow := by
  have lineFeed : BlankRun.settle ['\n'] = ['\n'] :=
    (BlankRun.settle_of_blank (by decide)).trans BlankRun.settled_lineFeed
  simp [settle, reflow, BlankRun.settle_settle, lineFeed]

end Attributes

namespace Bracket

theorem isBlock_settle (bracket : Bracket) : bracket.settle.isBlock = bracket.isBlock := by
  cases bracket with
  | tag written => cases written <;> rfl
  | condition test => rfl
  | endCondition => rfl

theorem isBlock_reflow (bracket : Bracket) : bracket.reflow.isBlock = bracket.isBlock := by
  cases bracket with
  | tag written =>
      cases written with
      | opening name => rfl
      | closing name => rfl
      | full name attributes =>
          rw [reflow, Tag.reflow]
          split <;> rfl
  | condition test => rfl
  | endCondition => rfl

theorem settle_settle (bracket : Bracket) : bracket.settle.settle = bracket.settle := by
  cases bracket with
  | tag written =>
      cases written with
      | opening name => rfl
      | closing name => rfl
      | full name attributes =>
          rw [settle, settle, Tag.settle, Tag.settle, attributes.settle_settle]
  | condition test => simp [settle, Prose.settle, Prose.shorten, BlankRun.settle_settle]
  | endCondition => rfl

theorem settle_reflow (bracket : Bracket) :
    bracket.settle.reflow.settle = bracket.settle.reflow := by
  cases bracket with
  | tag written =>
      cases written with
      | opening name => rfl
      | closing name => rfl
      | full name attributes =>
          by_cases letters : name.letters.all Char.isAlpha = true
          · simp [settle, Tag.settle, reflow, Tag.reflow, letters, attributes.settle_reflow]
          · simp [settle, Tag.settle, reflow, Tag.reflow, letters, attributes.settle_settle]
  | condition test => exact (condition test).settle_settle
  | endCondition => rfl

theorem reflow_reflow (bracket : Bracket) : bracket.reflow.reflow = bracket.reflow := by
  cases bracket with
  | tag written =>
      cases written with
      | opening name => rfl
      | closing name => rfl
      | full name attributes =>
          by_cases letters : name.letters.all Char.isAlpha = true
          · simp [reflow, Tag.reflow, letters, Attributes.reflow]
          · simp [reflow, Tag.reflow, letters]
  | condition test => rfl
  | endCondition => rfl

theorem settle_reflow_settle_reflow (bracket : Bracket) :
    bracket.settle.reflow.settle.reflow = bracket.settle.reflow := by
  rw [settle_reflow, reflow_reflow]

/-- Polishing changes no bracket into the tag of a block. -/
theorem isBlock_settle_reflow (bracket : Bracket) :
    bracket.settle.reflow.isBlock = bracket.isBlock := by
  rw [isBlock_reflow, isBlock_settle]

end Bracket

/-! ## Polished sheets -/

namespace Sheet

/-- A sheet with all steps of the whitespace contract taken but the first. -/
def polish (sheet : Sheet α) : Sheet α :=
  sheet.settle.moveUp.soften.reflow

/-- The part of a sheet behind a bracket, polished. -/
def polishInner (sheet : Sheet α) : Sheet α :=
  sheet.settle.moveUp.softenInner.reflow

/-- Polishing works text by text and bracket by bracket. -/
theorem polishInner_cons (passage : Passage α) (bracket : Bracket) (rest : Sheet α) :
    (cons passage bracket rest).polishInner =
      cons (passage.polish bracket.isBlock) bracket.settle.reflow rest.polishInner := by
  rw [← bracket.isBlock_settle]
  rfl

theorem polish_cons (passage : Passage α) (bracket : Bracket) (rest : Sheet α) :
    (cons passage bracket rest).polish =
      cons (passage.settleBefore bracket.isBlock) bracket.settle.reflow rest.polishInner := by
  rw [← bracket.isBlock_settle]
  rfl

theorem polishInner_polishInner (sheet : Sheet α) :
    sheet.polishInner.polishInner = sheet.polishInner := by
  induction sheet with
  | last passage => exact congrArg last (passage.settle_settleBefore false)
  | cons passage bracket rest ih =>
      rw [polishInner_cons, polishInner_cons, ih, bracket.settle_reflow_settle_reflow,
        bracket.isBlock_settle_reflow, Passage.polish_polish]

/-- A polished sheet is polished. -/
theorem polish_polish (sheet : Sheet α) : sheet.polish.polish = sheet.polish := by
  cases sheet with
  | last passage => exact congrArg last (passage.settle_settleBefore false)
  | cons passage bracket rest =>
      rw [polish_cons, polish_cons, rest.polishInner_polishInner,
        bracket.settle_reflow_settle_reflow, bracket.isBlock_settle_reflow,
        Passage.settleBefore_settleBefore]

/-- How a sheet is polished depends on its text only. -/
theorem text_polish (sheet : Sheet α) :
    sheet.polish.text =
      Attribute.reflow (TextEdge.collapse (BlockTag.moveUp (BlankRun.settle sheet.text))) := by
  rw [polish, ← Attribute.reflow_sheet, ← TextEdge.collapse_sheet, ← BlockTag.moveUp_sheet,
    ← settle_text]

/-- Polishing changes blanks only. -/
theorem polish_respaced (sheet : Sheet α) : Respaced sheet.polish.text sheet.text := by
  have settled := BlankRun.settle_respaced sheet.text
  have moved := (BlockTag.moveUp_respaced _).trans settled
  have softened := (TextEdge.collapse_respaced _).trans moved
  rw [text_polish]
  exact (Attribute.reflow_respaced _).trans softened

end Sheet

end HtmlMinifier
