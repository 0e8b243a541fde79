import HtmlMinifier.Proofs.Polish
import Mathlib.Data.List.Chain

/-!
# Clean lines

Once the lines of a document are trimmed no line begins or ends with a blank.  The stages
behind that move tags of blocks, soften the edges of texts and put first attributes on lines
of their own; none of them leaves a blank at the end of a line.

Only the last one leaves a blank at the start of a line, in a tag that has blanks and no
attribute behind its name.  Of two blanks or more the last is taken for an attribute, and
stands on a line of its own afterwards.
-/

namespace HtmlMinifier

open Alphabet

variable {α : Type} [Alphabet α]

/-! ## Lines and neighbours -/

/-- The lines of a text, without their line feeds. -/
def linesOf (text : List α) : List (List α) :=
  text.splitOnP (is '\n')

/-- Whether a symbol may stand behind another one when no line begins with a blank. -/
def NotIndented (a b : α) : Prop :=
  is '\n' a = true → isBlank b = true → is '\n' b = true

/-- Whether a symbol may stand behind another one when no line ends with a blank. -/
def NotPadded (a b : α) : Prop :=
  is '\n' b = true → isBlank a = true → is '\n' a = true

/-- The first line begins as the text does. -/
theorem inked_first_line_iff {text line : List α} {lines : List (List α)}
    (parted : linesOf text = line :: lines) :
    (∀ a ∈ line.head?, isBlank a = false) ↔
      ∀ a ∈ text.head?, isBlank a = true → is '\n' a = true := by
  cases text with
  | nil =>
      rw [linesOf, List.splitOnP_nil, List.cons.injEq] at parted
      rw [← parted.1]
      simp
  | cons a text =>
      rw [linesOf, List.splitOnP_cons_eq_if_modifyHead] at parted
      split at parted
      next lineFeed =>
        rw [List.cons.injEq] at parted
        rw [← parted.1]
        simp [lineFeed]
      next within =>
        obtain ⟨first, others, shape⟩ :=
          List.exists_cons_of_ne_nil (List.splitOnP_ne_nil (is '\n') text)
        rw [shape, List.modifyHead_cons, List.cons.injEq] at parted
        rw [← parted.1]
        simp [within]

/-- No line but perhaps the first begins with a blank if and only if a line feed is followed
by no blank other than a line feed. -/
theorem inked_further_lines_iff (text : List α) :
    (∀ line ∈ (linesOf text).tail, ∀ a ∈ line.head?, isBlank a = false) ↔
      text.IsChain NotIndented := by
  induction text with
  | nil => simp [linesOf]
  | cons a text ih =>
      obtain ⟨first, others, shape⟩ :=
        List.exists_cons_of_ne_nil (List.splitOnP_ne_nil (is '\n') text)
      have behind : (linesOf text).tail = others := by rw [linesOf, shape, List.tail_cons]
      rw [behind] at ih
      rw [List.isChain_cons, ← ih, linesOf, List.splitOnP_cons_eq_if_modifyHead, shape]
      split
      next lineFeed =>
        rw [List.tail_cons, List.forall_mem_cons, inked_first_line_iff shape]
        simp [NotIndented, lineFeed]
      next within => simp [NotIndented, within]

/-- The first line is empty where nothing or a line feed stands at the front. -/
theorem is_lineFeed_of_empty_first {a : α} {text : List α} {lines : List (List α)}
    (parted : linesOf (a :: text) = [] :: lines) : is '\n' a = true := by
  rw [linesOf, List.splitOnP_cons_eq_if_modifyHead] at parted
  split at parted
  next lineFeed => exact lineFeed
  next within =>
    obtain ⟨first, others, shape⟩ :=
      List.exists_cons_of_ne_nil (List.splitOnP_ne_nil (is '\n') text)
    rw [shape, List.modifyHead_cons, List.cons.injEq] at parted
    exact absurd parted.1 (List.cons_ne_nil a first)

/-- No line ends with a blank where neither the text does nor a blank other than a line feed
stands in front of a line feed. -/
theorem inked_line_ends {text : List α} (chain : text.IsChain NotPadded)
    (last : ∀ a ∈ text.getLast?, isBlank a = false) :
    ∀ line ∈ linesOf text, ∀ a ∈ line.getLast?, isBlank a = false := by
  induction text with
  | nil => simp [linesOf]
  | cons a text ih =>
      rcases List.isChain_cons.mp chain with ⟨next, further⟩
      have behind : ∀ line ∈ linesOf text, ∀ b ∈ line.getLast?, isBlank b = false := by
        apply ih further
        intro b final
        apply last b
        rw [List.getLast?_cons, Option.mem_def.mp final]
        rfl
      rw [linesOf, List.splitOnP_cons_eq_if_modifyHead]
      split
      next => exact List.forall_mem_cons.mpr ⟨by simp, behind⟩
      next within =>
        obtain ⟨first, others, shape⟩ :=
          List.exists_cons_of_ne_nil (List.splitOnP_ne_nil (is '\n') text)
        rw [linesOf, shape] at behind
        rcases List.forall_mem_cons.mp behind with ⟨inFirst, inOthers⟩
        rw [shape, List.modifyHead_cons]
        refine List.forall_mem_cons.mpr ⟨?_, inOthers⟩
        cases first with
        | cons b first => rwa [List.getLast?_cons_cons]
        | nil =>
            rintro _ ⟨⟩
            cases text with
            | nil => exact last a rfl
            | cons b text =>
                have blank := next b rfl (is_lineFeed_of_empty_first shape)
                rw [Bool.eq_false_iff]
                exact fun isBlank => within (blank isBlank)

/-- Neighbours of which neither is a line feed next to a blank. -/
def Tidy (a b : α) : Prop :=
  isBlank a = true → isBlank b = true → is '\n' a = false ∧ is '\n' b = false

theorem Tidy.of_inked_left {a : α} (inked : isBlank a = false) (b : α) : Tidy a b := by
  intro blank
  rw [inked] at blank
  contradiction

theorem Tidy.of_inked_right (a : α) {b : α} (inked : isBlank b = false) : Tidy a b := by
  intro _ blank
  rw [inked] at blank
  contradiction

/-- A line feed is a blank. -/
theorem isBlank_of_is_lineFeed {a : α} (lineFeed : is '\n' a = true) : isBlank a = true := by
  rw [is_iff.mp lineFeed]
  simp [isBlank]

theorem Tidy.notIndented {a b : α} (tidy : Tidy a b) : NotIndented a b := by
  intro lineFeed blank
  have other := (tidy (isBlank_of_is_lineFeed lineFeed) blank).1
  rw [lineFeed] at other
  contradiction

theorem Tidy.notPadded {a b : α} (tidy : Tidy a b) : NotPadded a b := by
  intro lineFeed blank
  have other := (tidy blank (isBlank_of_is_lineFeed lineFeed)).2
  rw [lineFeed] at other
  contradiction

/-- Two tidy texts in a row are tidy where a symbol that is no blank stands at the seam. -/
theorem isChain_append_of_inked {first rest : List α} (front : first.IsChain Tidy)
    (back : rest.IsChain Tidy)
    (seam : (∀ a ∈ first.getLast?, isBlank a = false) ∨ ∀ a ∈ rest.head?, isBlank a = false) :
    (first ++ rest).IsChain Tidy := by
  refine List.isChain_append.mpr ⟨front, back, fun a last b first => ?_⟩
  rcases seam with before | behind
  · exact Tidy.of_inked_left (before a last) b
  · exact Tidy.of_inked_right a (behind b first)

/-! ## Trimmed lines -/

namespace BlankRun

theorem isChain_settled (run : List α) : (settled run).IsChain Tidy := by
  by_cases flat : ∀ a ∈ run, is '\n' a = false
  · rw [settled_of_forall_not flat]
    apply List.Pairwise.isChain
    apply List.pairwise_of_forall_mem_list
    intro a first b second _ _
    exact ⟨flat a first, flat b second⟩
  · rcases exists_last flat with ⟨front, back, rfl, behind⟩
    rw [settled_append_cons front behind]
    split
    · exact List.isChain_nil
    · exact List.isChain_singleton _

/-- A settled text is tidy. -/
theorem isChain_settle (text : List α) : (settle text).IsChain Tidy := by
  induction text using (pattern (α := α)).induction with
  | nil => simp
  | found text run rest found ih =>
      obtain ⟨-, blanks, stops, rfl⟩ := read_eq_some_iff.mp found
      rw [settle_run_append blanks stops]
      exact isChain_append_of_inked (isChain_settled run) ih
        (.inr ((settle_respaced rest).inked_head stops))
  | kept a text refused ih =>
      have inked : isBlank a = false := by simpa [pattern, read] using refused
      rw [settle_cons inked]
      exact isChain_append_of_inked (List.isChain_singleton a) ih (.inl (by simpa using inked))

end BlankRun

/-! ## Tags of blocks and the edges of text -/

namespace BlockTag

/-- In front of what is moved up nothing comes to stand but an angle bracket. -/
theorem head?_moveUp (text : List α) :
    ∀ a ∈ (moveUp text).head?, isBlank a = false ∨ a ∈ text.head? := by
  cases text with
  | nil => simp
  | cons b text =>
      cases found : pattern.read (b :: text) with
      | none =>
          rw [moveUp, Pattern.replace_cons_of_none found]
          rintro a ⟨⟩
          exact .inr rfl
      | some pair =>
          obtain ⟨taken, rest⟩ := pair
          have read : read (b :: text) = some (taken, rest) := found
          obtain ⟨_, _, _, tagged, _⟩ := exists_of_read read
          obtain ⟨behind, rfl⟩ := exists_eq_cons_of_tag tagged
          rw [moveUp, Pattern.replace_of_some found]
          rintro a ⟨⟩
          exact .inl (by simp [isBlank])

/-- A tidy text stays tidy when the tags of blocks move up. -/
theorem isChain_moveUp {text : List α} (tidy : text.IsChain Tidy) :
    (moveUp text).IsChain Tidy := by
  induction text using (pattern (α := α)).induction with
  | nil => simp
  | found text taken rest found ih =>
      obtain ⟨run, -, -, tagged, rfl⟩ := exists_of_read found
      obtain ⟨inner, rfl⟩ := exists_eq_append_of_tag tagged
      rw [List.append_assoc] at tidy
      have behind := (List.isChain_append.mp tidy).2.1
      rcases List.isChain_append.mp behind with ⟨inTag, further, -⟩
      rw [moveUp, Pattern.replace_of_some found, id]
      exact isChain_append_of_inked inTag (ih further) (.inl (by simp [isBlank]))
  | kept a text refused ih =>
      rcases List.isChain_cons.mp tidy with ⟨next, further⟩
      rw [moveUp, Pattern.replace_cons_of_none refused]
      refine List.isChain_cons.mpr ⟨fun b first => ?_, ih further⟩
      rcases head?_moveUp text b first with inked | old
      · exact Tidy.of_inked_right a inked
      · exact next b old

end BlockTag

namespace TextEdge

/-- A softened text is as tidy as it was. -/
theorem isChain_soften {text : List α} (tidy : text.IsChain Tidy) :
    (soften text).IsChain Tidy := by
  have inset := inset_text text
  have alone : ∀ run : List α, (space run).IsChain Tidy := by
    intro run
    rw [space]
    split
    · exact List.isChain_nil
    · exact List.isChain_singleton _
  have core : ((text.dropWhile isBlank).rdropWhile isBlank).IsChain Tidy := by
    apply tidy.infix
    exact (List.rdropWhile_prefix isBlank _).isInfix.trans (List.dropWhile_suffix isBlank).isInfix
  rw [soften_text]
  exact isChain_append_of_inked (alone _)
    (isChain_append_of_inked core (alone _) (.inl inset.inked_last))
    (.inr inset.spaces.inked_head_append)

/-- A text begins as before when texts between tags are softened. -/
theorem head?_collapse (text : List α) : (collapse text).head? = text.head? := by
  cases text with
  | nil => rw [collapse_nil]
  | cons b text =>
      cases found : pattern.read (b :: text) with
      | none => rw [collapse, Pattern.replace_cons_of_none found, List.head?_cons, List.head?_cons]
      | some pair =>
          obtain ⟨content, rest⟩ := pair
          rw [collapse, Pattern.replace_of_some found, append_of_read found]
          rfl

/-- A tidy text stays tidy when texts between tags are softened. -/
theorem isChain_collapse {text : List α} (tidy : text.IsChain Tidy) :
    (collapse text).IsChain Tidy := by
  induction text using (pattern (α := α)).induction with
  | nil => simp
  | found text content rest found ih =>
      rw [append_of_read found] at tidy
      rcases List.isChain_append.mp tidy with ⟨matched, further, -⟩
      have inside : content.IsChain Tidy := matched.infix ⟨[ofChar '>'], [ofChar '<'], by simp⟩
      have closed : (soften content ++ [ofChar '<']).IsChain Tidy :=
        isChain_append_of_inked (isChain_soften inside) (List.isChain_singleton _)
          (.inr (by simp [isBlank]))
      have written : (write content).IsChain Tidy :=
        List.isChain_cons.mpr ⟨fun b _ => Tidy.of_inked_left (by simp [isBlank]) b, closed⟩
      have last : (write content).getLast? = some (ofChar '<') := by
        rw [write, ← List.cons_append, List.getLast?_concat]
      rw [collapse, Pattern.replace_of_some found]
      exact isChain_append_of_inked written (ih further) (.inl (by simp [last, isBlank]))
  | kept a text refused ih =>
      rcases List.isChain_cons.mp tidy with ⟨next, further⟩
      rw [collapse, Pattern.replace_cons_of_none refused, ← collapse]
      exact List.isChain_cons.mpr ⟨head?_collapse text ▸ next, ih further⟩

end TextEdge

/-! ## The first attribute -/

namespace Attribute

/-- Whether a tag has no attribute: nothing but its `>` follows the last of its blanks. -/
def Vacant (tag : Attribute α) : Prop :=
  ∃ b, isBlank b = true ∧ tag.tail = [b, ofChar '>']

/-- No blank stands in the head of a tag. -/
theorem inked_head_of_read {text rest : List α} {tag : Attribute α}
    (found : read text = some (tag, rest)) : ∀ a ∈ tag.head, isBlank a = false := by
  obtain ⟨named, tail, -, -, -, rfl⟩ := read_eq_some_iff.mp found
  refine List.forall_mem_cons.mpr ⟨by simp [isBlank], fun a member => ?_⟩
  rw [Bool.eq_false_iff]
  intro blank
  obtain ⟨c, listed, rfl⟩ := exists_of_isBlank blank
  have apart : ∀ d ∈ [' ', '\t', '\n', '\x0b', '\x0c', '\r'],
      isNameSymbol (ofChar d : α) = false := by simp [isNameSymbol]
  have symbol : isNameSymbol (ofChar c : α) = true := List.mem_takeWhile_imp member
  rw [apart c listed] at symbol
  contradiction

/-- A text begins as before when first attributes move. -/
theorem head?_reflow (text : List α) : (reflow text).head? = text.head? := by
  cases text with
  | nil => rw [reflow_nil]
  | cons b text =>
      cases found : pattern.read (b :: text) with
      | none => rw [reflow, Pattern.replace_cons_of_none found, List.head?_cons, List.head?_cons]
      | some pair =>
          obtain ⟨tag, rest⟩ := pair
          obtain ⟨named, tail, opened, -, -, rfl⟩ := read_eq_some_iff.mp found
          rw [reflow, Pattern.replace_of_some found, Reader.after?_eq_some_iff.mp opened]
          rfl

/-- A tag is parted within the text behind it. -/
theorem splits : (pattern : Pattern α (Attribute α)).Splits := by
  intro text tag rest found
  have read : read text = some (tag, rest) := found
  obtain ⟨run, front, -, -, -, shape, -⟩ := exists_run_of_read read
  exact ⟨tag.head ++ (run ++ tag.tail), by rw [shape]; simp⟩

/-- Where first attributes move in a tidy text, only the line feeds that part tags get new
neighbours. -/
theorem isChain_reflow_iff {related : α → α → Prop} (lax : ∀ a b, Tidy a b → related a b)
    {text : List α} (tidy : text.IsChain Tidy) :
    (reflow text).IsChain related ↔
      ∀ tag, .found tag ∈ pattern.cut text → ∀ b ∈ tag.tail.head?, related (ofChar '\n') b := by
  induction text using (pattern (α := α)).induction with
  | nil => simp
  | found text tag rest found ih =>
      have read : read text = some (tag, rest) := found
      obtain ⟨run, front, -, -, ends, shape, -⟩ := exists_run_of_read read
      rw [shape] at tidy
      rcases List.isChain_append.mp tidy with ⟨inHead, behind, -⟩
      rcases List.isChain_append.mp (List.isChain_append.mp behind).2.1 with ⟨inTail, further, -⟩
      have written : (write tag).IsChain related ↔
          ∀ b ∈ tag.tail.head?, related (ofChar '\n') b := by
        rw [write, List.isChain_append, List.isChain_cons]
        constructor
        · rintro ⟨-, ⟨first, -⟩, -⟩
          exact first
        · intro first
          refine ⟨inHead.imp lax, ⟨first, inTail.imp lax⟩, fun a last b _ => lax a b ?_⟩
          exact Tidy.of_inked_left (inked_head_of_read read a (List.mem_of_getLast? last)) b
      have seam : ∀ a ∈ (write tag).getLast?, ∀ b ∈ (reflow rest).head?, related a b := by
        intro a last b _
        rw [write, ends, ← List.cons_append, ← List.append_assoc, List.getLast?_concat] at last
        obtain rfl := Option.mem_some_iff.mp last
        exact lax _ b (Tidy.of_inked_left (by simp [isBlank]) b)
      rw [reflow, Pattern.replace_of_some found, ← reflow, List.isChain_append, written, ih further,
        Pattern.cut_of_some found]
      simp only [List.mem_cons, Piece.found.injEq]
      constructor
      · rintro ⟨first, others, -⟩ other (rfl | member)
        · exact first
        · exact others other member
      · intro each
        exact ⟨each tag (.inl rfl), fun other member => each other (.inr member), seam⟩
  | kept a text refused ih =>
      rcases List.isChain_cons.mp tidy with ⟨next, further⟩
      have beside : ∀ b ∈ text.head?, related a b := fun b first => lax a b (next b first)
      rw [reflow, Pattern.replace_cons_of_none refused, ← reflow, List.isChain_cons, head?_reflow,
        ih further, Pattern.cut_cons_of_none refused]
      simp only [List.mem_cons, reduceCtorEq, false_or]
      exact and_iff_right beside

end Attribute

/-! ## All lines -/

/-- What becomes of a document once its regions have been set aside and its comments
dropped. -/
def collapsed (text : List α) : List α :=
  TextEdge.collapse (BlockTag.moveUp (Line.trim text))

theorem isChain_collapsed (text : List α) : (collapsed text).IsChain Tidy := by
  rw [collapsed, Line.trim_eq_settle]
  exact TextEdge.isChain_collapse (BlockTag.isChain_moveUp (BlankRun.isChain_settle _))

/-- No blank is left at an end of the document. -/
theorem inked_ends_trim (text : List α) :
    (∀ a ∈ (Line.trim text).head?, isBlank a = false) ∧
      ∀ a ∈ (Line.trim text).getLast?, isBlank a = false := by
  have inset := TextEdge.inset_text text
  have settled := BlankRun.settle_respaced ((text.dropWhile isBlank).rdropWhile isBlank)
  rw [Line.trim_eq_settle]
  exact ⟨settled.inked_head inset.inked_head, settled.inked_last inset.inked_last⟩

theorem reflow_collapsed_respaced (text : List α) :
    Respaced (Attribute.reflow (collapsed text)) (Line.trim text) :=
  (Attribute.reflow_respaced _).trans
    ((TextEdge.collapse_respaced _).trans (BlockTag.moveUp_respaced _))

/-- In a tidy text a tag begins a line with a blank if and only if it is vacant. -/
theorem Attribute.notIndented_iff {text : List α} (tidy : text.IsChain Tidy) {tag : Attribute α}
    (member : .found tag ∈ pattern.cut text) :
    (∀ b ∈ tag.tail.head?, NotIndented (ofChar '\n') b) ↔ ¬ tag.Vacant := by
  obtain ⟨suffix, rest, within, found⟩ := Pattern.exists_read_of_mem_cut splits member
  have read : read suffix = some (tag, rest) := found
  obtain ⟨run, front, nonempty, blanks, -, rfl, begins⟩ := exists_run_of_read read
  constructor
  · rintro first ⟨b, blank, bare⟩
    -- The blank stands behind another one, so it is no line feed.
    obtain ⟨others, a, rfl⟩ := List.eq_nil_or_concat' run |>.resolve_left nonempty
    have other : is '\n' b = false := by
      have near : [a, b].IsChain Tidy := by
        apply tidy.infix
        apply List.IsInfix.trans _ within.isInfix
        exact ⟨tag.head ++ others, ofChar '>' :: rest, by simp [bare]⟩
      exact ((List.isChain_pair.mp near) (blanks a (by simp)) blank).2
    have lineFeed := first b (by simp [bare]) (is_iff.mpr rfl) blank
    rw [other] at lineFeed
    contradiction
  · intro attributed b first
    exact (Tidy.of_inked_right _ (begins.resolve_left attributed b first)).notIndented

/-! ## The lines of a document -/

/-- No line of a document ends with a blank once first attributes have moved, and none begins
with one if and only if no tag is vacant. -/
theorem inked_lines_reflow_collapsed_iff (text : List α) :
    (∀ line ∈ linesOf (Attribute.reflow (collapsed text)),
        ∀ a ∈ line.getLast?, isBlank a = false) ∧
      ((∀ line ∈ linesOf (Attribute.reflow (collapsed text)),
          ∀ a ∈ line.head?, isBlank a = false) ↔
        ∀ tag, .found tag ∈ Attribute.pattern.cut (collapsed text) → ¬ tag.Vacant) := by
  have tidy := isChain_collapsed text
  have respaced := reflow_collapsed_respaced text
  have inked := inked_ends_trim text
  constructor
  · apply inked_line_ends
    · rw [Attribute.isChain_reflow_iff (fun _ _ => Tidy.notPadded) tidy]
      exact fun _ _ _ _ _ _ => is_iff.mpr rfl
    · exact respaced.inked_last inked.2
  · obtain ⟨first, others, parted⟩ := List.exists_cons_of_ne_nil
      (List.splitOnP_ne_nil (is '\n') (Attribute.reflow (collapsed text)))
    have further := inked_further_lines_iff (Attribute.reflow (collapsed text))
    have begins : ∀ a ∈ first.head?, isBlank a = false := by
      rw [inked_first_line_iff parted]
      intro a front blank
      rw [respaced.inked_head inked.1 a front] at blank
      contradiction
    rw [linesOf, parted, List.tail_cons,
      Attribute.isChain_reflow_iff (fun _ _ => Tidy.notIndented) tidy] at further
    rw [linesOf, parted, List.forall_mem_cons, further]
    constructor
    · rintro ⟨-, each⟩ tag member
      exact (Attribute.notIndented_iff tidy member).mp (each tag member)
    · intro each
      refine ⟨begins, fun tag member => ?_⟩
      exact (Attribute.notIndented_iff tidy member).mpr (each tag member)

/-- A tag with two blanks and no attribute leaves one of them at the start of a line. -/
theorem reflow_collapsed_indents :
    Attribute.reflow (collapsed "<a  >".toList) = "<a\n >".toList ∧
      ¬ ∀ line ∈ linesOf (Attribute.reflow (collapsed "<a  >".toList)),
        ∀ a ∈ line.head?, isBlank a = false := by
  have reflowed : Attribute.reflow (collapsed "<a  >".toList) = "<a\n >".toList := by
    decide +kernel
  have second : [' ', '>'] ∈ linesOf "<a\n >".toList := by decide +kernel
  constructor
  · exact reflowed
  · rw [reflowed]
    intro inked
    exact absurd (inked _ second ' ' rfl) (by decide)

end HtmlMinifier
