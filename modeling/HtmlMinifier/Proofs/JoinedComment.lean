import HtmlMinifier.Proofs.TokenScan
import HtmlMinifier.Proofs.Unrest
import Mathlib.Data.List.Infix

/-!
# Comments that come together

Dropping a comment joins what stands before it to what stands behind it.  A mark `<`, `<!` or
`<!-` right before a comment may be the beginning of another mark `<!--` then, and what used to be
text becomes the content of a comment.  Stripping walks over a document once and does not come
back to such a place.

`Comment.Joins` follows the walk to the first place where a comment comes together, with what it
will hold and what will stand behind it.  Stripping once more changes nothing if and only if there
is no such place, or else the comment there and all further ones are conditions.
-/

namespace HtmlMinifier

open Alphabet

variable {α : Type} [Alphabet α]

namespace Reader

/-- Whether a phrase is read does not depend on what is behind a text that is long enough. -/
theorem phrase_append_eq_none {letters : List Char} {text rest : List α}
    (enough : letters.length ≤ text.length) (refused : phrase letters (text ++ rest) = none)
    (other : List α) : phrase letters (text ++ other) = none := by
  cases found : phrase letters (text ++ other) with
  | none => rfl
  | some pair =>
      obtain ⟨taken, more⟩ := pair
      have shape := (phrase_eq_some_iff.mp found).2
      have start : (spell letters).IsPrefix (text ++ other) := ⟨more, shape.symm⟩
      have enough' : (spell letters : List α).length ≤ text.length := by
        simpa [spell] using enough
      obtain ⟨behind, rfl⟩ :=
        List.prefix_of_prefix_length_le start (List.prefix_append text other) enough'
      have read : phrase letters (spell letters ++ behind ++ rest) =
          some (spell letters, behind ++ rest) :=
        phrase_eq_some_iff.mpr ⟨rfl, List.append_assoc _ _ _⟩
      rw [read] at refused
      contradiction

/-- A phrase is found at the same place with anything else behind it. -/
theorem upTo_phrase_append {letters : List Char} {text : List α} {split : Split α}
    (found : upTo (phrase letters) text = some split) (rest : List α) :
    upTo (phrase letters) (split.before ++ (spell letters ++ rest)) =
      some ⟨split.before, spell letters, rest⟩ := by
  induction text generalizing split with
  | nil =>
      cases read : phrase letters ([] : List α) with
      | none => simp [upTo_nil_of_none read] at found
      | some pair =>
          rw [upTo_of_some read, Option.some.injEq] at found
          rw [← found]
          exact upTo_of_some (phrase_eq_some_iff.mpr ⟨rfl, rfl⟩)
  | cons a text ih =>
      cases read : phrase letters (a :: text) with
      | some pair =>
          rw [upTo_of_some read, Option.some.injEq] at found
          rw [← found]
          exact upTo_of_some (phrase_eq_some_iff.mpr ⟨rfl, rfl⟩)
      | none =>
          rw [upTo_cons_of_none read, Option.map_eq_some_iff] at found
          obtain ⟨split, inner, rfl⟩ := found
          have enough : letters.length ≤ (a :: (split.before ++ spell letters)).length := by
            simp only [spell, List.length_cons, List.length_append, List.length_map]
            omega
          rw [append_of_upTo_phrase inner] at read
          have refused := phrase_append_eq_none enough read rest
          rw [List.cons_append, List.append_assoc] at refused
          rw [List.cons_append, upTo_cons_of_none refused, ih inner]
          rfl

end Reader

namespace Comment

variable {text rest content behind : List α}

/-- A comment stays one with anything else behind it. -/
theorem read_append (found : read text = some (content, rest)) (behind : List α) :
    read (spell Markup.commentOpen ++ content ++ spell Markup.commentClose ++ behind) =
      some (content, behind) := by
  obtain ⟨inside, split, -, closed, rfl, rfl⟩ := read_eq_some_iff.mp found
  have closed' := Reader.upTo_phrase_append closed behind
  refine read_eq_some_iff.mpr ⟨split.before ++ (spell Markup.commentClose ++ behind), _,
    Reader.after?_eq_some_iff.mpr ?_, closed', rfl, rfl⟩
  simp only [List.append_assoc]

/-- A comment begins with `<`. -/
theorem read_of_ne (a : α) (text : List α) (other : a ≠ ofChar '<') : read (a :: text) = none := by
  rw [read, Markup.commentOpen, Reader.after?_cons_of_ne '<' other]
  rfl

theorem strip_of_some (found : read text = some (content, rest)) :
    strip text = residue content ++ strip rest :=
  Pattern.replace_of_some found

theorem strip_cons_of_none {a : α} (refused : read (a :: text) = none) :
    strip (a :: text) = a :: strip text :=
  Pattern.replace_cons_of_none refused

theorem residue_of_isConditional (condition : isConditional content = true) :
    residue content = spell Markup.commentOpen ++ content ++ spell Markup.commentClose :=
  if_pos condition

theorem residue_of_plain (plain : isConditional content = false) : residue content = [] :=
  if_neg (Bool.eq_false_iff.mp plain)

/-- Where no comment is closed, stripping changes nothing. -/
theorem strip_of_unclosed (unclosed : Reader.upTo (Reader.phrase Markup.commentClose) text = none) :
    strip text = text := by
  apply Pattern.replace_of_refused
  intro suffix within
  cases found : pattern.read suffix with
  | none => rfl
  | some pair =>
      obtain ⟨content, rest⟩ := pair
      obtain ⟨inside, split, opened, closed, -⟩ := read_eq_some_iff.mp found
      have inner : inside.IsSuffix suffix :=
        ⟨spell Markup.commentOpen, (Reader.after?_eq_some_iff.mp opened).symm⟩
      rw [Reader.upTo_eq_none_of_suffix (inner.trans within) unclosed] at closed
      contradiction

/-- A comment and what is behind it stay if and only if the comment is a condition and what is
behind it stays. -/
theorem residue_append_strip_iff :
    residue content ++ strip rest =
        spell Markup.commentOpen ++ content ++ spell Markup.commentClose ++ rest ↔
      isConditional content = true ∧ strip rest = rest := by
  cases kind : isConditional content with
  | true => rw [residue_of_isConditional kind, List.append_cancel_left_eq, and_iff_right rfl]
  | false =>
      rw [residue_of_plain kind, List.nil_append]
      refine iff_of_false (fun same => ?_) (by simp)
      have shorter := (strip_sublist rest).length_le
      have lengths := congrArg List.length same
      simp only [List.length_append, spell, List.length_map, Markup.commentOpen,
        List.length_cons] at lengths
      omega

/-- Stripping changes nothing if and only if all comments are conditions. -/
theorem strip_eq_self_iff :
    strip text = text ↔ ∀ comment ∈ Piece.allFound (pattern.cut text),
      isConditional comment = true := by
  induction text using (pattern (α := α)).induction with
  | nil => simp [Piece.allFound]
  | kept a text refused ih =>
      rw [strip_cons_of_none refused, Pattern.cut_cons_of_none refused, Piece.allFound, ← ih,
        List.cons.injEq, and_iff_right rfl]
  | found text content rest found ih =>
      rw [Pattern.cut_of_some found, Piece.allFound, List.forall_mem_cons, ← ih,
        ← residue_append_strip_iff, ← append_of_read found, strip_of_some found]

/-! ## The first comment that comes together -/

/-- The first comment that comes together when a document is stripped, with its content and with
what stands behind it then. -/
inductive Joins : List α → List α → List α → Prop
  /-- A symbol that begins no comment begins one with what is left behind it. -/
  | here {a : α} {text content behind : List α} (refused : read (a :: text) = none)
      (joined : read (a :: strip text) = some (content, behind)) :
      Joins (a :: text) content behind
  | kept {a : α} {text content behind : List α} (refused : read (a :: text) = none)
      (apart : read (a :: strip text) = none) (further : Joins text content behind) :
      Joins (a :: text) content behind
  | found {text comment rest content behind : List α} (found : read text = some (comment, rest))
      (further : Joins rest content behind) : Joins text content behind

/-- Where no comment comes together, stripping leaves conditions only. -/
theorem strip_strip_of_not_joins (apart : ∀ content behind, ¬ Joins text content behind) :
    strip (strip text) = strip text := by
  induction text using (pattern (α := α)).induction with
  | nil => simp
  | kept a text refused ih =>
      have alone : read (a :: strip text) = none := by
        cases joined : read (a :: strip text) with
        | none => rfl
        | some pair => exact absurd (.here refused joined) (apart pair.1 pair.2)
      have further := ih fun content behind joins => apart _ _ (.kept refused alone joins)
      rw [strip_cons_of_none refused, strip_cons_of_none alone, further]
  | found text comment rest found ih =>
      have further := ih fun content behind joins => apart _ _ (.found found joins)
      rw [strip_of_some found]
      cases kind : isConditional comment with
      | true =>
          have again := read_append found (strip rest)
          rw [← residue_of_isConditional kind] at again
          rw [strip_of_some again, further]
      | false => rwa [residue_of_plain kind, List.nil_append]

/-- The first comment that comes together is the first one that stripping once more comes to
and that is none of the document. -/
theorem Joins.exists_front (joins : Joins text content behind) :
    ∃ front, strip text =
        front ++ (spell Markup.commentOpen ++ content ++ spell Markup.commentClose ++ behind) ∧
      strip (strip text) = front ++ (residue content ++ strip behind) := by
  induction joins with
  | here refused joined =>
      refine ⟨[], ?_, ?_⟩
      · rw [strip_cons_of_none refused, List.nil_append, ← append_of_read joined]
      · rw [strip_cons_of_none refused, strip_of_some joined, List.nil_append]
  | @kept a text content behind refused apart _ ih =>
      obtain ⟨front, once, twice⟩ := ih
      refine ⟨a :: front, ?_, ?_⟩
      · rw [strip_cons_of_none refused, once, List.cons_append]
      · rw [strip_cons_of_none refused, strip_cons_of_none apart, twice, List.cons_append]
  | @found text comment rest content behind found _ ih =>
      obtain ⟨front, once, twice⟩ := ih
      refine ⟨residue comment ++ front, ?_, ?_⟩
      · rw [strip_of_some found, once, ← List.append_assoc]
      · rw [strip_of_some found]
        cases kind : isConditional comment with
        | true =>
            have again := read_append found (strip rest)
            rw [← residue_of_isConditional kind] at again
            rw [strip_of_some again, twice, List.append_assoc]
        | false => rwa [residue_of_plain kind]

theorem Joins.strip_strip_eq_iff (joins : Joins text content behind) :
    strip (strip text) = strip text ↔
      ∀ comment ∈ content :: Piece.allFound (pattern.cut behind),
        isConditional comment = true := by
  obtain ⟨front, once, twice⟩ := joins.exists_front
  rw [twice, once, List.append_cancel_left_eq, residue_append_strip_iff, strip_eq_self_iff,
    List.forall_mem_cons]

/-- Stripping once more changes nothing if and only if no comment comes together, or else the
first one that does and all comments behind it are conditions. -/
theorem strip_strip_eq_iff_joins (text : List α) :
    strip (strip text) = strip text ↔
      ∀ content behind, Joins text content behind →
        ∀ comment ∈ content :: Piece.allFound (pattern.cut behind),
          isConditional comment = true := by
  constructor
  · intro settled content behind joins
    exact joins.strip_strip_eq_iff.mp settled
  · intro conditions
    by_cases apart : ∀ content behind, ¬ Joins text content behind
    · exact strip_strip_of_not_joins apart
    · simp only [not_forall, not_not] at apart
      obtain ⟨content, behind, joins⟩ := apart
      exact joins.strip_strip_eq_iff.mpr (conditions content behind joins)

/-- The marks of a comment may come together from both sides of another one. -/
theorem strip_strip_ne :
    strip "<<!-- a -->!-- b -->".toList = "<!-- b -->".toList ∧
      strip (strip "<<!-- a -->!-- b -->".toList) = [] := by
  decide +kernel

/-! ## Where comments come together -/

/-- A word at the front of what stripping leaves has been there before, or a part of it has with
a comment behind. -/
theorem isPrefix_or_of_isPrefix_strip {word : List Char}
    (start : (spell word).IsPrefix (strip text)) :
    (spell word).IsPrefix text ∨
      ∃ front back, word = front ++ back ∧ back ≠ [] ∧
        (spell (front ++ Markup.commentOpen)).IsPrefix text := by
  induction word generalizing text with
  | nil => exact .inl List.nil_prefix
  | cons c word ih =>
      cases text with
      | nil => simp at start
      | cons a text =>
          cases found : read (a :: text) with
          | some pair =>
              have opened : (spell Markup.commentOpen).IsPrefix (a :: text) := by
                rw [append_of_read found, List.append_assoc, List.append_assoc]
                exact List.prefix_append _ _
              exact .inr ⟨[], c :: word, rfl, List.cons_ne_nil c word, opened⟩
          | none =>
              rw [strip_cons_of_none found, spell_cons] at start
              obtain ⟨rfl, further⟩ := List.cons_prefix_cons.mp start
              rcases ih further with whole | ⟨front, back, rfl, nonempty, opened⟩
              · exact .inl (List.cons_prefix_cons.mpr ⟨rfl, whole⟩)
              · exact .inr ⟨c :: front, back, rfl, nonempty,
                  List.cons_prefix_cons.mpr ⟨rfl, opened⟩⟩

/-- A comment comes together only where a part of its mark stands right before another mark. -/
theorem Joins.exists_isInfix (joins : Joins text content behind) :
    ∃ part ∈ [['<'], ['<', '!'], ['<', '!', '-']],
      (spell (part ++ Markup.commentOpen)).IsInfix text := by
  induction joins with
  | @kept a text _ _ _ _ _ ih =>
      obtain ⟨part, listed, inside⟩ := ih
      exact ⟨part, listed, inside.trans (List.suffix_cons a text).isInfix⟩
  | found found _ ih =>
      obtain ⟨part, listed, inside⟩ := ih
      rw [append_of_read found]
      exact ⟨part, listed, inside.trans (List.suffix_append _ _).isInfix⟩
  | @here a text content behind refused joined =>
      have shape := append_of_read joined
      rw [Markup.commentOpen, spell_cons, List.append_assoc, List.append_assoc, List.cons_append,
        List.cons.injEq] at shape
      obtain ⟨rfl, left⟩ := shape
      rcases isPrefix_or_of_isPrefix_strip ⟨_, left.symm⟩ with
        ⟨inside, rfl⟩ | ⟨front, back, split, nonempty, opened⟩
      · -- A whole mark was refused because nothing closes it, so nothing behind it is dropped.
        have unclosed : Reader.upTo (Reader.phrase Markup.commentClose) inside = none := by
          cases closed : Reader.upTo (Reader.phrase Markup.commentClose) inside with
          | none => rfl
          | some split =>
              have found := read_eq_some_iff.mpr
                ⟨inside, split, Reader.after?_eq_some_iff.mpr rfl, closed, rfl, rfl⟩
              exact absurd (refused.symm.trans found) (by simp)
        have unopened : ofChar '<' ∉ (spell ['!', '-', '-'] : List α) := by
          rw [ofChar_mem_spell]
          decide
        have stays : strip (spell ['!', '-', '-'] ++ inside) = spell ['!', '-', '-'] ++ inside := by
          rw [strip, Pattern.replace_append_of_notMem read_of_ne unopened, ← strip,
            strip_of_unclosed unclosed]
        rw [stays, refused] at joined
        contradiction
      · have proper : front ∈ [[], ['!'], ['!', '-']] := by
          rcases front with _ | ⟨c, _ | ⟨d, _ | ⟨e, front⟩⟩⟩
          · simp
          · simp only [List.cons_append, List.cons.injEq] at split
            simp [← split.1]
          · simp only [List.cons_append, List.cons.injEq] at split
            simp [← split.1, ← split.2.1]
          · simp_all
        refine ⟨'<' :: front, ?_, (List.cons_prefix_cons.mpr ⟨rfl, opened⟩).isInfix⟩
        simpa using proper

/-- Where no part of a mark stands right before a mark, stripping leaves conditions only. -/
theorem strip_strip_of_not_isInfix
    (apart : ∀ part ∈ [['<'], ['<', '!'], ['<', '!', '-']],
      ¬ (spell (part ++ Markup.commentOpen)).IsInfix text) :
    strip (strip text) = strip text := by
  apply strip_strip_of_not_joins
  intro content behind joins
  obtain ⟨part, listed, inside⟩ := joins.exists_isInfix
  exact apart part listed inside

end Comment

end HtmlMinifier
