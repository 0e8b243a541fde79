import HtmlMinifier.Minification
import HtmlMinifier.Proofs.Seam

/-!
# Normal forms

The normal form of a document is made in two steps: the margins go, and every CR LF becomes
an LF.  CR and LF are both margins, so no pair is cut in two where a margin ends, and the two
steps may change places (`trim_joinLines`).  So how the lines of a document end does not
matter, as long as each of its CRs belongs to a line end.

Line ends are joined in one walk.  In CR CR LF the walk joins the last two, and the CR in front
then stands before an LF again; nothing comes back to it.  Where this happens between symbols
that stay, and only there, the normal form still holds a line end of two symbols and has a
normal form of its own.
-/

namespace HtmlMinifier

open Alphabet

namespace Margin

section

variable {α : Type} [Alphabet α]

/-! ## Trimmed texts -/

theorem trim_eq (text : List α) :
    trim text = (text.dropWhile isMargin).rdropWhile isMargin :=
  rfl

/-- A trimmed text begins with no margin. -/
theorem head?_trim (text : List α) : ∀ a ∈ (trim text).head?, isMargin a = false := by
  intro a first
  obtain ⟨rest, shape⟩ := List.head?_eq_some_iff.mp first
  obtain ⟨behind, whole⟩ := List.rdropWhile_prefix isMargin (text.dropWhile isMargin)
  rw [← trim_eq, shape, List.cons_append] at whole
  simpa [← whole] using List.head?_dropWhile_not isMargin text

/-- A trimmed text ends with no margin. -/
theorem getLast?_trim (text : List α) : ∀ a ∈ (trim text).getLast?, isMargin a = false := by
  intro a last
  have nonempty : trim text ≠ [] := by
    intro empty
    simp [empty] at last
  have stays := List.rdropWhile_last_not isMargin (text.dropWhile isMargin) nonempty
  rw [Option.mem_def, List.getLast?_eq_some_getLast nonempty, Option.some.injEq] at last
  rw [← last]
  exact Bool.eq_false_iff.mpr stays

/-- A text without margins at its ends is trimmed. -/
theorem trim_eq_self {text : List α} (front : ∀ a ∈ text.head?, isMargin a = false)
    (back : ∀ a ∈ text.getLast?, isMargin a = false) : trim text = text := by
  rw [trim_eq, dropWhile_eq_self front, rdropWhile_eq_self back]

theorem trim_trim (text : List α) : trim (trim text) = trim text :=
  trim_eq_self (head?_trim text) (getLast?_trim text)

/-- What is between two symbols that are no margins is not trimmed. -/
theorem trim_append_cons {a b : α} (stays : isMargin a = false) (stays' : isMargin b = false)
    (lead inner trail : List α) :
    trim (lead ++ a :: (inner ++ b :: trail)) =
      lead.dropWhile isMargin ++ a :: (inner ++ b :: trail.rdropWhile isMargin) := by
  have back := rdropWhile_append_cons stays' (lead.dropWhile isMargin ++ a :: inner) trail
  rw [trim_eq, dropWhile_append_cons stays]
  simpa using back

/-- A word that stands in a text between two symbols that are no margins. -/
def StandsInside (word text : List α) : Prop :=
  ∃ front back, text = front ++ word ++ back ∧
    (∃ a ∈ front, isMargin a = false) ∧ ∃ a ∈ back, isMargin a = false

/-- A word of margins that is left when a text is trimmed stands between two symbols that are
none: the trimmed text neither begins nor ends with one of its margins. -/
theorem StandsInside.of_isInfix_trim {word text : List α} (nonempty : word ≠ [])
    (margins : ∀ a ∈ word, isMargin a = true) (inside : word.IsInfix (trim text)) :
    StandsInside word text := by
  obtain ⟨front, back, shape⟩ := inside
  obtain ⟨lead, trail, whole⟩ := trim_isInfix text
  have first := head?_trim text
  have last := getLast?_trim text
  rw [← shape] at whole first last
  refine ⟨lead ++ front, back ++ trail, by simp [← whole], ?_, ?_⟩
  · cases front with
    | nil =>
        obtain ⟨a, others, rfl⟩ := List.exists_cons_of_ne_nil nonempty
        have stays := first a rfl
        rw [margins a List.mem_cons_self] at stays
        contradiction
    | cons a front => exact ⟨a, by simp, first a rfl⟩
  · cases back using List.reverseRecOn with
    | nil =>
        have stays := last (word.getLast nonempty)
          (by simp [List.getLast?_eq_some_getLast nonempty])
        rw [margins _ (List.getLast_mem nonempty)] at stays
        contradiction
    | append_singleton back a _ =>
        exact ⟨a, by simp, last a (by simp [← List.append_assoc])⟩

theorem isInfix_trim_iff {word : List α} (nonempty : word ≠ [])
    (margins : ∀ a ∈ word, isMargin a = true) (text : List α) :
    word.IsInfix (trim text) ↔ StandsInside word text := by
  constructor
  · exact StandsInside.of_isInfix_trim nonempty margins
  · rintro ⟨front, back, rfl, ⟨a, inFront, stays⟩, ⟨b, inBack, stays'⟩⟩
    obtain ⟨lead, front, rfl⟩ := List.append_of_mem inFront
    obtain ⟨back, trail, rfl⟩ := List.append_of_mem inBack
    have kept := trim_append_cons stays stays' lead (front ++ word ++ back) trail
    refine ⟨lead.dropWhile isMargin ++ a :: front, back ++ b :: trail.rdropWhile isMargin, ?_⟩
    simpa using kept.symm

/-! ## Joined line ends -/

/-- Line ends are joined within the margins and outside them by themselves. -/
theorem joinLines_changeOf : ChangeOf isMargin (joinLines (α := α)) where
  nil := Pattern.replace_nil _ _
  append_cons first a stays rest := by
    -- both halves of a line end are margins, so `a` is neither of them
    apply joinLines_append_other <;> (rintro rfl; simp [isMargin] at stays)
  forall_mem run margins a member := by
    rcases (joinLines_respaced run).mem_or_of_mem member with old | rfl | rfl
    · exact margins a old
    · simp [isMargin]
    · simp [isMargin]

/-- Margins may go before the line ends are joined or after that. -/
theorem trim_joinLines (text : List α) : trim (joinLines text) = joinLines (trim text) := by
  rw [trim_eq, trim_eq, joinLines_changeOf.rdropWhile, joinLines_changeOf.dropWhile]

theorem normalize_eq_trim (text : List α) : normalize text = trim (joinLines text) :=
  (trim_joinLines text).symm

/-- To join the line ends first is to normalize twice. -/
theorem normalize_joinLines (text : List α) :
    normalize (joinLines text) = normalize (normalize text) := by
  calc
    normalize (joinLines text) = joinLines (trim (joinLines text)) := rfl
    _ = joinLines (joinLines (trim (trim text))) := by rw [trim_joinLines, trim_trim]
    _ = joinLines (trim (joinLines (trim text))) := by rw [trim_joinLines]
    _ = normalize (normalize text) := rfl

/-- No line end is read where a text does not begin with one, and only there. -/
theorem read_lineEnd_eq_none_iff {text : List α} :
    lineEnd.read text = none ↔ ¬ (spell ['\r', '\n']).IsPrefix text := by
  constructor
  · rintro refused ⟨rest, rfl⟩
    have read : Reader.after? Markup.lineEnd (spell ['\r', '\n'] ++ rest) = some rest :=
      Reader.after?_eq_some_iff.mpr rfl
    have found : lineEnd.read (spell ['\r', '\n'] ++ rest) = some ((), rest) :=
      congrArg (Option.map _) read
    rw [refused] at found
    contradiction
  · intro other
    cases read : (lineEnd (α := α)).read text with
    | none => rfl
    | some pair => exact absurd ⟨pair.2, (Pattern.append_of_read_phrase read).symm⟩ other

theorem joinLines_lineEnd (text : List α) :
    joinLines (ofChar '\r' :: ofChar '\n' :: text) = ofChar '\n' :: joinLines text :=
  Pattern.replace_of_some (congrArg (Option.map _) (Reader.after?_eq_some_iff.mpr rfl))

theorem joinLines_cons {a : α} {text : List α}
    (other : ¬ (spell ['\r', '\n']).IsPrefix (a :: text)) :
    joinLines (a :: text) = a :: joinLines text :=
  Pattern.replace_cons_of_none (read_lineEnd_eq_none_iff.mpr other)

/-- Induction along the line ends of a text. -/
theorem lineEnd_induction {motive : List α → Prop} (nil : motive [])
    (pair : ∀ text, motive text → motive (ofChar '\r' :: ofChar '\n' :: text))
    (cons : ∀ a text, ¬ (spell ['\r', '\n']).IsPrefix (a :: text) → motive text →
      motive (a :: text)) (text : List α) : motive text := by
  induction text using (lineEnd (α := α)).induction with
  | nil => exact nil
  | found text found rest read ih =>
      rw [Pattern.append_of_read_phrase read]
      exact pair rest ih
  | kept a text refused ih => exact cons a text (read_lineEnd_eq_none_iff.mp refused) ih

/-- A text whose line ends are joined begins with a line feed where it did so before or began
with a line end. -/
theorem lineFeed_isPrefix_joinLines_iff (text : List α) :
    [ofChar '\n'].IsPrefix (joinLines text) ↔
      [ofChar '\n'].IsPrefix text ∨ (spell ['\r', '\n']).IsPrefix text := by
  induction text using lineEnd_induction with
  | nil => simp [joinLines]
  | pair text _ => simp [joinLines_lineEnd]
  | cons a text other _ =>
      rw [or_iff_left other, joinLines_cons other, List.cons_prefix_cons, List.cons_prefix_cons]
      simp

/-- A line end is left where one with another CR before it has been joined. -/
theorem isInfix_joinLines_iff (text : List α) :
    (spell ['\r', '\n']).IsInfix (joinLines text) ↔ (spell ['\r', '\r', '\n']).IsInfix text := by
  induction text using lineEnd_induction with
  | nil => simp [joinLines]
  | pair text ih =>
      rw [joinLines_lineEnd, List.infix_cons_iff, ih]
      simp [List.infix_cons_iff]
  | cons a text other ih =>
      -- a CR that is kept had no LF behind it, so one that stands there now has been joined
      have here : (spell ['\r', '\n']).IsPrefix (a :: joinLines text) ↔
          (spell ['\r', '\r', '\n']).IsPrefix (a :: text) := by
        have behind := lineFeed_isPrefix_joinLines_iff text
        simp only [spell_cons, spell_nil, List.cons_prefix_cons] at behind other ⊢
        grind
      rw [joinLines_cons other, List.infix_cons_iff, List.infix_cons_iff, ih, here]

/-- Only a text without line ends of two symbols stays as it is. -/
theorem joinLines_eq_self_iff (text : List α) :
    joinLines text = text ↔ ¬ (spell ['\r', '\n']).IsInfix text := by
  induction text using lineEnd_induction with
  | nil => simp [joinLines]
  | pair text _ =>
      have inside : (spell ['\r', '\n']).IsInfix (ofChar '\r' :: ofChar '\n' :: text) :=
        (List.prefix_append _ text).isInfix
      rw [joinLines_lineEnd, List.cons.injEq, ofChar_inj]
      exact iff_of_false (by simp) (not_not_intro inside)
  | cons a text other ih =>
      rw [joinLines_cons other, List.cons.injEq, ih, List.infix_cons_iff, not_or]
      exact ⟨fun same => ⟨other, same.2⟩, fun absent => ⟨rfl, absent.2⟩⟩

/-! ## Normal texts -/

/-- A text without margins at its ends in which every line ends in a single symbol. -/
structure Normal (text : List α) : Prop where
  front : ∀ a ∈ text.head?, isMargin a = false
  back : ∀ a ∈ text.getLast?, isMargin a = false
  single : ¬ (spell ['\r', '\n']).IsInfix text

/-- The normal texts are those that are normal forms of themselves. -/
theorem normalize_eq_self_iff (text : List α) : normalize text = text ↔ Normal text := by
  constructor
  · intro same
    have trimmed : trim text = text := by
      rw [← same, normalize_eq_trim, trim_trim]
    have joined : joinLines text = text := by
      have whole : joinLines (trim text) = text := same
      rwa [trimmed] at whole
    have front := head?_trim text
    have back := getLast?_trim text
    rw [trimmed] at front back
    exact ⟨front, back, (joinLines_eq_self_iff text).mp joined⟩
  · intro normal
    have trimmed := trim_eq_self normal.front normal.back
    have joined := (joinLines_eq_self_iff text).mpr normal.single
    calc
      normalize text = joinLines (trim text) := rfl
      _ = text := by rw [trimmed, joined]

/-- A line end is left in a normal form where one with another CR before it stands between
symbols that stay. -/
theorem isInfix_normalize_iff (text : List α) :
    (spell ['\r', '\n']).IsInfix (normalize text) ↔
      StandsInside (spell ['\r', '\r', '\n']) text := by
  have margins : ∀ a ∈ (spell ['\r', '\r', '\n'] : List α), isMargin a = true := by
    simp [isMargin]
  rw [← isInfix_trim_iff (by simp) margins]
  exact isInfix_joinLines_iff (trim text)

/-- A normal form neither begins nor ends with a margin. -/
theorem ends_normalize (text : List α) :
    (∀ a ∈ (normalize text).head?, isMargin a = false) ∧
      ∀ a ∈ (normalize text).getLast?, isMargin a = false := by
  rw [normalize_eq_trim]
  exact ⟨head?_trim (joinLines text), getLast?_trim (joinLines text)⟩

theorem normal_normalize_iff (text : List α) :
    Normal (normalize text) ↔ ¬ StandsInside (spell ['\r', '\r', '\n']) text := by
  obtain ⟨front, back⟩ := ends_normalize text
  rw [← isInfix_normalize_iff]
  constructor
  · exact Normal.single
  · exact Normal.mk front back

/-- A normal form has no margins at its ends.  It holds no line end of two symbols, and is its
own normal form, if and only if no line end with another CR before it stands between two
symbols that are no margins. -/
theorem normalize_normalize_eq_iff (text : List α) :
    (∀ a ∈ (normalize text).head?, isMargin a = false) ∧
      (∀ a ∈ (normalize text).getLast?, isMargin a = false) ∧
      (¬ (spell ['\r', '\n']).IsInfix (normalize text) ↔
        ¬ StandsInside (spell ['\r', '\r', '\n']) text) ∧
      (normalize (normalize text) = normalize text ↔
        ¬ StandsInside (spell ['\r', '\r', '\n']) text) := by
  obtain ⟨front, back⟩ := ends_normalize text
  have single := not_congr (isInfix_normalize_iff text)
  have again := (normalize_eq_self_iff (normalize text)).trans (normal_normalize_iff text)
  exact ⟨front, back, single, again⟩

end

/-- A line end with another CR before it is a line end of two symbols in the normal form, and
a single LF only when that is normalized again. -/
theorem normalize_normalize_ne :
    normalize ['a', '\r', '\r', '\n', 'b'] = ['a', '\r', '\n', 'b'] ∧
      ['\r', '\n'].IsInfix (normalize ['a', '\r', '\r', '\n', 'b']) ∧
      normalize (normalize ['a', '\r', '\r', '\n', 'b']) ≠
        normalize ['a', '\r', '\r', '\n', 'b'] := by
  decide +kernel

/-! ## Line ends of either kind -/

/-- A text of characters with every CR LF written as LF. -/
def withLineFeeds : List Char → List Char
  | '\r' :: '\n' :: text => '\n' :: withLineFeeds text
  | c :: text => c :: withLineFeeds text
  | [] => []

theorem joinLines_eq_withLineFeeds (text : List Char) : joinLines text = withLineFeeds text := by
  fun_induction withLineFeeds text with
  | case1 text ih => exact (joinLines_lineEnd text).trans (congrArg _ ih)
  | case2 c text other ih =>
      rw [joinLines_cons, ih]
      rintro ⟨rest, shape⟩
      obtain ⟨rfl, rfl⟩ := List.cons.inj shape
      exact other rest rfl rfl
  | case3 => exact Pattern.replace_nil _ _

/-- How the lines end does not matter to the normal form where every CR belongs to a line
end. -/
theorem normalize_withLineFeeds {text : List Char}
    (paired : ∀ i < text.length, text[i]? = some '\r' → text[i + 1]? = some '\n') :
    normalize (withLineFeeds text) = normalize text := by
  rw [← joinLines_eq_withLineFeeds, normalize_joinLines, normalize_eq_self_iff,
    normal_normalize_iff]
  rintro ⟨front, back, rfl, -, -⟩
  -- the first of the two CRs would belong to no line end
  have next := paired front.length (by simp) (by simp)
  simp at next

end Margin

/-- The result of a run is made from the normal form of a document. -/
theorem minifyWith_congr {sigil : Sigil} {document document' : String}
    (same : Margin.normalize document.toList = Margin.normalize document'.toList) :
    minifyWith sigil document = minifyWith sigil document' := by
  have normal : (Draft.start sigil document).apply .normalize =
      (Draft.start sigil document').apply .normalize := by
    simp only [Draft.apply, Draft.start, Stage.pieces, same]
  rw [minifyWith, minifyWith, Stage.order, Draft.run_cons, normal, ← Draft.run_cons]

/-- A document whose CRs all belong to line ends has the normal form, and with any sigil the
result, that it has with every CR LF written as LF. -/
theorem minifyWith_withLineFeeds (sigil : Sigil) {document : String}
    (paired : ∀ i < document.toList.length,
      document.toList[i]? = some '\r' → document.toList[i + 1]? = some '\n') :
    Margin.normalize document.toList =
        Margin.normalize (Margin.withLineFeeds document.toList) ∧
      minifyWith sigil document =
        minifyWith sigil (String.ofList (Margin.withLineFeeds document.toList)) := by
  have normal := (Margin.normalize_withLineFeeds paired).symm
  refine ⟨normal, minifyWith_congr ?_⟩
  rw [normal, String.toList_ofList]

/-- Line ends of both kinds, in a tag, in a text, in a script and at the end. -/
theorem minifyWith_withLineFeeds_mixed :
    (∀ i < "<p\r\nid=a>b\nc<script>\r\nd\n</script></p>\r\n".toList.length,
        "<p\r\nid=a>b\nc<script>\r\nd\n</script></p>\r\n".toList[i]? = some '\r' →
          "<p\r\nid=a>b\nc<script>\r\nd\n</script></p>\r\n".toList[i + 1]? = some '\n') ∧
      Margin.normalize "<p\r\nid=a>b\nc<script>\r\nd\n</script></p>\r\n".toList =
        Margin.normalize (Margin.withLineFeeds
          "<p\r\nid=a>b\nc<script>\r\nd\n</script></p>\r\n".toList) ∧
      minifyWith ⟨0⟩ "<p\r\nid=a>b\nc<script>\r\nd\n</script></p>\r\n" =
        minifyWith ⟨0⟩ (String.ofList (Margin.withLineFeeds
          "<p\r\nid=a>b\nc<script>\r\nd\n</script></p>\r\n".toList)) :=
  ⟨by decide +kernel, minifyWith_withLineFeeds ⟨0⟩ (by decide +kernel)⟩

end HtmlMinifier
