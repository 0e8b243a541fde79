import HtmlMinifier.Proofs.BlankRun
import HtmlMinifier.Proofs.Encoding
import HtmlMinifier.Proofs.StageThinning

/-!
# Where two texts meet

A reader that is put to two texts in a row reads the first one as if it stood alone,
provided that nothing it looks for reaches over the seam.  A phrase does not reach over
it when the symbol behind the seam is no letter of the phrase.  A pattern that reads
every end of the first text as if it stood alone cuts the two texts one by one.

No phrase reaches over an opaque symbol, and no line end over a symbol that is no blank.
The hyphens behind the content of a comment are a seam for elements: an element that ends
behind them has been left open before them.
-/

namespace HtmlMinifier

open Alphabet

/-- A symbol that does not occur in a text is found behind it. -/
theorem exists_of_append_eq_append_cons {α : Type} {a : α} {first rest front back : List α}
    (absent : a ∉ first) (same : first ++ rest = front ++ a :: back) :
    ∃ front', front = first ++ front' ∧ rest = front' ++ a :: back := by
  rcases List.append_eq_append_iff.mp same with ⟨front', shape, behind⟩ | ⟨middle, shape, behind⟩
  · exact ⟨front', shape, behind⟩
  · cases middle with
    | nil => exact ⟨[], by simpa using shape.symm, by simpa using behind.symm⟩
    | cons b middle =>
        rcases List.cons.inj behind with ⟨rfl, _⟩
        exact absurd (by simp [shape]) absent

/-- An end of two texts in a row is an end of the second one, or it is the second one
behind an end of the first. -/
theorem suffix_or_of_suffix_append {α : Type} {suffix first rest : List α}
    (within : suffix.IsSuffix (first ++ rest)) :
    suffix.IsSuffix rest ∨
      ∃ inside, inside ≠ [] ∧ inside.IsSuffix first ∧ suffix = inside ++ rest := by
  obtain ⟨front, shape⟩ := within
  rcases List.append_eq_append_iff.mp shape with ⟨inside, rfl, rfl⟩ | ⟨between, -, rfl⟩
  · cases inside with
    | nil => exact Or.inl List.suffix_rfl
    | cons a inside => exact Or.inr ⟨a :: inside, List.cons_ne_nil a inside, ⟨front, rfl⟩, rfl⟩
  · exact Or.inl ⟨between, rfl⟩

variable {α : Type}

namespace Reader

/-- A pair of texts with more behind the second. -/
def extend (rest : List α) (pair : List α × List α) : List α × List α :=
  (pair.1, pair.2 ++ rest)

/-- A cut of a text with more behind it. -/
def Split.extend (rest : List α) (split : Split α) : Split α :=
  { split with rest := split.rest ++ rest }

/-- A cut of a text with more in front of it. -/
def Split.prepend (first : List α) (split : Split α) : Split α :=
  { split with before := first ++ split.before }

/-- A word does not reach over a seam behind which none of its letters stands. -/
theorem word_append {same : Char → α → Bool} {letters : List Char} {rest : List α}
    (stops : ∀ a ∈ rest.head?, ∀ c ∈ letters, same c a = false) (text : List α) :
    word same letters (text ++ rest) = (word same letters text).map (extend rest) := by
  induction letters generalizing text with
  | nil => simp [extend]
  | cons c letters ih =>
      have tail := ih fun a first d member => stops a first d (List.mem_cons_of_mem c member)
      cases text with
      | nil =>
          cases rest with
          | nil => rfl
          | cons a rest => simp [word, stops a rfl c List.mem_cons_self]
      | cons a text =>
          rw [List.cons_append, word, word, tail]
          split
          · cases word same letters text <;> rfl
          · rfl

/-- A word that has begun before a seam does not reach over it when none of its other
letters stands behind. -/
theorem word_cons_append {same : Char → α → Bool} {c : Char} {letters : List Char}
    {rest : List α} (stops : ∀ a ∈ rest.head?, ∀ d ∈ letters, same d a = false) {text : List α}
    (nonempty : text ≠ []) :
    word same (c :: letters) (text ++ rest) =
      (word same (c :: letters) text).map (extend rest) := by
  cases text with
  | nil => contradiction
  | cons a text =>
      rw [List.cons_append, word, word, word_append stops]
      split
      · cases word same letters text <;> rfl
      · rfl

/-- The first place where a reader accepts is in the first text, or else in the
second one. -/
theorem upTo_append {reader : Reader α} {first rest : List α} (empty : reader [] = none)
    (seam : ∀ suffix, suffix ≠ [] → suffix.IsSuffix first →
      reader (suffix ++ rest) = (reader suffix).map (extend rest)) :
    upTo reader (first ++ rest) =
      ((upTo reader first).map (Split.extend rest)).or
        ((upTo reader rest).map (Split.prepend first)) := by
  induction first with
  | nil =>
      rw [upTo_nil_of_none empty, List.nil_append, Option.map_none, Option.none_or]
      cases upTo reader rest <;> rfl
  | cons a first ih =>
      have here := seam (a :: first) (List.cons_ne_nil a first) List.suffix_rfl
      have behind := ih fun suffix nonempty within =>
        seam suffix nonempty (within.trans (List.suffix_cons a first))
      cases read : reader (a :: first) with
      | some pair =>
          rw [read] at here
          rw [upTo_of_some read, upTo_of_some here]
          rfl
      | none =>
          rw [read, List.cons_append] at here
          rw [List.cons_append, upTo_cons_of_none here, upTo_cons_of_none read, behind]
          cases upTo reader first with
          | some split => rfl
          | none => cases upTo reader rest <;> rfl

/-- What is not found in a text is not found at its end. -/
theorem upTo_eq_none_of_suffix {reader : Reader α} {text rest : List α}
    (within : rest.IsSuffix text) (absent : upTo reader text = none) : upTo reader rest = none := by
  induction text with
  | nil => rwa [List.suffix_nil.mp within]
  | cons a text ih =>
      cases read : reader (a :: text) with
      | some pair => simp [upTo_of_some read] at absent
      | none =>
          rcases List.suffix_cons_iff.mp within with rfl | further
          · exact absent
          · rw [upTo_cons_of_none read, Option.map_eq_none_iff] at absent
            exact ih further absent

/-- What a cut leaves is an end of the text. -/
theorem suffix_of_upTo {reader : Reader α} (faithful : Faithful reader) {text : List α}
    {split : Split α} (found : upTo reader text = some split) : split.rest.IsSuffix text :=
  ⟨split.before ++ split.taken, append_of_upTo faithful found⟩

end Reader

namespace Pattern

variable {β : Type} {pattern : Pattern α β}

/-- What the pattern leaves of a text is an end of it. -/
def Splits (pattern : Pattern α β) : Prop :=
  ∀ ⦃text found rest⦄, pattern.read text = some (found, rest) → rest.IsSuffix text

/-- Two texts are cut one by one when every end of the first is read as if it stood
alone. -/
theorem cut_append (splits : pattern.Splits) {first rest : List α}
    (seam : ∀ suffix, suffix ≠ [] → suffix.IsSuffix first →
      pattern.read (suffix ++ rest) = (pattern.read suffix).map (Prod.map id (· ++ rest))) :
    pattern.cut (first ++ rest) = pattern.cut first ++ pattern.cut rest := by
  induction first using pattern.induction with
  | nil => simp
  | found first found rest' read ih =>
      have nonempty : first ≠ [] := by
        rintro rfl
        simp at read
      have here := seam first nonempty List.suffix_rfl
      rw [read] at here
      rw [cut_of_some here, cut_of_some read, List.cons_append, ← ih]
      · rfl
      · exact fun suffix nonempty within => seam suffix nonempty (within.trans (splits read))
  | kept a first refused ih =>
      have here := seam (a :: first) (List.cons_ne_nil a first) List.suffix_rfl
      rw [refused, List.cons_append] at here
      rw [List.cons_append, cut_cons_of_none here, cut_cons_of_none refused, List.cons_append,
        ih fun suffix nonempty within => seam suffix nonempty (within.trans (List.suffix_cons a _))]

/-- A match in the pieces of a text is read at some place of the text. -/
theorem exists_read_of_mem_cut (splits : pattern.Splits) {text : List α} {found : β}
    (member : .found found ∈ pattern.cut text) :
    ∃ suffix rest, suffix.IsSuffix text ∧ pattern.read suffix = some (found, rest) := by
  induction text using pattern.induction with
  | nil => simp at member
  | found text found' rest read ih =>
      rw [cut_of_some read, List.mem_cons, Piece.found.injEq] at member
      rcases member with rfl | further
      · exact ⟨text, rest, List.suffix_rfl, read⟩
      · obtain ⟨suffix, rest', within, read'⟩ := ih further
        exact ⟨suffix, rest', within.trans (splits read), read'⟩
  | kept a text refused ih =>
      rw [cut_cons_of_none refused, List.mem_cons] at member
      obtain ⟨suffix, rest, within, read⟩ := ih (member.resolve_left (by simp))
      exact ⟨suffix, rest, within.trans (List.suffix_cons a text), read⟩

/-- Pieces cover a text one by one.  A match covers any text, a symbol that is kept covers
itself. -/
inductive Covers : List (Piece α β) → List α → Prop
  | nil : Covers [] []
  | found {pieces text} (found : β) (matched : List α) (rest : Covers pieces text) :
      Covers (.found found :: pieces) (matched ++ text)
  | kept {pieces text} (a : α) (rest : Covers pieces text) : Covers (.kept a :: pieces) (a :: text)

namespace Covers

variable {pieces : List (Piece α β)} {text word : List α} {view : Piece α β → α}

/-- A word at the front of the pieces stands at the front of the text, when no match is
written with its letters. -/
theorem isPrefix (covers : Covers pieces text) (keeps : ∀ a, view (.kept a) = a)
    (foreign : ∀ b, view (.found b) ∉ word) (start : word.IsPrefix (pieces.map view)) :
    word.IsPrefix text := by
  induction covers generalizing word with
  | nil => exact start
  | found found matched rest ih =>
      cases word with
      | nil => exact List.nil_prefix
      | cons b word =>
          have same := (List.cons_prefix_cons.mp start).1
          exact absurd (same ▸ List.mem_cons_self) (foreign found)
  | kept a rest ih =>
      cases word with
      | nil => exact List.nil_prefix
      | cons b word =>
          obtain ⟨same, further⟩ := List.cons_prefix_cons.mp start
          have foreign' : ∀ d, view (.found d) ∉ word :=
            fun d member => foreign d (List.mem_cons_of_mem b member)
          exact List.cons_prefix_cons.mpr ⟨same.trans (keeps a), ih foreign' further⟩

/-- Such a word within the pieces stands within the text. -/
theorem isInfix (covers : Covers pieces text) (keeps : ∀ a, view (.kept a) = a)
    (foreign : ∀ b, view (.found b) ∉ word) (inside : word.IsInfix (pieces.map view)) :
    word.IsInfix text := by
  induction covers with
  | nil => exact inside
  | found found matched rest ih =>
      rcases List.infix_cons_iff.mp inside with start | further
      · exact ((rest.found found matched).isPrefix keeps foreign start).isInfix
      · exact (ih further).trans (List.suffix_append matched _).isInfix
  | kept a rest ih =>
      rcases List.infix_cons_iff.mp inside with start | further
      · exact ((rest.kept a).isPrefix keeps foreign start).isInfix
      · exact (ih further).trans (List.suffix_cons a _).isInfix

end Covers

/-- Where the pieces of a text are parted, the text can be parted. -/
theorem exists_of_cut_eq_append (splits : pattern.Splits) {text : List α}
    {first second : List (Piece α β)} (parted : pattern.cut text = first ++ second) :
    ∃ front back, text = front ++ back ∧ Covers first front ∧ pattern.cut back = second := by
  induction text using pattern.induction generalizing first with
  | nil =>
      rw [cut_nil] at parted
      obtain ⟨rfl, rfl⟩ := List.append_eq_nil_iff.mp parted.symm
      exact ⟨[], [], rfl, .nil, cut_nil pattern⟩
  | found text found rest read ih =>
      cases first with
      | nil => exact ⟨[], text, rfl, .nil, parted⟩
      | cons piece first =>
          rw [cut_of_some read] at parted
          obtain ⟨rfl, others⟩ := List.cons.inj parted
          obtain ⟨front, back, rfl, covers, behind⟩ := ih others
          obtain ⟨matched, rfl⟩ := splits read
          exact ⟨matched ++ front, back, (List.append_assoc _ _ _).symm,
            covers.found found matched, behind⟩
  | kept a text refused ih =>
      cases first with
      | nil => exact ⟨[], a :: text, rfl, .nil, parted⟩
      | cons piece first =>
          rw [cut_cons_of_none refused] at parted
          obtain ⟨rfl, others⟩ := List.cons.inj parted
          obtain ⟨front, back, rfl, covers, behind⟩ := ih others
          exact ⟨a :: front, back, rfl, covers.kept a, behind⟩

/-- A word that stands at the front of a cut text has stood at the front of the text. -/
theorem isPrefix_of_isPrefix_cut (splits : pattern.Splits) {view : Piece α β → α}
    (keeps : ∀ a, view (.kept a) = a) {word : List α} (foreign : ∀ b, view (.found b) ∉ word)
    {text : List α} (start : word.IsPrefix ((pattern.cut text).map view)) : word.IsPrefix text := by
  obtain ⟨front, back, rfl, covers, -⟩ :=
    exists_of_cut_eq_append splits (List.append_nil (pattern.cut text)).symm
  exact (covers.isPrefix keeps foreign start).trans (List.prefix_append front back)

/-- So a word that stands in a cut text has stood in the text. -/
theorem isInfix_of_isInfix_cut (splits : pattern.Splits) {view : Piece α β → α}
    (keeps : ∀ a, view (.kept a) = a) {word : List α} (foreign : ∀ b, view (.found b) ∉ word)
    {text : List α} (inside : word.IsInfix ((pattern.cut text).map view)) : word.IsInfix text := by
  obtain ⟨front, back, rfl, covers, -⟩ :=
    exists_of_cut_eq_append splits (List.append_nil (pattern.cut text)).symm
  exact (covers.isInfix keeps foreign inside).trans (List.prefix_append front back).isInfix

end Pattern

/-- A phrase occurs where it stands within the text. -/
theorem Reader.occurs_iff_isInfix {word text : List Char} :
    occurs word text = true ↔ word.IsInfix text := by
  rw [occurs]
  constructor
  · intro found
    obtain ⟨split, found⟩ := Option.isSome_iff_exists.mp found
    have whole := append_of_upTo_phrase found
    rw [spell_char] at whole
    exact ⟨_, _, whole.symm⟩
  · intro inside
    rw [Option.isSome_iff_ne_none]
    intro absent
    obtain ⟨front, back, rfl⟩ := inside
    have here : phrase word (word ++ back) = some (word, back) :=
      phrase_eq_some_iff.mpr ⟨(spell_char word).symm, by rw [spell_char]⟩
    have within : (word ++ back).IsSuffix (front ++ word ++ back) := by
      rw [List.append_assoc]
      exact List.suffix_append _ _
    have nowhere := upTo_eq_none_of_suffix within absent
    rw [upTo_of_some here] at nowhere
    contradiction

/-! ## Opaque symbols -/

section Opaque

variable [Alphabet α] {a : α}

namespace Reader

/-- A phrase does not reach over an opaque symbol. -/
theorem phrase_append_sealed (sealed : char? a = none) (letters : List Char)
    (text rest : List α) :
    phrase letters (text ++ a :: rest) = (phrase letters text).map (extend (a :: rest)) := by
  apply word_append
  rintro _ ⟨⟩ c _
  exact satisfies_of_char?_eq_none sealed _

theorem after?_append_sealed (sealed : char? a = none) (letters : List Char)
    (text rest : List α) :
    after? letters (text ++ a :: rest) = (after? letters text).map (· ++ a :: rest) := by
  rw [after?, phrase_append_sealed sealed, after?]
  cases phrase letters text <;> rfl

/-- A phrase stands in front of an opaque symbol or behind it. -/
theorem upTo_phrase_append_sealed (sealed : char? a = none) {letters : List Char}
    (nonempty : letters ≠ []) (first rest : List α) :
    upTo (phrase letters) (first ++ a :: rest) =
      ((upTo (phrase letters) first).map (Split.extend (a :: rest))).or
        ((upTo (phrase letters) (a :: rest)).map (Split.prepend first)) := by
  apply upTo_append
  · cases letters with
    | nil => contradiction
    | cons c letters => rfl
  · intro suffix _ _
    exact phrase_append_sealed sealed letters suffix rest

end Reader

end Opaque

/-! ## Line ends -/

namespace Margin

variable [Alphabet α]

theorem lineEnd_splits : (lineEnd (α := α)).Splits := by
  intro text found rest read
  exact ⟨_, (Pattern.append_of_read_phrase read).symm⟩

/-- A text with every CR LF written as LF. -/
def joinLines (text : List α) : List α :=
  lineEnd.replace (fun _ => [ofChar '\n']) text

/-- A piece of a text whose line ends are joined. -/
def ofLineEnd : Piece α Unit → α
  | .kept a => a
  | .found () => ofChar '\n'

theorem joinLines_eq_map (text : List α) : joinLines text = (lineEnd.cut text).map ofLineEnd := by
  rw [joinLines, Pattern.replace, List.map_eq_flatMap]
  congr 1
  funext piece
  cases piece <;> rfl

/-- A line end does not reach over a symbol that is no line feed. -/
theorem joinLines_append_cons {a : α} (other : a ≠ ofChar '\n') (first rest : List α) :
    joinLines (first ++ a :: rest) = joinLines first ++ joinLines (a :: rest) := by
  have stops : is '\n' a = false := by
    rw [Bool.eq_false_iff, ne_eq, is_iff]
    exact other
  rw [joinLines, Pattern.replace, Pattern.cut_append lineEnd_splits, List.flatMap_append]
  · rfl
  · intro suffix nonempty _
    have seam : Reader.phrase Markup.lineEnd (suffix ++ a :: rest) =
        (Reader.phrase Markup.lineEnd suffix).map (Reader.extend (a :: rest)) :=
      Reader.word_cons_append (by rintro _ ⟨⟩; simp [stops]) nonempty
    simp only [lineEnd, Pattern.phrase, Reader.after?, seam]
    cases Reader.phrase Markup.lineEnd suffix <;> rfl

theorem joinLines_append_of_notMem {first : List α} (absent : ofChar '\r' ∉ first)
    (rest : List α) : joinLines (first ++ rest) = first ++ joinLines rest :=
  Pattern.replace_append_of_notMem read_lineEnd_of_ne absent rest

/-- A word without line feeds has stood in a text before its lines are joined. -/
theorem isInfix_of_isInfix_joinLines {word text : List α} (flat : ofChar '\n' ∉ word)
    (inside : word.IsInfix (joinLines text)) : word.IsInfix text := by
  rw [joinLines_eq_map] at inside
  exact Pattern.isInfix_of_isInfix_cut lineEnd_splits (fun _ => rfl) (fun _ => flat) inside

/-- Joining line ends drops blanks only. -/
theorem joinLines_respaced (text : List α) : Respaced (joinLines text) text := by
  have lineFeed : Respaced [ofChar '\n'] (spell Markup.lineEnd : List α) :=
    Thinned.drop (by simp [isBlank]) (Thinned.refl _)
  exact Pattern.thinned_phrase_replace (by decide) lineFeed text

/-- A symbol that belongs to no line end parts the texts around it. -/
theorem joinLines_append_other {a : α} (noFeed : a ≠ ofChar '\n') (noReturn : a ≠ ofChar '\r')
    (first rest : List α) :
    joinLines (first ++ a :: rest) = joinLines first ++ a :: joinLines rest := by
  rw [joinLines_append_cons noFeed, joinLines, joinLines, joinLines,
    Pattern.replace_cons_of_none (read_lineEnd_of_ne a rest noReturn)]

/-- Texts around a symbol that is no blank are joined one by one. -/
theorem joinLines_runwise : Runwise (joinLines (α := α)) where
  append_cons first a inked rest := by
    apply joinLines_append_other <;> (rintro rfl; simp [isBlank] at inked)
  respaced := joinLines_respaced

end Margin

/-! ## What is opened -/

section Opening

/-- What is an angle bracket in lower case is one. -/
theorem exists_of_map_toLower_angle {written letters : List Char}
    (same : written.map Char.toLower = ('<' :: letters).map Char.toLower) :
    ∃ others, written = '<' :: others := by
  cases written with
  | nil => simp at same
  | cons c others =>
      obtain rfl : c = '<' := eq_of_toLower_eq (by decide) (List.cons.inj same).1
      exact ⟨others, rfl⟩

variable [Alphabet α]

namespace Reader

/-- What begins with an angle bracket begins at no other symbol, whatever the case. -/
theorem phraseAnyCase_angle_of_ne {a : α} (other : a ≠ ofChar '<') (letters : List Char)
    (text : List α) : phraseAnyCase ('<' :: letters) (a :: text) = none := by
  have angle : isAnyCase '<' a = false := by
    rw [Bool.eq_false_iff, ne_eq, isAnyCase, satisfies_iff]
    rintro ⟨c, rfl, lower⟩
    exact other (congrArg ofChar (eq_of_toLower_eq (by decide) (eq_of_beq lower)))
  simp [phraseAnyCase, word, angle]

/-- What begins with an angle bracket is looked for behind a text without one. -/
theorem upTo_angle_append {letters : List Char} {front : List α} (absent : ofChar '<' ∉ front)
    (rest : List α) :
    upTo (phraseAnyCase ('<' :: letters)) (front ++ rest) =
      (upTo (phraseAnyCase ('<' :: letters)) rest).map (Split.prepend front) := by
  induction front with
  | nil =>
      rw [List.nil_append]
      cases upTo (phraseAnyCase ('<' :: letters)) rest <;> rfl
  | cons a front ih =>
      rw [List.mem_cons, not_or] at absent
      have refused := phraseAnyCase_angle_of_ne (Ne.symm absent.1) letters (front ++ rest)
      rw [List.cons_append, upTo_cons_of_none refused, ih absent.2, Option.map_map]
      rfl

end Reader

namespace Element

/-- Whether an element of the given name is opened at the front of a text, with blanks
before it. -/
def opens (name : List Char) (text : List α) : Bool :=
  (Reader.name (Markup.openTag name) (text.dropWhile isBlank)).isSome

/-- An element is opened where its name follows an angle bracket. -/
theorem not_opens_of_name {name : List Char} {text : List α}
    (plain : ∀ rest, text.dropWhile isBlank = ofChar '<' :: rest → Reader.name name rest = none) :
    opens name text = false := by
  rw [opens, Option.isSome_eq_false_iff, Option.isNone_iff_eq_none]
  cases read : Reader.name (Markup.openTag name) (text.dropWhile isBlank) with
  | none => rfl
  | some pair =>
      obtain ⟨any, ends⟩ := Reader.name_eq_some_iff.mp read
      obtain ⟨written, same, _, shape⟩ := Reader.phraseAnyCase_eq_some_iff.mp any
      obtain ⟨letters, rfl⟩ := exists_of_map_toLower_angle same
      have named : Reader.name name (spell letters ++ pair.2) = some (spell letters, pair.2) :=
        Reader.name_eq_some_iff.mpr ⟨Reader.phraseAnyCase_eq_some_iff.mpr
          ⟨letters, (List.cons.inj same).2, rfl, rfl⟩, ends⟩
      have refused := plain _ shape
      change Reader.name name (spell letters ++ pair.2) = none at refused
      rw [refused] at named
      contradiction

/-- An element is opened by an angle bracket. -/
theorem not_opens_of_ne (name : List Char) {a : α} (inked : isBlank a = false)
    (other : a ≠ ofChar '<') (text : List α) : opens name (a :: text) = false := by
  apply not_opens_of_name
  intro rest front
  rw [List.dropWhile_cons_of_neg (by simp [inked])] at front
  exact absurd (List.cons.inj front).1 other

end Element

/-- Where no element is opened, no region is read. -/
theorem Region.read_of_not_opens {region : Region} {text : List α}
    (closed : Element.opens region.name text = false) : region.pattern.read text = none := by
  rw [Element.opens, Option.isSome_eq_false_iff, Option.isNone_iff_eq_none] at closed
  simp [read_pattern, Element.read, closed]

theorem Region.splits (region : Region) : (region.pattern (α := α)).Splits := by
  intro text content rest found
  obtain ⟨before, element, behind, -, -, shape, -⟩ := exists_of_read found
  exact ⟨_, shape.symm⟩

/-- Blanks before a region do not matter. -/
theorem Region.read_dropWhile (region : Region) (text : List α) :
    region.pattern.read (text.dropWhile isBlank) = region.pattern.read text := by
  rw [read_pattern, read_pattern, Element.read, Element.read, List.dropWhile_idempotent]

end Opening

/-! ## Elements as they are written -/

section Written

variable [Alphabet α]

namespace Reader

/-- A text is cut at the first place where a character stands. -/
theorem upTo_append_cons {c : Char} {front : List α} (absent : ofChar c ∉ front) (rest : List α) :
    upTo (phrase [c]) (front ++ ofChar c :: rest) = some ⟨front, [ofChar c], rest⟩ := by
  induction front with
  | nil => exact upTo_of_some (phrase_eq_some_iff.mpr ⟨rfl, rfl⟩)
  | cons a front ih =>
      have refused : phrase [c] (a :: (front ++ ofChar c :: rest)) = none := by
        have other : is c a = false := by
          rw [Bool.eq_false_iff, ne_eq, is_iff]
          rintro rfl
          exact absent List.mem_cons_self
        simp [phrase, word, other]
      rw [List.cons_append, upTo_cons_of_none refused,
        ih fun member => absent (List.mem_cons_of_mem a member)]
      rfl

/-- In front of the place where a character is found it does not stand. -/
theorem upTo_singleton_eq_some_iff {c : Char} {text : List α} {split : Split α} :
    upTo (phrase [c]) text = some split ↔
      ofChar c ∉ split.before ∧ split.taken = [ofChar c] ∧
        text = split.before ++ ofChar c :: split.rest := by
  constructor
  · intro found
    have member : ofChar c ∈ text := by
      rw [append_of_upTo_phrase found]
      simp
    obtain ⟨front, rest, rfl, absent⟩ := List.eq_append_cons_of_mem member
    rw [upTo_append_cons absent, Option.some.injEq] at found
    rw [← found]
    exact ⟨absent, rfl, rfl⟩
  · obtain ⟨before, taken, rest⟩ := split
    rintro ⟨absent, rfl, rfl⟩
    exact upTo_append_cons absent rest

theorem upTo_phrase_eq_none {letters : List Char} {text : List α}
    (absent : ¬ (spell letters).IsInfix text) : upTo (phrase letters) text = none := by
  cases found : upTo (phrase letters) text with
  | none => rfl
  | some split => exact absurd ⟨_, _, (append_of_upTo_phrase found).symm⟩ absent

/-- What does not occur in a text in any case is not found in it. -/
theorem upTo_phraseAnyCase_eq_none {letters text : List Char}
    (absent : ¬ (letters.map Char.toLower).IsInfix (text.map Char.toLower)) :
    upTo (phraseAnyCase letters) (spell text : List α) = none := by
  cases found : upTo (phraseAnyCase letters) (spell text : List α) with
  | none => rfl
  | some split =>
      have whole := append_of_upTo (phraseAnyCase_faithful letters) found
      obtain ⟨written, same, taken, -⟩ :=
        phraseAnyCase_eq_some_iff.mp (taken_of_upTo (phraseAnyCase_faithful letters) found)
      have inside : (spell written : List α).IsInfix (spell text) := ⟨_, _, taken ▸ whole⟩
      exact absurd (same ▸ (isInfix_of_isInfix_spell inside).map Char.toLower) absent

end Reader

/-- A name ends where blanks or other symbols of a tag follow it, or its `>`. -/
theorem Alphabet.endsWord_spell_append_close {more : List Char} (ends : endsWord more = true)
    (behind : List α) : endsWord (spell more ++ ofChar '>' :: behind) = true := by
  cases more with
  | nil => simp [endsWord, isWord]
  | cons c rest =>
      change (!isWord (ofChar c : α)) = true
      rw [isWord, satisfies_ofChar]
      exact ends

/-- An open tag is read in whatever case it is written. -/
theorem Reader.name_openTag_append {name opener : List Char} {behind : List α}
    (opens : opener.map Char.toLower = (Markup.openTag name).map Char.toLower)
    (ends : endsWord behind = true) :
    Reader.name (Markup.openTag name) ((spell opener ++ behind).dropWhile isBlank) =
      some (spell opener, behind) := by
  have stops : (spell opener ++ behind).dropWhile isBlank = spell opener ++ behind := by
    obtain ⟨others, rfl⟩ := exists_of_map_toLower_angle opens
    exact List.dropWhile_cons_of_neg (by simp [isBlank])
  rw [stops]
  exact name_eq_some_iff.mpr ⟨phraseAnyCase_eq_some_iff.mpr ⟨opener, opens, rfl, rfl⟩, ends⟩

/-- A close tag is found behind a body that it does not stand in. -/
theorem Reader.upTo_closeTag_append {name body closer : List Char}
    (angled : ∀ c ∈ name, c.toLower ≠ '<')
    (unclosed : ¬ ((Markup.closeTag name).map Char.toLower).IsInfix (body.map Char.toLower))
    (closing : closer.map Char.toLower = (Markup.closeTag name).map Char.toLower) (rest : List α) :
    upTo (phraseAnyCase (Markup.closeTag name)) (spell body ++ (spell closer ++ rest)) =
      some ⟨spell body, spell closer, rest⟩ := by
  have here : phraseAnyCase (Markup.closeTag name) (spell closer ++ rest) =
      some (spell closer, rest) :=
    phraseAnyCase_eq_some_iff.mpr ⟨closer, closing, rfl, rfl⟩
  rw [upTo_append rfl, upTo_phraseAnyCase_eq_none unclosed, upTo_of_some here]
  · simp [Split.prepend]
  · intro suffix nonempty _
    apply word_cons_append ?_ nonempty
    -- the close tag has no second angle bracket, so none begins before the seam
    obtain ⟨others, rfl⟩ := exists_of_map_toLower_angle closing
    rintro _ ⟨⟩ c member
    have other : c.toLower ≠ '<' := by
      rcases List.mem_cons.mp member with rfl | member
      · decide
      · rcases List.mem_append.mp member with inName | last
        · exact angled c inName
        · rw [List.mem_singleton.mp last]
          decide
    simpa [isAnyCase] using other.symm

/-- A whole element is read as it is written, with the blanks behind it. -/
theorem Element.read_append {name opener more body closer : List Char}
    (angled : ∀ c ∈ name, c.toLower ≠ '<')
    (opens : opener.map Char.toLower = (Markup.openTag name).map Char.toLower)
    (ends : endsWord more = true) (closes : '>' ∉ more)
    (unclosed : ¬ ((Markup.closeTag name).map Char.toLower).IsInfix (body.map Char.toLower))
    (closing : closer.map Char.toLower = (Markup.closeTag name).map Char.toLower) (rest : List α) :
    read name
        (spell opener ++ (spell more ++ ofChar '>' :: (spell body ++ (spell closer ++ rest)))) =
      some (⟨spell opener ++ spell more ++ [ofChar '>'], spell body, spell closer⟩,
        rest.dropWhile isBlank) := by
  have tagged := Reader.upTo_append_cons (fun member => closes (ofChar_mem_spell.mp member))
    (spell body ++ (spell closer ++ rest))
  exact read_eq_some_iff.mpr ⟨_, _, _, _,
    Reader.name_openTag_append opens (endsWord_spell_append_close ends _), tagged,
    Reader.upTo_closeTag_append angled unclosed closing rest, rfl, rfl⟩

theorem Region.toLower_name (region : Region) : region.name.map Char.toLower = region.name := by
  cases region <;> decide

/-- No name of a region holds an angle bracket. -/
theorem Region.angled_name (region : Region) : ∀ c ∈ region.name, c.toLower ≠ '<' := by
  cases region <;> decide

end Written

/-! ## A hyphen behind the first text -/

section Hyphen

variable [Alphabet α]

/-- Blanks are dropped in front of a seam when no blank stands behind it. -/
theorem dropWhile_append_of_inked {rest : List α} (inked : ∀ a ∈ rest.head?, isBlank a = false)
    (text : List α) : (text ++ rest).dropWhile isBlank = text.dropWhile isBlank ++ rest := by
  rw [List.dropWhile_append, dropWhile_eq_self inked]
  split
  next none => rw [List.isEmpty_iff.mp none, List.nil_append]
  next => rfl

theorem dropWhile_append_hyphen (text rest : List α) :
    (text ++ ofChar '-' :: rest).dropWhile isBlank = text.dropWhile isBlank ++ ofChar '-' :: rest :=
  dropWhile_append_of_inked (by rintro _ ⟨⟩; simp [isBlank]) text

namespace Reader

/-- A phrase in any case does not reach over a hyphen that is none of its letters. -/
theorem phraseAnyCase_append_hyphen {letters : List Char}
    (unhyphened : ∀ c ∈ letters, c.toLower ≠ '-') (text rest : List α) :
    phraseAnyCase letters (text ++ ofChar '-' :: rest) =
      (phraseAnyCase letters text).map (extend (ofChar '-' :: rest)) := by
  apply word_append
  rintro _ ⟨⟩ c member
  simpa [isAnyCase] using (unhyphened c member).symm

/-- A name ends where a hyphen follows. -/
theorem name_append_hyphen {letters : List Char}
    (unhyphened : ∀ c ∈ letters, c.toLower ≠ '-') (text rest : List α) :
    name letters (text ++ ofChar '-' :: rest) =
      (name letters text).map (extend (ofChar '-' :: rest)) := by
  rw [name, name, phraseAnyCase_append_hyphen unhyphened]
  cases phraseAnyCase letters text with
  | none => rfl
  | some pair =>
      obtain ⟨taken, behind⟩ := pair
      have same : endsWord (behind ++ ofChar '-' :: rest) = endsWord behind := by
        cases behind with
        | nil => simp [endsWord, isWord]
        | cons a behind => rfl
      simp only [Option.map_some, extend, same]
      split <;> rfl

/-- A tag ends in front of a seam or behind it. -/
theorem upTo_close_append (first rest : List α) :
    upTo (phrase ['>']) (first ++ rest) =
      ((upTo (phrase ['>']) first).map (Split.extend rest)).or
        ((upTo (phrase ['>']) rest).map (Split.prepend first)) := by
  apply upTo_append rfl
  intro suffix nonempty _
  exact word_cons_append (by simp) nonempty

end Reader

namespace Element

/-- What is opened in front of a hyphen is opened whatever stands behind. -/
theorem opens_append_hyphen {name : List Char} (unhyphened : ∀ c ∈ name, c.toLower ≠ '-')
    (text rest : List α) : opens name (text ++ ofChar '-' :: rest) = opens name text := by
  have unhyphenedOpen : ∀ c ∈ Markup.openTag name, c.toLower ≠ '-' :=
    List.forall_mem_cons.mpr ⟨by decide, unhyphened⟩
  rw [opens, opens, dropWhile_append_hyphen, Reader.name_append_hyphen unhyphenedOpen,
    Option.isSome_map]

/-- An element that is read to its close tag is read alike whatever stands behind a
hyphen.  One that is opened and not closed needs a close tag there. -/
theorem read_append_hyphen {name : List Char} (unhyphened : ∀ c ∈ name, c.toLower ≠ '-')
    {text rest : List α}
    (apart : opens name text = true → read name text = none →
      Reader.upTo (Reader.phraseAnyCase (Markup.closeTag name)) (ofChar '-' :: rest) = none) :
    read name (text ++ ofChar '-' :: rest) =
      (read name text).map (Prod.map id (· ++ ofChar '-' :: rest)) := by
  have unhyphenedOpen : ∀ c ∈ Markup.openTag name, c.toLower ≠ '-' :=
    List.forall_mem_cons.mpr ⟨by decide, unhyphened⟩
  have unhyphenedClose : ∀ c ∈ Markup.closeTag name, c.toLower ≠ '-' := by
    simpa [Markup.closeTag, or_imp, forall_and] using unhyphened
  have close : ∀ text : List α,
      Reader.upTo (Reader.phraseAnyCase (Markup.closeTag name)) (text ++ ofChar '-' :: rest) =
        ((Reader.upTo (Reader.phraseAnyCase (Markup.closeTag name)) text).map
          (Reader.Split.extend (ofChar '-' :: rest))).or
          ((Reader.upTo (Reader.phraseAnyCase (Markup.closeTag name)) (ofChar '-' :: rest)).map
            (Reader.Split.prepend text)) := fun text =>
    Reader.upTo_append rfl fun suffix _ _ =>
      Reader.phraseAnyCase_append_hyphen unhyphenedClose suffix rest
  simp only [opens, read, bind] at apart ⊢
  rw [dropWhile_append_hyphen, Reader.name_append_hyphen unhyphenedOpen]
  cases named : Reader.name (Markup.openTag name) (text.dropWhile isBlank) with
  | none => rfl
  | some pair =>
      obtain ⟨head, inTag⟩ := pair
      simp only [named, Option.isSome_some, forall_const, Option.map_some, Option.bind_some,
        Reader.extend] at apart ⊢
      rw [Reader.upTo_close_append]
      cases tagged : Reader.upTo (Reader.phrase ['>']) inTag with
      | some tag =>
          simp only [tagged, Option.map_some, Option.some_or, Option.bind_some,
            Reader.Split.extend] at apart ⊢
          rw [close]
          cases closed : Reader.upTo (Reader.phraseAnyCase (Markup.closeTag name)) tag.rest with
          | some inner => simp [dropWhile_append_hyphen, Reader.Split.extend]
          | none =>
              rw [closed] at apart
              simp [apart rfl]
      | none =>
          rw [tagged] at apart
          have absent := apart rfl
          cases tagged' : Reader.upTo (Reader.phrase ['>']) (ofChar '-' :: rest) with
          | none => rfl
          | some tag =>
              have within := Reader.suffix_of_upTo (Reader.phrase_faithful _) tagged'
              simp [Reader.Split.prepend, Reader.upTo_eq_none_of_suffix within absent]

end Element

end Hyphen

end HtmlMinifier
