import HtmlMinifier.Reader

/-!
# Patterns and what they cut out of a text

A pattern is a reader whose matches are never empty and which says something
about each match.  `cut` walks through a text from left to right: where the
pattern matches, the match becomes one piece and the walk goes on behind it;
elsewhere one symbol is kept.  Matches therefore never overlap, and the
leftmost one wins.

The walk is the only loop of its kind in the library.  Its equations are
`cut_nil`, `cut_of_some` and `cut_cons_of_none`, and `Pattern.induction` is the
induction that follows it.
-/

namespace HtmlMinifier

/-- A pattern with matches described by `β`. -/
structure Pattern (α β : Type) where
  /-- The match at the front of a text, if there is one, and the text behind
  it. -/
  read : List α → Option (β × List α)
  /-- A match takes at least one symbol. -/
  shrinks : ∀ ⦃text found rest⦄, read text = some (found, rest) → rest.length < text.length

/-- A part of a text that has been cut up. -/
inductive Piece (α β : Type) where
  /-- A symbol outside every match. -/
  | kept (a : α)
  /-- A match. -/
  | found (b : β)
  deriving DecidableEq, Repr

/-- The text of a piece, with a match written as `write` says. -/
def Piece.text {α β : Type} (write : β → List α) : Piece α β → List α
  | .kept a => [a]
  | .found b => write b

/-- Symbols that are kept are the text of their pieces. -/
theorem Piece.flatMap_text_kept {α β : Type} (write : β → List α) (text : List α) :
    (text.map (.kept : α → Piece α β)).flatMap (Piece.text write) = text := by
  induction text with
  | nil => rfl
  | cons a text ih => rw [List.map_cons, List.flatMap_cons, ih, Piece.text, List.singleton_append]

namespace Pattern

variable {α β : Type}

/-- Cuts up the rest of a text.  The second argument holds the pieces before
it, backwards. -/
def cutFrom (pattern : Pattern α β) (done : List (Piece α β)) :
    List α → List (Piece α β)
  | [] => done.reverse
  | a :: text =>
      match _ : pattern.read (a :: text) with
      | some (found, rest) => cutFrom pattern (.found found :: done) rest
      | none => cutFrom pattern (.kept a :: done) text
termination_by text => text.length
decreasing_by
  · exact pattern.shrinks ‹_›
  · simp

/-- Cuts a text into matches and the symbols between them. -/
def cut (pattern : Pattern α β) (text : List α) : List (Piece α β) :=
  cutFrom pattern [] text

/-- Writes every match of a text anew and keeps the rest. -/
def replace (pattern : Pattern α β) (write : β → List α) (text : List α) : List α :=
  (pattern.cut text).flatMap (Piece.text write)

/-- Induction along a cut. -/
theorem induction (pattern : Pattern α β) {motive : List α → Prop}
    (nil : motive [])
    (found : ∀ text found rest, pattern.read text = some (found, rest) →
      motive rest → motive text)
    (kept : ∀ a text, pattern.read (a :: text) = none → motive text → motive (a :: text))
    (text : List α) : motive text := by
  induction length : text.length using Nat.strongRecOn generalizing text with
  | ind n ih =>
      cases text with
      | nil => exact nil
      | cons a text =>
          cases read : pattern.read (a :: text) with
          | some pair =>
              obtain ⟨match', rest⟩ := pair
              exact found _ _ _ read
                (ih _ (length ▸ pattern.shrinks read) rest rfl)
          | none =>
              exact kept a text read (ih _ (by simp [← length]) text rfl)

/-- Nothing matches the empty text. -/
@[simp]
theorem read_nil (pattern : Pattern α β) : pattern.read [] = none := by
  cases read : pattern.read [] with
  | none => rfl
  | some pair => exact absurd (pattern.shrinks read) (by simp)

theorem cutFrom_eq (pattern : Pattern α β) (done : List (Piece α β)) (text : List α) :
    pattern.cutFrom done text = done.reverse ++ pattern.cut text := by
  unfold cut
  induction text using pattern.induction generalizing done with
  | nil => simp [cutFrom]
  | found text match' rest read ih =>
      cases text with
      | nil => simp at read
      | cons a text =>
          unfold cutFrom
          split
          next found' rest' read' =>
            simp only [read, Option.some.injEq, Prod.mk.injEq] at read'
            rw [← read'.1, ← read'.2, ih, ih [.found match']]
            simp
          next refused => simp [read] at refused
  | kept a text refused ih =>
      unfold cutFrom
      split
      next read' => simp [refused] at read'
      next => rw [ih, ih [.kept a]]; simp

@[simp]
theorem cut_nil (pattern : Pattern α β) : pattern.cut [] = [] := by
  simp [cut, cutFrom]

theorem cut_of_some {pattern : Pattern α β} {text rest : List α} {found : β}
    (read : pattern.read text = some (found, rest)) :
    pattern.cut text = .found found :: pattern.cut rest := by
  cases text with
  | nil => simp at read
  | cons a text =>
      unfold cut
      rw [cutFrom]
      split
      next found' rest' read' =>
        simp only [read, Option.some.injEq, Prod.mk.injEq] at read'
        rw [← read'.1, ← read'.2, cutFrom_eq]
        simp [cut]
      next refused => simp [read] at refused

theorem cut_cons_of_none {pattern : Pattern α β} {a : α} {text : List α}
    (refused : pattern.read (a :: text) = none) :
    pattern.cut (a :: text) = .kept a :: pattern.cut text := by
  unfold cut
  rw [cutFrom]
  split
  next read' => simp [refused] at read'
  next => rw [cutFrom_eq]; simp [cut]

@[simp]
theorem replace_nil (pattern : Pattern α β) (write : β → List α) :
    pattern.replace write [] = [] := by
  simp [replace]

theorem replace_of_some {pattern : Pattern α β} {write : β → List α}
    {text rest : List α} {found : β} (read : pattern.read text = some (found, rest)) :
    pattern.replace write text = write found ++ pattern.replace write rest := by
  simp [replace, cut_of_some read, Piece.text]

theorem replace_cons_of_none {pattern : Pattern α β} {write : β → List α} {a : α}
    {text : List α} (refused : pattern.read (a :: text) = none) :
    pattern.replace write (a :: text) = a :: pattern.replace write text := by
  simp [replace, cut_cons_of_none refused, Piece.text]

/-- What no match begins in is kept, whatever follows. -/
theorem cut_append_of_refused {pattern : Pattern α β} {first rest : List α}
    (refused : ∀ suffix, suffix ≠ [] → suffix.IsSuffix first →
      pattern.read (suffix ++ rest) = none) :
    pattern.cut (first ++ rest) = first.map .kept ++ pattern.cut rest := by
  induction first with
  | nil => rfl
  | cons a first ih =>
      have here : pattern.read (a :: (first ++ rest)) = none :=
        refused (a :: first) (List.cons_ne_nil a first) List.suffix_rfl
      have behind := ih fun suffix nonempty within =>
        refused suffix nonempty (within.trans (List.suffix_cons a first))
      rw [List.cons_append, cut_cons_of_none here, behind]
      rfl

theorem replace_append_of_refused {pattern : Pattern α β} {write : β → List α}
    {first rest : List α}
    (refused : ∀ suffix, suffix ≠ [] → suffix.IsSuffix first →
      pattern.read (suffix ++ rest) = none) :
    pattern.replace write (first ++ rest) = first ++ pattern.replace write rest := by
  rw [replace, cut_append_of_refused refused, List.flatMap_append, Piece.flatMap_text_kept, replace]

/-- A text in which nothing matches is kept. -/
theorem cut_of_refused {pattern : Pattern α β} {text : List α}
    (refused : ∀ suffix, suffix.IsSuffix text → pattern.read suffix = none) :
    pattern.cut text = text.map .kept := by
  have whole : pattern.cut (text ++ []) = text.map .kept ++ pattern.cut [] := by
    apply cut_append_of_refused
    intro suffix _ within
    rw [List.append_nil]
    exact refused suffix within
  rwa [List.append_nil, cut_nil, List.append_nil] at whole

theorem replace_of_refused {pattern : Pattern α β} {write : β → List α} {text : List α}
    (refused : ∀ suffix, suffix.IsSuffix text → pattern.read suffix = none) :
    pattern.replace write text = text := by
  rw [replace, cut_of_refused refused, Piece.flatMap_text_kept]

/-- Where every match begins with one symbol, a text without it is kept, whatever
follows. -/
theorem cut_append_of_notMem {pattern : Pattern α β} {a : α}
    (begins : ∀ b text, b ≠ a → pattern.read (b :: text) = none) {first : List α}
    (absent : a ∉ first) (rest : List α) :
    pattern.cut (first ++ rest) = first.map .kept ++ pattern.cut rest := by
  apply cut_append_of_refused
  intro suffix nonempty within
  cases suffix with
  | nil => exact absurd rfl nonempty
  | cons b suffix =>
      apply begins
      rintro rfl
      exact absent (within.subset List.mem_cons_self)

theorem replace_append_of_notMem {pattern : Pattern α β} {write : β → List α} {a : α}
    (begins : ∀ b text, b ≠ a → pattern.read (b :: text) = none) {first : List α}
    (absent : a ∉ first) (rest : List α) :
    pattern.replace write (first ++ rest) = first ++ pattern.replace write rest := by
  rw [replace, cut_append_of_notMem begins absent, List.flatMap_append, Piece.flatMap_text_kept,
    replace]

/-- A relation that holds of every match and what it is replaced by, and that
texts inherit from their parts, holds of a whole text. -/
theorem related_replace (relation : List α → List α → Prop)
    {pattern : Pattern α β} {write : β → List α} (refl : ∀ text, relation text text)
    (append : ∀ {first first' second second'}, relation first' first → relation second' second →
      relation (first' ++ second') (first ++ second))
    (each : ∀ text found rest, pattern.read text = some (found, rest) →
      ∃ matched, text = matched ++ rest ∧ relation (write found) matched)
    (text : List α) : relation (pattern.replace write text) text := by
  induction text using pattern.induction with
  | nil =>
      rw [replace_nil]
      exact refl []
  | found text found rest read ih =>
      obtain ⟨matched, rfl, related⟩ := each _ _ _ read
      rw [replace_of_some read]
      exact append related ih
  | kept a text refused ih =>
      rw [replace_cons_of_none refused]
      exact append (refl [a]) ih

/-- What is known of every match with what it takes off the front of a text is
known of the matches within a text. -/
theorem exists_matched_of_mem_cut (relation : β → List α → Prop) {pattern : Pattern α β}
    (each : ∀ text found rest, pattern.read text = some (found, rest) →
      ∃ matched, text = matched ++ rest ∧ relation found matched)
    {text : List α} {found : β} (member : Piece.found found ∈ pattern.cut text) :
    ∃ matched, matched.Sublist text ∧ relation found matched := by
  induction text using pattern.induction with
  | nil => simp at member
  | found text found' rest read ih =>
      obtain ⟨matched, rfl, related⟩ := each _ _ _ read
      rw [cut_of_some read, List.mem_cons] at member
      rcases member with same | further
      · rw [Piece.found.injEq] at same
        exact ⟨matched, List.sublist_append_left _ _, same ▸ related⟩
      · obtain ⟨matched', within, related'⟩ := ih further
        exact ⟨matched', within.trans (List.sublist_append_right _ _), related'⟩
  | kept a text refused ih =>
      rw [cut_cons_of_none refused, List.mem_cons] at member
      obtain ⟨matched, within, related⟩ := ih (member.resolve_left (by simp))
      exact ⟨matched, within.cons a, related⟩

theorem replace_of_notMem {pattern : Pattern α β} {write : β → List α} {a : α}
    (begins : ∀ b text, b ≠ a → pattern.read (b :: text) = none) {text : List α}
    (absent : a ∉ text) : pattern.replace write text = text := by
  have whole : pattern.replace write (text ++ []) = text ++ pattern.replace write [] :=
    replace_append_of_notMem begins absent []
  rwa [List.append_nil, replace_nil, List.append_nil] at whole

/-- The pattern of a phrase. -/
def phrase [Alphabet α] (letters : List Char) (nonempty : letters ≠ []) : Pattern α Unit where
  read text := (Reader.after? letters text).map fun rest => ((), rest)
  shrinks text found rest read := by
    rcases Option.map_eq_some_iff.mp read with ⟨rest', read, same⟩
    have length := Reader.length_of_after? read
    have positive := List.length_pos_iff.mpr nonempty
    have equal : rest' = rest := congrArg Prod.snd same
    subst rest'
    omega

/-- A pattern whose matches are described otherwise. -/
def map {γ : Type} (describe : β → γ) (pattern : Pattern α β) : Pattern α γ where
  read text :=
    match pattern.read text with
    | some (found, rest) => some (describe found, rest)
    | none => none
  shrinks text found rest read := by
    cases inner : pattern.read text with
    | none => simp [inner] at read
    | some pair =>
        simp only [inner, Option.some.injEq, Prod.mk.injEq] at read
        exact read.2 ▸ pattern.shrinks inner

end Pattern

end HtmlMinifier
