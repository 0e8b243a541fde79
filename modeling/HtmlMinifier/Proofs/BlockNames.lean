import HtmlMinifier.BlockTag

/-!
# Names of blocks

The name of a block is read by its stem: first what some names begin with, and behind it one of
the endings, where a word ends.  The stems and endings spell the names of a plain list, so a name
that is read is one of the list, and each name of the list is read.
-/

namespace HtmlMinifier

variable {α : Type}

namespace Reader

/-- A word is read in two parts. -/
theorem word_append_letters (same : Char → α → Bool) (first last : List Char) (text : List α) :
    word same (first ++ last) text =
      (word same first text).bind fun front =>
        (word same last front.2).map fun back => (front.1 ++ back.1, back.2) := by
  induction first generalizing text with
  | nil => cases found : word same last text <;> simp [found]
  | cons c first ih =>
      cases text with
      | nil => rfl
      | cons a text =>
          rw [List.cons_append, word, word, ih]
          split
          · cases word same first text with
            | none => rfl
            | some front => cases found : word same last front.2 <;> simp [found]
          · rfl

variable [Alphabet α]

/-- A name is read in two parts. -/
theorem name_append_letters (first last : List Char) (text : List α) :
    name (first ++ last) text =
      (phraseAnyCase first text).bind fun front =>
        (name last front.2).map fun back => (front.1 ++ back.1, back.2) := by
  rw [name, phraseAnyCase, word_append_letters, ← phraseAnyCase, ← phraseAnyCase]
  cases phraseAnyCase first text with
  | none => rfl
  | some front =>
      rw [Option.bind_some, Option.bind_some, name]
      cases phraseAnyCase last front.2 with
      | none => rfl
      | some back =>
          simp only [Option.map_some]
          split <;> rfl

end Reader

namespace BlockTag

/-- The elements that are laid out as blocks, and those that only occur inside them. -/
def names : List (List Char) :=
  ["area", "base", "basefont", "blockquote", "body", "caption", "center", "cite", "col",
    "colgroup", "dd", "dir", "div", "dl", "dt", "fieldset", "form", "frame", "frameset",
    "h1", "h2", "h3", "h4", "h5", "h6", "head", "hr", "html", "legend", "li", "link", "map",
    "menu", "meta", "ol", "optgroup", "option", "p", "param", "table", "tbody", "td",
    "tfoot", "th", "thead", "title", "tr", "ul"].map String.toList

/-- The names that a stem is the beginning of. -/
def Stem.names (stem : Stem) : List (List Char) :=
  stem.endings.map (stem.letters ++ ·)

/-- The names of all stems. -/
def spelled : List (List Char) :=
  stems.flatMap Stem.names

/-- The stems spell the listed names, each of them once. -/
theorem spelled_perm_names : spelled.Perm names := by
  decide +kernel

theorem mem_spelled_iff {letters : List Char} : letters ∈ spelled ↔ letters ∈ names :=
  spelled_perm_names.mem_iff

variable [Alphabet α]

/-- To read a stem with an ending is to read one of its names. -/
theorem Stem.name_eq_findSome? (stem : Stem) (text : List α) :
    stem.name text = stem.names.findSome? fun letters => Reader.name letters text := by
  rw [Stem.name, Stem.names, List.findSome?_map, Function.comp_def]
  simp only [Reader.name_append_letters]
  cases Reader.phraseAnyCase stem.letters text with
  | none => exact (List.findSome?_eq_none_iff.mpr fun _ _ => rfl).symm
  | some front =>
      have whole := List.map_findSome? (f := fun ending => Reader.name ending front.2)
        (g := fun back => (front.1 ++ back.1, back.2)) (l := stem.endings)
      rw [Option.map_eq_bind] at whole
      exact whole

/-- The name of a block is one of the names that the stems spell. -/
theorem name_eq_findSome? (text : List α) :
    name text = spelled.findSome? fun letters => Reader.name letters text := by
  rw [name, spelled]
  induction stems with
  | nil => rfl
  | cons stem stems ih =>
      rw [List.findSome?_cons, List.flatMap_cons, List.findSome?_append, ← ih,
        stem.name_eq_findSome?]
      cases stem.names.findSome? fun letters => Reader.name letters text <;> rfl

/-- A change that each name goes along with is one that the name of a block goes along with. -/
theorem name_eq_map {β : Type} [Alphabet β] {change : List α × List α → List β × List β}
    {text : List α} {text' : List β}
    (along : ∀ letters ∈ spelled,
      Reader.name letters text' = (Reader.name letters text).map change) :
    name text' = (name text).map change := by
  rw [name_eq_findSome?, name_eq_findSome?]
  generalize spelled = known at along
  induction known with
  | nil => rfl
  | cons letters known ih =>
      obtain ⟨first, others⟩ := List.forall_mem_cons.mp along
      rw [List.findSome?_cons, List.findSome?_cons, first]
      cases Reader.name letters text with
      | some pair => rfl
      | none => exact ih others

end BlockTag

end HtmlMinifier
