import HtmlMinifier.Proofs.SheetWhitespace
import HtmlMinifier.Proofs.Symbol

/-!
# Clean documents

A clean document is a page in which complete preformatted texts and text areas may
stand, and conditional comments.  It is a sheet of atoms: an atom is a character or one
such element as a whole.

Along a run each element is first written out and later one opaque symbol.  `Atom.write`
does either, depending on the kinds of regions that have been sealed.  Setting the
regions of a kind aside seals them and tucks them in: the blanks around them go.
-/

namespace HtmlMinifier

open Alphabet

/-! ## Elements that are kept as they are -/

/-- A preformatted text or a text area, as it is written. -/
structure Verbatim where
  region : Region
  /-- The name of the element in its open tag. -/
  opener : List Char
  /-- What stands between the name and the `>`. -/
  more : List Char
  body : List Char
  /-- The name of the element in its close tag. -/
  closer : List Char
  kept : region = .pre ∨ region = .textarea
  opener_eq : opener.map Char.toLower = region.name
  closer_eq : closer.map Char.toLower = region.name
  endsWord_more : endsWord more = true
  unmarked_more : ∀ c ∈ more, c ≠ '<' ∧ c ≠ '>'
  open_notMem_body : '<' ∉ body

namespace Verbatim

/-- What stands between the first angle bracket of an element and its close tag. -/
def front (element : Verbatim) : List Char :=
  element.opener ++ (element.more ++ '>' :: element.body)

/-- A close tag without its angle bracket. -/
def back (element : Verbatim) : List Char :=
  '/' :: (element.closer ++ ['>'])

def text (element : Verbatim) : List Char :=
  '<' :: (element.front ++ '<' :: element.back)

theorem isWord_of_map_toLower {letters : List Char} {region : Region}
    (same : letters.map Char.toLower = region.name) {c : Char} (member : c ∈ letters) :
    isWord c = true := by
  rw [← isWord_toLower]
  exact region.isWord_of_mem_name (same ▸ List.mem_map_of_mem member)

theorem open_notMem_of_isWord {letters : List Char} (word : ∀ c ∈ letters, isWord c = true) :
    '<' ∉ letters :=
  fun member => absurd (word '<' member) (by decide)

theorem open_notMem_front (element : Verbatim) : '<' ∉ element.front := by
  have opener := open_notMem_of_isWord fun _ => isWord_of_map_toLower element.opener_eq
  have more : '<' ∉ element.more := fun member => (element.unmarked_more '<' member).1 rfl
  have body := element.open_notMem_body
  simp [front, opener, more, body]

theorem open_notMem_back (element : Verbatim) : '<' ∉ element.back := by
  have closer := open_notMem_of_isWord fun _ => isWord_of_map_toLower element.closer_eq
  simp [back, closer]

variable {α : Type} [Alphabet α]

theorem spell_text_append (element : Verbatim) (behind : List α) :
    spell element.text ++ behind =
      ofChar '<' :: (spell element.opener ++ (spell element.more ++ ofChar '>' ::
        (spell element.body ++ (spell ('<' :: element.back) ++ behind)))) := by
  simp [text, front, spell]

/-- An element opens a region of its own kind and no other. -/
theorem read_name (element : Verbatim) (region : Region) (behind : List α) :
    Reader.name region.name
        (spell element.opener ++ (spell element.more ++ ofChar '>' :: behind)) =
      if element.region = region then
        some (spell element.opener, spell element.more ++ ofChar '>' :: behind)
      else none := by
  rw [Reader.name_spell (fun _ => isWord_of_map_toLower element.opener_eq)
    (fun _ => region.isWord_of_mem_name) (endsWord_spell_append_close element.endsWord_more behind),
    element.opener_eq, region.toLower_name]
  simp only [Region.name_injective.eq_iff]

/-- An element is read as it is written. -/
theorem read_text_append (element : Verbatim) (behind : List α) :
    element.region.pattern.read (spell element.text ++ behind) =
      some (spell element.text, behind.dropWhile isBlank) := by
  have lower := element.region.toLower_name
  have unclosed : ¬ ((Markup.closeTag element.region.name).map Char.toLower).IsInfix
      (element.body.map Char.toLower) := by
    intro inside
    have member : '<' ∈ element.body.map Char.toLower := inside.subset List.mem_cons_self
    obtain ⟨c, inBody, angle⟩ := List.mem_map.mp member
    exact element.open_notMem_body (eq_of_toLower_eq (by decide) angle ▸ inBody)
  have read := Element.read_append element.region.angled_name
    (by simp [Markup.openTag, element.opener_eq, lower] :
      ('<' :: element.opener).map Char.toLower = _)
    element.endsWord_more (fun member => (element.unmarked_more '>' member).2 rfl) unclosed
    (by simp [back, Markup.closeTag, element.closer_eq, lower] :
      ('<' :: element.back).map Char.toLower = _) behind
  have content : ∀ whole : Element α, element.region.content whole = whole.text := by
    intro whole
    rcases element.kept with pre | textarea
    · rw [pre, Region.content]
    · rw [textarea, Region.content]
  rw [Region.read_pattern, element.spell_text_append]
  refine (congrArg _ read).trans ?_
  simp [content, Element.text, text, front, spell]

/-- The second angle bracket of an element is that of its close tag. -/
theorem eq_back_of_suffix {element : Verbatim} {rest : List Char}
    (within : ('<' :: rest).IsSuffix (element.front ++ '<' :: element.back)) :
    rest = element.back := by
  obtain ⟨before, shape⟩ := within
  obtain ⟨between, _, shape⟩ := exists_of_append_eq_append_cons element.open_notMem_front shape.symm
  cases between with
  | nil => exact (List.cons.inj shape).2.symm
  | cons c between =>
      have member : '<' ∈ element.back := by simp [(List.cons.inj shape).2]
      exact absurd member element.open_notMem_back

/-- Within an element nothing is opened. -/
theorem not_opens_of_suffix (element : Verbatim) (region : Region) {suffix : List Char}
    (nonempty : suffix ≠ []) (within : suffix.IsSuffix (element.front ++ '<' :: element.back))
    (behind : List α) : Element.opens region.name (spell suffix ++ behind) = false := by
  have last : suffix.getLast nonempty = '>' := by
    have ends := within.getLast nonempty
    simpa [back] using ends
  have left : suffix.dropWhile isBlank ≠ [] := by
    intro none
    have blank := List.dropWhile_eq_nil_iff.mp none _ (List.getLast_mem nonempty)
    rw [last] at blank
    contradiction
  have drops : (spell suffix ++ behind).dropWhile isBlank =
      spell (suffix.dropWhile isBlank) ++ behind := by
    have same : (spell suffix : List α).dropWhile isBlank = spell (suffix.dropWhile isBlank) := by
      rw [spell, List.dropWhile_map]
      congr 2
      funext c
      exact satisfies_ofChar _ c
    have some : (spell (suffix.dropWhile isBlank) : List α).isEmpty = false := by
      simp [spell, left]
    rw [List.dropWhile_append, same, some]
    rfl
  apply Element.not_opens_of_name
  intro rest opens
  rw [drops] at opens
  cases inner : suffix.dropWhile isBlank with
  | nil => exact absurd inner left
  | cons c inside =>
      rw [inner] at opens
      obtain ⟨first, rfl⟩ := List.cons.inj opens
      have deeper : (c :: inside).IsSuffix (element.front ++ '<' :: element.back) :=
        inner ▸ (List.dropWhile_suffix isBlank).trans within
      rw [ofChar_inj.mp first] at deeper
      rw [eq_back_of_suffix deeper]
      exact region.read_name_of_mem (by decide) _

end Verbatim

/-! ## Atoms -/

/-- A character of a clean document, or an element that is kept as it is. -/
inductive Atom where
  | char (c : Char)
  | verbatim (element : Verbatim)

namespace Atom

instance : Alphabet Atom where
  ofChar := char
  char?
    | char c => some c
    | verbatim _ => none
  char?_ofChar _ := rfl
  ofChar_of_char?_eq_some {a c} found := by
    cases a with
    | char d => exact congrArg char (Option.some.inj found).symm
    | verbatim element => contradiction

/-- An atom, as it is written. -/
def text : Atom → List Char
  | char c => [c]
  | verbatim element => element.text

/-- An atom as symbols, when the regions of some kinds have been set aside. -/
def write (setAside : List Region) : Atom → List Symbol
  | char c => [.char c]
  | verbatim element =>
      if element.region ∈ setAside then [.stored (element.text.map .char)]
      else element.text.map .char

/-- A text of atoms as symbols. -/
def writeAll (setAside : List Region) (atoms : List Atom) : List Symbol :=
  atoms.flatMap (write setAside)

variable {setAside : List Region}

@[simp]
theorem writeAll_nil : writeAll setAside [] = [] :=
  rfl

@[simp]
theorem writeAll_cons (a : Atom) (atoms : List Atom) :
    writeAll setAside (a :: atoms) = write setAside a ++ writeAll setAside atoms :=
  rfl

@[simp]
theorem writeAll_append (first second : List Atom) :
    writeAll setAside (first ++ second) = writeAll setAside first ++ writeAll setAside second :=
  List.flatMap_append

@[simp]
theorem writeAll_spell (letters : List Char) :
    writeAll setAside (spell letters) = spell letters := by
  induction letters with
  | nil => rfl
  | cons c letters ih => rw [spell_cons, writeAll_cons, ih]; rfl

/-- What an element is written as begins and ends with symbols that nothing drops. -/
theorem exists_write_eq (setAside : List Region) (element : Verbatim) :
    ∃ first last : Symbol, ∃ rest front : List Symbol,
      write setAside (verbatim element) = first :: rest ∧
        write setAside (verbatim element) = front ++ [last] ∧
          (first = .char '<' ∨ char? first = none) ∧ (last = .char '>' ∨ char? last = none) := by
  rw [write]
  split
  · exact ⟨_, _, [], [], rfl, rfl, Or.inr rfl, Or.inr rfl⟩
  · refine ⟨_, .char '>', _, (('<' :: (element.front ++ '<' :: '/' :: element.closer)).map .char),
      rfl, ?_, Or.inl rfl, Or.inl rfl⟩
    simp [Verbatim.text, Verbatim.back]

theorem dropWhile_writeAll {property : Char → Bool} (opens : property '<' = false)
    (atoms : List Atom) :
    (writeAll setAside atoms).dropWhile (satisfies property) =
      writeAll setAside (atoms.dropWhile (satisfies property)) := by
  induction atoms with
  | nil => rfl
  | cons a atoms ih =>
      cases a with
      | char c =>
          have test : satisfies property (char c) = property c := rfl
          have test' : satisfies property (Symbol.char c) = property c := rfl
          rw [writeAll_cons, write, List.singleton_append, List.dropWhile_cons,
            List.dropWhile_cons, test, test', ih]
          split <;> rfl
      | verbatim element =>
          obtain ⟨first, -, rest, -, written, -, front, -⟩ := exists_write_eq setAside element
          have stays : ¬ satisfies property first = true := by
            rcases front with rfl | sealed
            · exact Bool.eq_false_iff.mp opens
            · simp [satisfies_of_char?_eq_none sealed]
          rw [List.dropWhile_cons_of_neg (by simp [satisfies, char?]), writeAll_cons, written]
          exact List.dropWhile_cons_of_neg stays

theorem dropWhile_isBlank_writeAll (atoms : List Atom) :
    (writeAll setAside atoms).dropWhile isBlank =
      writeAll setAside (atoms.dropWhile isBlank) :=
  dropWhile_writeAll (by decide) atoms

theorem rdropWhile_writeAll {property : Char → Bool} (closes : property '>' = false)
    (atoms : List Atom) :
    (writeAll setAside atoms).rdropWhile (satisfies property) =
      writeAll setAside (atoms.rdropWhile (satisfies property)) := by
  induction atoms using List.reverseRecOn with
  | nil => rfl
  | append_singleton atoms a ih =>
      rw [writeAll_append, writeAll_cons, writeAll_nil, List.append_nil]
      cases a with
      | char c =>
          have test : satisfies property (char c) = property c := rfl
          have test' : satisfies property (Symbol.char c) = property c := rfl
          rw [write, List.rdropWhile_concat, List.rdropWhile_concat, test, test', ih]
          split
          · rfl
          · simp [write]
      | verbatim element =>
          obtain ⟨-, last, -, front, -, written, -, back⟩ := exists_write_eq setAside element
          have stays : ¬ satisfies property last = true := by
            rcases back with rfl | sealed
            · exact Bool.eq_false_iff.mp closes
            · simp [satisfies_of_char?_eq_none sealed]
          rw [List.rdropWhile_concat_neg _ _ (verbatim element) (by simp [satisfies, char?]),
            writeAll_append, writeAll_cons, writeAll_nil, List.append_nil, written,
            ← List.append_assoc, List.rdropWhile_concat_neg _ _ _ stays]

end Atom

/-! ## Tucking elements in -/

namespace Verbatim

/-- An element of the given kind at the front of a text, with the blanks around it. -/
def read (region : Region) (text : List Atom) : Option (Verbatim × List Atom) :=
  match text.dropWhile isBlank with
  | .verbatim element :: rest =>
      if element.region = region then some (element, rest.dropWhile isBlank) else none
  | _ => none

theorem read_eq_some_iff {region : Region} {text rest : List Atom} {element : Verbatim} :
    read region text = some (element, rest) ↔
      ∃ behind, text.dropWhile isBlank = .verbatim element :: behind ∧ element.region = region ∧
        rest = behind.dropWhile isBlank := by
  rw [read]
  split
  next found behind shape =>
    rw [shape]
    simp only [Option.ite_none_right_eq_some, Option.some.injEq, Prod.mk.injEq, List.cons.injEq,
      Atom.verbatim.injEq]
    constructor
    · rintro ⟨same, rfl, rfl⟩
      exact ⟨behind, ⟨rfl, rfl⟩, same, rfl⟩
    · rintro ⟨_, ⟨rfl, rfl⟩, same, rfl⟩
      exact ⟨same, rfl, rfl⟩
  next other =>
    simp only [reduceCtorEq, false_iff]
    rintro ⟨behind, shape, -⟩
    exact other element behind shape

/-- The elements of a kind with the blanks around them. -/
def pattern (region : Region) : Pattern Atom Verbatim where
  read := read region
  shrinks text element rest found := by
    obtain ⟨behind, shape, -, rfl⟩ := read_eq_some_iff.mp found
    have before := (List.dropWhile_sublist (isBlank (α := Atom)) (l := text)).length_le
    have after := (List.dropWhile_sublist (isBlank (α := Atom)) (l := behind)).length_le
    rw [shape, List.length_cons] at before
    omega

/-- A text without the blanks around the elements of a kind. -/
def tuck (region : Region) (text : List Atom) : List Atom :=
  (pattern region).replace (fun element => [.verbatim element]) text

@[simp]
theorem tuck_nil (region : Region) : tuck region [] = [] :=
  Pattern.replace_nil _ _

theorem tuck_of_some {region : Region} {text rest : List Atom} {element : Verbatim}
    (found : read region text = some (element, rest)) :
    tuck region text = .verbatim element :: tuck region rest := by
  unfold tuck
  exact Pattern.replace_of_some found

theorem tuck_cons_of_none {region : Region} {a : Atom} {text : List Atom}
    (refused : read region (a :: text) = none) :
    tuck region (a :: text) = a :: tuck region text := by
  unfold tuck
  exact Pattern.replace_cons_of_none refused

end Verbatim

/-- Where no element of a kind is opened at the front of some atoms, none is opened when
they are written out. -/
theorem Atom.not_opens_writeAll {setAside : List Region} {region : Region}
    {sheet : Sheet Atom} {atoms : List Atom} (within : atoms.IsSuffix sheet.text)
    (refused : Verbatim.read region atoms = none) :
    Element.opens region.name (writeAll setAside atoms) = false := by
  apply Element.not_opens_of_name
  intro rest opens
  have deeper := (List.dropWhile_suffix isBlank).trans within
  rw [dropWhile_isBlank_writeAll] at opens
  cases inner : atoms.dropWhile isBlank with
  | nil => simp [inner] at opens
  | cons a behind =>
      rw [inner] at opens deeper
      cases a with
      | char c =>
          obtain ⟨first, rfl⟩ := List.cons.inj opens
          obtain rfl := Symbol.char.inj first
          obtain ⟨bracket, after, shape⟩ := Sheet.exists_bracket_of_suffix deeper
          rw [bracket.spell_text_append] at shape
          rw [(List.cons.inj shape).2]
          change Reader.name region.name
            (writeAll setAside (spell bracket.inner ++ ofChar '>' :: after)) = none
          rw [writeAll_append, writeAll_spell]
          exact bracket.read_region region _
      | verbatim element =>
          have other : element.region ≠ region := by
            intro same
            rw [Verbatim.read, inner] at refused
            simp [same] at refused
          rw [writeAll_cons, write] at opens
          split at opens
          · exact absurd (List.cons.inj opens).1 (by simp)
          · have spelled : element.text.map Symbol.char = spell element.text := rfl
            rw [spelled, element.spell_text_append] at opens
            rw [← (List.cons.inj opens).2, element.read_name, if_neg other]

/-- An element that does not belong to a kind is written alike when the regions of that kind
have been set aside. -/
theorem Atom.write_cons_of_refused {setAside : List Region} {region : Region} {a : Atom}
    {atoms : List Atom} (refused : Verbatim.read region (a :: atoms) = none) :
    write (region :: setAside) a = write setAside a := by
  cases a with
  | char c => rfl
  | verbatim element =>
      have other : element.region ≠ region := by
        intro same
        simp [Verbatim.read, isBlank, satisfies, char?, same] at refused
      simp only [write, List.mem_cons, other, false_or]

/-- What an atom is written as ends in itself, or else within an element. -/
theorem Atom.suffix_write {setAside : List Region} {a : Atom} {part : List Symbol}
    (nonempty : part ≠ []) (within : part.IsSuffix (write setAside a)) :
    part = write setAside a ∨ ∃ element inside, a = verbatim element ∧ inside ≠ [] ∧
      inside.IsSuffix (element.front ++ '<' :: element.back) ∧ part = spell inside := by
  have whole : ∀ b : Symbol, part.IsSuffix [b] → part = [b] := fun b single =>
    (List.suffix_cons_iff.mp single).resolve_right fun short => nonempty (List.suffix_nil.mp short)
  cases a with
  | char c => exact Or.inl (whole _ within)
  | verbatim element =>
      by_cases sealed : element.region ∈ setAside
      · have written : write setAside (verbatim element) = [.stored (element.text.map .char)] :=
          if_pos sealed
        rw [written] at within ⊢
        exact Or.inl (whole _ within)
      · have written : write setAside (verbatim element) = spell element.text := if_neg sealed
        rw [written] at within ⊢
        obtain ⟨inside, inText, rfl⟩ := List.suffix_map_iff.mp within
        rcases List.suffix_cons_iff.mp inText with rfl | deeper
        · exact Or.inl rfl
        · exact Or.inr ⟨element, inside, rfl, fun none => nonempty (congrArg _ none), deeper, rfl⟩

/-- Nothing is opened within what an atom is written as. -/
theorem Atom.not_opens_of_suffix {setAside : List Region} {region : Region} {sheet : Sheet Atom}
    {a : Atom} {atoms : List Atom} {suffix : List Symbol} (nonempty : suffix ≠ [])
    (inside : suffix.IsSuffix (write setAside a)) (within : (a :: atoms).IsSuffix sheet.text)
    (refused : Verbatim.read region (a :: atoms) = none) :
    Element.opens region.name (suffix ++ writeAll setAside atoms) = false := by
  rcases suffix_write nonempty inside with rfl | ⟨element, part, rfl, nonempty', deeper, rfl⟩
  · exact not_opens_writeAll within refused
  · exact element.not_opens_of_suffix region nonempty' deeper _

/-- Setting the regions of a kind aside seals the elements of that kind and drops the
blanks around them. -/
theorem Symbol.apply_protect_writeAll {setAside : List Region} {region : Region}
    (unsealed : region ∉ setAside) {sheet : Sheet Atom} {atoms : List Atom}
    (within : atoms.IsSuffix sheet.text) :
    apply (Atom.writeAll setAside atoms) (.protect region) =
      Atom.writeAll (region :: setAside) (Verbatim.tuck region atoms) := by
  rw [apply, Stage.pieces]
  induction atoms using (Verbatim.pattern region).induction with
  | nil => simp
  | found atoms element rest found ih =>
      obtain ⟨behind, shape, rfl, rfl⟩ := Verbatim.read_eq_some_iff.mp found
      have read : element.region.pattern.read (Atom.writeAll setAside atoms) =
          some (spell element.text, Atom.writeAll setAside (behind.dropWhile isBlank)) := by
        rw [← Region.read_dropWhile, Atom.dropWhile_isBlank_writeAll, shape, Atom.writeAll_cons,
          Atom.write, if_neg unsealed, ← Atom.dropWhile_isBlank_writeAll]
        exact element.read_text_append _
      have inside : (behind.dropWhile isBlank).IsSuffix atoms := by
        have after : behind.IsSuffix (atoms.dropWhile isBlank) := shape ▸ List.suffix_cons _ behind
        exact (List.dropWhile_suffix isBlank).trans (after.trans (List.dropWhile_suffix isBlank))
      rw [Pattern.cut_of_some read, List.map_cons, ih (inside.trans within),
        Verbatim.tuck_of_some found, Atom.writeAll_cons, Atom.write, if_pos List.mem_cons_self]
      rfl
  | kept a atoms refused ih =>
      have behind := ih ((List.suffix_cons a atoms).trans within)
      have passed : region.pattern.cut (Atom.write setAside a ++ Atom.writeAll setAside atoms) =
          (Atom.write setAside a).map .kept ++
            region.pattern.cut (Atom.writeAll setAside atoms) := by
        apply Pattern.cut_append_of_refused
        intro suffix nonempty inside
        apply Region.read_of_not_opens
        exact Atom.not_opens_of_suffix nonempty inside within refused
      rw [Atom.writeAll_cons, passed, List.map_append, behind, Verbatim.tuck_cons_of_none refused,
        Atom.writeAll_cons, Atom.write_cons_of_refused refused, List.map_map]
      congr 1
      exact List.map_id _

/-- No element opens a comment. -/
theorem Verbatim.not_commentOpen (element : Verbatim) (inside behind : List Symbol) :
    spell Markup.commentOpen ++ inside ≠ spell element.text ++ behind := by
  intro shape
  cases opener : element.opener with
  | nil =>
      have empty := element.opener_eq
      rw [opener] at empty
      exact absurd empty (by cases element.region <;> decide)
  | cons c opener =>
      have word := isWord_of_map_toLower element.opener_eq (by simp [opener] : c ∈ element.opener)
      rw [element.spell_text_append, opener] at shape
      obtain rfl := Symbol.char.inj (List.cons.inj (List.cons.inj shape).2).1
      contradiction

/-- Nor does anything within an element. -/
theorem Verbatim.not_commentOpen_of_suffix (element : Verbatim) {part : List Char}
    (nonempty : part ≠ []) (within : part.IsSuffix (element.front ++ '<' :: element.back))
    (inside behind : List Symbol) : spell Markup.commentOpen ++ inside ≠ spell part ++ behind := by
  intro shape
  cases part with
  | nil => contradiction
  | cons c part =>
      obtain ⟨first, second⟩ := List.cons.inj shape
      obtain rfl := Symbol.char.inj first
      rw [eq_back_of_suffix within] at second
      exact absurd (Symbol.char.inj (List.cons.inj second).1) (by decide)

/-- A comment that is opened in a clean document is a condition. -/
theorem Atom.exists_of_commentOpen {setAside : List Region} {sheet : Sheet Atom}
    {atoms : List Atom} (within : atoms.IsSuffix sheet.text) {inside : List Symbol}
    (opened : (spell Markup.commentOpen ++ inside).IsSuffix (writeAll setAside atoms)) :
    ∃ rest, inside = ofChar '[' :: rest := by
  induction atoms with
  | nil => exact absurd (List.suffix_nil.mp opened) (by simp [Markup.commentOpen])
  | cons a atoms ih =>
      rcases suffix_or_of_suffix_append opened with further | ⟨part, nonempty, ofFirst, shape⟩
      · exact ih ((List.suffix_cons a atoms).trans within) further
      rcases suffix_write nonempty ofFirst with
        rfl | ⟨element, letters, rfl, nonempty', deeper, rfl⟩
      · cases a with
        | char c =>
            obtain rfl := Symbol.char.inj (List.cons.inj shape).1
            obtain ⟨bracket, behind, bracketed⟩ := Sheet.exists_bracket_of_suffix within
            have written := congrArg (writeAll setAside) bracketed
            rw [writeAll_append, writeAll_spell] at written
            exact bracket.exists_of_commentOpen (written.symm.trans shape.symm)
        | verbatim element =>
            rw [write] at shape
            split at shape
            · exact absurd (List.cons.inj shape).1 (by simp)
            · exact absurd shape (element.not_commentOpen _ _)
      · exact absurd shape (element.not_commentOpen_of_suffix nonempty' deeper _ _)

/-- The comments of a clean document are conditions. -/
theorem Atom.strip_writeAll {setAside : List Region} (sheet : Sheet Atom) :
    Comment.strip (writeAll setAside sheet.text) = writeAll setAside sheet.text :=
  Comment.strip_of_conditions fun _ opened => exists_of_commentOpen List.suffix_rfl opened

end HtmlMinifier
