import HtmlMinifier.Proofs.Seam
import HtmlMinifier.Proofs.StageEncoding
import HtmlMinifier.Proofs.Symbol
import Mathlib.Data.List.ReduceOption

/-!
# Documents with a hole

A hole stands for a region that has been set aside and of which nothing is known.  It is
opaque, so the stages run over documents with holes as they are, and filling the holes
before a run or behind it makes no difference.

A document whose text has exactly one hole, at whatever depth, fixes what stands before
and behind the filling.  No stage but the removal of comments changes how many holes
there are: all others drop characters only.
-/

namespace HtmlMinifier

open Alphabet

/-! ## Comments around opaque symbols -/

namespace Comment

variable {α : Type} [Alphabet α]

theorem splits : (pattern (α := α)).Splits := by
  intro text content rest found
  obtain ⟨inside, split, opened, closed, rfl, rfl⟩ := read_eq_some_iff.mp found
  have whole := Reader.append_of_upTo (Reader.phrase_faithful _) closed
  rw [Reader.after?_eq_some_iff.mp opened, ← whole, ← List.append_assoc]
  exact List.suffix_append _ _

/-- No comment reaches over an opaque symbol when none is opened before it or none is
closed behind it. -/
theorem strip_append_sealed {a : α} (sealed : char? a = none) {front back : List α}
    (apart : ¬ (spell Markup.commentOpen).IsInfix front ∨
      ¬ (spell Markup.commentClose).IsInfix back) :
    strip (front ++ a :: back) = strip front ++ a :: strip back := by
  have refused : pattern.read (a :: back) = none := by
    have seam := Reader.after?_append_sealed sealed Markup.commentOpen [] back
    simp only [pattern, read, bind]
    rw [← List.nil_append (a :: back), seam]
    rfl
  have seam : ∀ suffix, suffix ≠ [] → suffix.IsSuffix front → pattern.read (suffix ++ a :: back) =
      (pattern.read suffix).map (Prod.map id (· ++ a :: back)) := by
    intro suffix _ within
    simp only [pattern, read, bind]
    rw [Reader.after?_append_sealed sealed]
    cases opened : Reader.after? Markup.commentOpen suffix with
    | none => rfl
    | some inside =>
        have opens : (spell Markup.commentOpen).IsInfix front := by
          rw [Reader.after?_eq_some_iff.mp opened] at within
          exact (List.prefix_append _ inside).isInfix.trans within.isInfix
        have closes : ¬ (spell Markup.commentClose).IsInfix (a :: back) := by
          intro inside
          rcases List.infix_cons_iff.mp inside with start | further
          · rw [← (List.cons_prefix_cons.mp start).1, char?_ofChar] at sealed
            contradiction
          · exact apart.resolve_left (not_not.mpr opens) further
        simp only [Option.map_some, Option.bind_some]
        rw [Reader.upTo_phrase_append_sealed sealed (by decide), Reader.upTo_phrase_eq_none closes]
        cases Reader.upTo (Reader.phrase Markup.commentClose) inside <;> rfl
  rw [strip, Pattern.replace, Pattern.cut_append splits seam, Pattern.cut_cons_of_none refused,
    List.flatMap_append, List.flatMap_cons]
  rfl

end Comment

/-! ## Documents with holes -/

/-- A character, an opaque symbol for what has been set aside, or a hole. -/
inductive Holed where
  | char (c : Char)
  | stored (content : List Holed)
  | hole

namespace Holed

instance : Alphabet Holed where
  ofChar := char
  char?
    | char c => some c
    | stored _ => none
    | hole => none
  char?_ofChar _ := rfl
  ofChar_of_char?_eq_some {a c} found := by
    cases a with
    | char d => exact congrArg char (Option.some.inj found).symm
    | stored content => contradiction
    | hole => contradiction

/-! ## Filling a hole -/

mutual

/-- A symbol with a region in place of each hole. -/
def fill (region : List Symbol) : Holed → Symbol
  | char c => .char c
  | stored content => .stored (fillAll region content)
  | hole => .stored region

/-- A document with a region in place of each hole. -/
def fillAll (region : List Symbol) : List Holed → List Symbol
  | [] => []
  | a :: text => fill region a :: fillAll region text

end

theorem fillAll_eq_map (region : List Symbol) (text : List Holed) :
    fillAll region text = text.map (fill region) := by
  induction text with
  | nil => rfl
  | cons a text ih => rw [fillAll, ih, List.map_cons]

theorem fillAll_append (region : List Symbol) (first second : List Holed) :
    fillAll region (first ++ second) = fillAll region first ++ fillAll region second := by
  simp only [fillAll_eq_map, List.map_append]

/-- Filling holes as an encoding. -/
def filled (region : List Symbol) : Encoding Holed Symbol where
  write a := [fill region a]
  write_ofChar _ := rfl
  exists_foreign a opaque' := by
    cases a with
    | char c => contradiction
    | stored content => exact ⟨_, [], rfl, satisfies_of_char?_eq_none rfl _⟩
    | hole => exact ⟨_, [], rfl, satisfies_of_char?_eq_none rfl _⟩
  inert_of_mem a opaque' b member := by
    rw [List.mem_singleton.mp member]
    cases a with
    | char c => contradiction
    | stored content => exact satisfies_of_char?_eq_none rfl _
    | hole => exact satisfies_of_char?_eq_none rfl _

theorem encode_filled (region : List Symbol) (text : List Holed) :
    (filled region).encode text = fillAll region text := by
  rw [fillAll_eq_map, List.map_eq_flatMap]
  rfl

/-- Characters stay as they are when holes are filled. -/
theorem fillAll_spell (region : List Symbol) (letters : List Char) :
    fillAll region (spell letters) = spell letters := by
  rw [← encode_filled, Encoding.encode_spell]

/-! ## Runs -/

/-- A piece of a document as one symbol. -/
def ofPiece : Piece Holed (List Holed) → Holed
  | .kept a => a
  | .found content => stored content

/-- Takes a document with holes through a stage. -/
def apply (text : List Holed) (stage : Stage) : List Holed :=
  (stage.pieces text).map ofPiece

/-- Takes a document with holes through several stages. -/
def run (text : List Holed) (stages : List Stage) : List Holed :=
  stages.foldl apply text

/-- Holes may be filled before a stage or behind it. -/
theorem apply_fillAll (region : List Symbol) (text : List Holed) (stage : Stage) :
    Symbol.apply (fillAll region text) stage = fillAll region (apply text stage) := by
  rw [← encode_filled, Symbol.apply, stage.pieces_encode, List.map_flatMap, fillAll_eq_map, apply,
    List.map_map, List.map_eq_flatMap]
  congr 1
  funext piece
  cases piece with
  | kept a => rfl
  | found content =>
      exact congrArg (fun inner => [Symbol.stored inner]) (encode_filled region content)

theorem run_fillAll (region : List Symbol) (text : List Holed) (stages : List Stage) :
    Symbol.run (fillAll region text) stages = fillAll region (run text stages) := by
  induction stages generalizing text with
  | nil => rfl
  | cons stage stages ih => rw [Symbol.run_cons, apply_fillAll, ih]; rfl

/-! ## What stands around a hole -/

mutual

/-- The text that a symbol stands for, with the holes left open. -/
def spread : Holed → List (Option Char)
  | char c => [some c]
  | stored content => spreadAll content
  | hole => [none]

/-- The text that a document stands for, with the holes left open. -/
def spreadAll : List Holed → List (Option Char)
  | [] => []
  | a :: text => spread a ++ spreadAll text

end

theorem spreadAll_eq_flatMap (text : List Holed) : spreadAll text = text.flatMap spread := by
  induction text with
  | nil => rfl
  | cons a text ih => rw [spreadAll, ih, List.flatMap_cons]

/-- A character of a text with holes, or what stands in place of a hole. -/
def plug (filling : List Char) : Option Char → List Char
  | some c => [c]
  | none => filling

mutual

theorem flatten_fill (region : List Symbol) : ∀ a : Holed,
    (fill region a).flatten = (spread a).flatMap (plug (Symbol.flattenAll region))
  | char _ => rfl
  | stored content => flattenAll_fillAll region content
  | hole => (List.append_nil _).symm

/-- A filled document stands for its text with the filling in place of each hole. -/
theorem flattenAll_fillAll (region : List Symbol) : ∀ text : List Holed,
    Symbol.flattenAll (fillAll region text) =
      (spreadAll text).flatMap (plug (Symbol.flattenAll region))
  | [] => rfl
  | a :: text => by
      rw [fillAll, Symbol.flattenAll, flatten_fill region a, flattenAll_fillAll region text,
        spreadAll, List.flatMap_append]

end

/-- The holes of a symbol, at every depth. -/
def holes (a : Holed) : List (Option Char) :=
  (spread a).filter Option.isNone

theorem flatMap_holes (text : List Holed) :
    text.flatMap holes = (spreadAll text).filter Option.isNone := by
  rw [spreadAll_eq_flatMap, List.filter_flatMap]
  rfl

theorem holes_ofChar (c : Char) : holes (ofChar c) = [] :=
  rfl

theorem holes_spell (letters : List Char) : (spell letters : List Holed).flatMap holes = [] := by
  rw [List.flatMap_eq_nil_iff]
  intro a member
  obtain ⟨c, -, rfl⟩ := List.mem_map.mp member
  rfl

theorem flatMap_plug_of_filter {text : List (Option Char)} (closed : text.filter Option.isNone = [])
    (filling : List Char) : text.flatMap (plug filling) = text.reduceOption := by
  induction text with
  | nil => rfl
  | cons piece text ih =>
      cases piece with
      | none => simp at closed
      | some c =>
          rw [List.filter_cons_of_neg (by simp)] at closed
          rw [List.flatMap_cons, ih closed, List.reduceOption_cons_of_some]
          rfl

/-- A text without holes is the same for all fillings. -/
theorem exists_of_holes_eq_nil {text : List Holed} (closed : text.flatMap holes = []) :
    ∃ output, ∀ region, Symbol.flattenAll (fillAll region text) = output := by
  rw [flatMap_holes] at closed
  exact ⟨_, fun region => (flattenAll_fillAll region text).trans (flatMap_plug_of_filter closed _)⟩

/-- A text with one hole is the same for all fillings, except for the filling. -/
theorem exists_of_holes_eq_singleton {text : List Holed} (open' : text.flatMap holes = [none]) :
    ∃ front back, ∀ region,
      Symbol.flattenAll (fillAll region text) = front ++ Symbol.flattenAll region ++ back := by
  rw [flatMap_holes] at open'
  obtain ⟨front, back, parts, closed, -, closed'⟩ := List.filter_eq_cons_iff.mp open'
  refine ⟨front.reduceOption, back.reduceOption, fun region => ?_⟩
  have closedFront : front.filter Option.isNone = [] := List.filter_eq_nil_iff.mpr closed
  rw [flattenAll_fillAll, parts, List.flatMap_append, List.flatMap_cons,
    flatMap_plug_of_filter closedFront, flatMap_plug_of_filter closed', List.append_assoc]
  rfl

/-! ## Stages keep holes -/

/-- What is set aside keeps its holes. -/
theorem holes_apply (text : List Holed) (stage : Stage) :
    (apply text stage).flatMap holes =
      ((stage.pieces text).flatMap (Piece.text id)).flatMap holes := by
  rw [apply]
  induction stage.pieces text with
  | nil => rfl
  | cons piece pieces ih =>
      rw [List.map_cons, List.flatMap_cons, List.flatMap_cons, List.flatMap_append, ih]
      congr 1
      cases piece with
      | kept a => exact (List.append_nil _).symm
      | found content => exact (flatMap_holes content).symm

/-- A stage that drops no comments keeps the holes of a document. -/
theorem holes_apply_of_ne {stage : Stage} (other : stage ≠ .comments) (text : List Holed) :
    (apply text stage).flatMap holes = text.flatMap holes := by
  rw [holes_apply, Stage.flatMap_pieces_eq holes_ofChar other]

theorem holes_run_of_notMem {stages : List Stage} (absent : .comments ∉ stages)
    (text : List Holed) : (run text stages).flatMap holes = text.flatMap holes := by
  induction stages generalizing text with
  | nil => rfl
  | cons stage stages ih =>
      obtain ⟨other, absent⟩ := not_or.mp (mt List.mem_cons.mpr absent)
      change (run (apply text stage) stages).flatMap holes = _
      rw [ih absent, holes_apply_of_ne (Ne.symm other)]

/-! ## Holes within comments -/

/-- A hole stands between an opening and a closing marker of comments. -/
def Commented (text : List Holed) : Prop :=
  ∃ front a back, text = front ++ a :: back ∧ holes a ≠ [] ∧
    (spell Markup.commentOpen).IsInfix front ∧ (spell Markup.commentClose).IsInfix back

theorem exists_of_holes_ne_nil {text : List Holed} (some' : text.flatMap holes ≠ []) :
    ∃ front a back, text = front ++ a :: back ∧ holes a ≠ [] := by
  obtain ⟨a, member, opens⟩ : ∃ a ∈ text, holes a ≠ [] := by
    by_contra none
    exact some' (List.flatMap_eq_nil_iff.mpr (by simpa using none))
  obtain ⟨front, back, rfl⟩ := List.append_of_mem member
  exact ⟨front, a, back, rfl, opens⟩

theorem sealed_of_holes_ne_nil {a : Holed} (opens : holes a ≠ []) : char? a = none := by
  cases a with
  | char c => exact absurd (holes_ofChar c) opens
  | stored content => rfl
  | hole => rfl

/-- Of a text with one hole each part has it, or has none. -/
theorem holes_eq_nil_of_singleton {front back : List Holed} {a : Holed}
    (one : (front ++ a :: back).flatMap holes = [none]) (opens : holes a ≠ []) :
    front.flatMap holes = [] ∧ holes a = [none] ∧ back.flatMap holes = [] := by
  rw [List.flatMap_append, List.flatMap_cons] at one
  rcases List.append_eq_singleton_iff.mp one with ⟨first, behind⟩ | ⟨_, behind⟩
  · rcases List.append_eq_singleton_iff.mp behind with ⟨here, _⟩ | ⟨here, last⟩
    · exact absurd here opens
    · exact ⟨first, here, last⟩
  · exact absurd (List.append_eq_nil_iff.mp behind).1 opens

/-- The removal of comments keeps the hole of a document or drops it, and it drops only a
hole between the markers of comments. -/
theorem holes_apply_comments {text : List Holed} (one : text.flatMap holes = [none]) :
    (apply text .comments).flatMap holes = [none] ∨
      (apply text .comments).flatMap holes = [] ∧ Commented text := by
  have stripped : apply text .comments = Comment.strip text := by
    rw [apply, Stage.pieces, List.map_map]
    exact List.map_id _
  have blanks : ∀ a : Holed, isBlank a = true → holes a = [] := by
    intro a blank
    obtain ⟨c, -, rfl⟩ := exists_of_isBlank blank
    exact holes_ofChar c
  have fewer : ∀ text : List Holed,
      ((Comment.strip text).flatMap holes).Sublist (text.flatMap holes) := fun text =>
    (Comment.strip_shortened text).flatMap_sublist blanks
  have nothing : ∀ text : List Holed, text.flatMap holes = [] →
      (Comment.strip text).flatMap holes = [] := fun text none =>
    List.sublist_nil.mp (none ▸ fewer text)
  obtain ⟨front, a, back, rfl, opens⟩ := exists_of_holes_ne_nil (one ▸ List.cons_ne_nil _ _)
  obtain ⟨first, here, last⟩ := holes_eq_nil_of_singleton one opens
  rw [stripped]
  by_cases spans : (spell Markup.commentOpen).IsInfix front ∧
      (spell Markup.commentClose).IsInfix back
  · have within := fewer (front ++ a :: back)
    rw [one] at within
    rcases List.sublist_singleton.mp within with gone | kept
    · exact Or.inr ⟨gone, front, a, back, rfl, opens, spans.1, spans.2⟩
    · exact Or.inl kept
  · left
    rw [Comment.strip_append_sealed (sealed_of_holes_ne_nil opens) (not_and_or.mp spans),
      List.flatMap_append, List.flatMap_cons, nothing front first, nothing back last, here]
    rfl

/-- What is set aside is no character. -/
theorem ofPiece_found_notMem_spell (letters : List Char) (content : List Holed) :
    ofPiece (.found content) ∉ (spell letters : List Holed) := by
  intro member
  obtain ⟨c, -, same⟩ := List.mem_map.mp member
  contradiction

/-- Setting regions aside brings no characters together. -/
theorem isInfix_of_isInfix_apply_protect {region : Region} {letters : List Char}
    {text : List Holed} (inside : (spell letters).IsInfix (apply text (.protect region))) :
    (spell letters).IsInfix text :=
  Pattern.isInfix_of_isInfix_cut region.splits (fun _ => rfl) (ofPiece_found_notMem_spell letters)
    inside

/-- Setting regions aside brings no hole between markers of comments. -/
theorem Commented.of_apply_protect {text : List Holed} {region : Region}
    (commented : Commented (apply text (.protect region))) : Commented text := by
  obtain ⟨front, a, back, shape, opens, opening, closing⟩ := commented
  obtain ⟨first, others, parted, rfl, tail⟩ := List.map_eq_append_iff.mp shape
  obtain ⟨piece, second, rfl, rfl, rfl⟩ := List.map_eq_cons_iff.mp tail
  obtain ⟨start, rest, rfl, covers, cutRest⟩ :=
    Pattern.exists_of_cut_eq_append region.splits parted
  rw [← List.singleton_append] at cutRest
  obtain ⟨middle, last, rfl, -, cutLast⟩ :=
    Pattern.exists_of_cut_eq_append region.splits cutRest
  have opening' : (spell Markup.commentOpen).IsInfix start :=
    covers.isInfix (fun _ => rfl) (ofPiece_found_notMem_spell Markup.commentOpen) opening
  have closing' : (spell Markup.commentClose).IsInfix last := by
    apply isInfix_of_isInfix_apply_protect
    rwa [apply, Stage.pieces, cutLast]
  -- the hole of the piece is a hole of what has become the piece
  have here : middle.flatMap holes = holes (ofPiece piece) := by
    have rest := holes_apply_of_ne (by simp : Stage.protect region ≠ .comments) (middle ++ last)
    have behind := holes_apply_of_ne (by simp : Stage.protect region ≠ .comments) last
    rw [apply, Stage.pieces, cutLast] at behind
    rw [apply, Stage.pieces, cutRest, List.singleton_append, List.map_cons, List.flatMap_cons,
      List.flatMap_append, behind] at rest
    exact (List.append_cancel_right rest).symm
  obtain ⟨before, b, after, rfl, opens'⟩ := exists_of_holes_ne_nil (here ▸ opens)
  exact ⟨start ++ before, b, after ++ last, by simp, opens',
    opening'.trans (List.prefix_append start before).isInfix,
    closing'.trans (List.suffix_append after last).isInfix⟩

end Holed

end HtmlMinifier
