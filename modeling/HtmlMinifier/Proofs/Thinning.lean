import HtmlMinifier.Stage
import Mathlib.Data.List.DropRight

/-!
# What a stage may drop

A thinned text is what is left of a text when some of its symbols are dropped and
some of its blanks are exchanged for spaces or line feeds.  Nothing is added, doubled or
moved.  `Thinned may` restricts which symbols may be dropped.

The stages fall in two groups.  The whitespace stages, and the protection of
preformatted text and of text areas, drop blanks only; all others drop what they
like.  No stage leaves the second group except for the close tags of scripts and
of style sheets, which are written anew.
-/

namespace HtmlMinifier

open Alphabet

/-- Nothing is taken off the front of a text that begins with what stays. -/
theorem dropWhile_eq_self {α : Type} {test : α → Bool} {text : List α}
    (stops : ∀ a ∈ text.head?, test a = false) : text.dropWhile test = text := by
  cases text with
  | nil => rfl
  | cons a text => exact List.dropWhile_cons_of_neg (by simp [stops a rfl])

theorem takeWhile_eq_nil {α : Type} {test : α → Bool} {text : List α}
    (stops : ∀ a ∈ text.head?, test a = false) : text.takeWhile test = [] := by
  cases text with
  | nil => rfl
  | cons a text => exact List.takeWhile_cons_of_neg (by simp [stops a rfl])

theorem rdropWhile_eq_self {α : Type} {test : α → Bool} {text : List α}
    (stops : ∀ a ∈ text.getLast?, test a = false) : text.rdropWhile test = text := by
  rw [← List.head?_reverse] at stops
  rw [List.rdropWhile, dropWhile_eq_self stops, List.reverse_reverse]

variable {α : Type} [Alphabet α]

/-- What is left when the blanks at the front have gone begins with another symbol. -/
theorem inked_head_dropWhile (text : List α) :
    ∀ a ∈ (text.dropWhile isBlank).head?, isBlank a = false := by
  intro a first
  simpa [Option.mem_def.mp first] using List.head?_dropWhile_not isBlank text

/-- `Thinned may text' text` says that `text'` is what is left of `text` when
symbols that may be dropped are, and blanks are exchanged for spaces or line feeds. -/
inductive Thinned (may : α → Prop) : List α → List α → Prop
  | nil : Thinned may [] []
  | keep (a : α) {text' text : List α} :
      Thinned may text' text → Thinned may (a :: text') (a :: text)
  | drop {a : α} {text' text : List α} :
      may a → Thinned may text' text → Thinned may text' (a :: text)
  | exchange {a b : α} {text' text : List α} :
      a = ofChar ' ' ∨ a = ofChar '\n' → isBlank b = true → Thinned may text' text →
        Thinned may (a :: text') (b :: text)

/-- Only blanks are dropped or exchanged. -/
abbrev Respaced : List α → List α → Prop :=
  Thinned fun a => isBlank a = true

/-- Characters are dropped, and blanks exchanged.  Opaque symbols stay. -/
abbrev Pruned : List α → List α → Prop :=
  Thinned fun a => ∃ c, a = ofChar c

/-- Any symbols are dropped, and blanks exchanged. -/
abbrev Shortened : List α → List α → Prop :=
  Thinned fun _ => True

namespace Thinned

variable {may : α → Prop} {text text' : List α}

theorem refl (text : List α) : Thinned may text text := by
  induction text with
  | nil => exact nil
  | cons a text ih => exact keep a ih

theorem append {first first' second second' : List α} (front : Thinned may first' first)
    (back : Thinned may second' second) : Thinned may (first' ++ second') (first ++ second) := by
  induction front with
  | nil => exact back
  | keep a _ ih => exact keep a ih
  | drop allowed _ ih => exact drop allowed ih
  | exchange written blank _ ih => exact exchange written blank ih

theorem mono {wider : α → Prop} (allow : ∀ a, may a → wider a)
    (thinned : Thinned may text' text) : Thinned wider text' text := by
  induction thinned with
  | nil => exact nil
  | keep a _ ih => exact keep a ih
  | drop allowed _ ih => exact drop (allow _ allowed) ih
  | exchange written blank _ ih => exact exchange written blank ih

theorem dropAll (allowed : ∀ a ∈ text, may a) : Thinned may [] text := by
  induction text with
  | nil => exact nil
  | cons a text ih =>
      exact drop (allowed a List.mem_cons_self)
        (ih fun b member => allowed b (List.mem_cons_of_mem a member))

theorem dropWhile {test : α → Bool} (allowed : ∀ a, test a = true → may a) (text : List α) :
    Thinned may (text.dropWhile test) text := by
  have dropped : Thinned may [] (text.takeWhile test) :=
    dropAll fun a member => allowed a (List.mem_takeWhile_imp member)
  have kept : Thinned may (text.dropWhile test) (text.dropWhile test) := refl _
  have whole := dropped.append kept
  rwa [List.takeWhile_append_dropWhile] at whole

theorem rdropWhile {test : α → Bool} (allowed : ∀ a, test a = true → may a) (text : List α) :
    Thinned may (text.rdropWhile test) text := by
  have dropped : Thinned may [] (text.rtakeWhile test) :=
    dropAll fun a member => allowed a (List.mem_rtakeWhile_imp member)
  have kept : Thinned may (text.rdropWhile test) (text.rdropWhile test) := refl _
  have whole := kept.append dropped
  rwa [List.rdropWhile_append_rtakeWhile, List.append_nil] at whole

/-- A text that is thinned twice is thinned, provided that blanks may be dropped. -/
theorem trans {text'' : List α} (blanks : ∀ a, isBlank a = true → may a)
    (outer : Thinned may text'' text') (inner : Thinned may text' text) :
    Thinned may text'' text := by
  induction inner generalizing text'' with
  | nil => exact outer
  | keep a _ ih =>
      cases outer with
      | keep _ outer => exact keep a (ih outer)
      | drop allowed outer => exact drop allowed (ih outer)
      | exchange written blank outer => exact exchange written blank (ih outer)
  | drop allowed _ ih => exact drop allowed (ih outer)
  | exchange written blank _ ih =>
      cases outer with
      | keep _ outer => exact exchange written blank (ih outer)
      | drop _ outer => exact drop (blanks _ blank) (ih outer)
      | exchange written' _ outer => exact exchange written' blank (ih outer)

theorem of_sublist (sublist : text'.Sublist text) : Shortened text' text := by
  induction sublist with
  | slnil => exact nil
  | cons a _ ih => exact drop trivial ih
  | cons_cons a _ ih => exact keep a ih

theorem reverse (thinned : Thinned may text' text) : Thinned may text'.reverse text.reverse := by
  induction thinned with
  | nil => exact nil
  | keep a _ ih =>
      rw [List.reverse_cons, List.reverse_cons]
      exact ih.append (refl [a])
  | @drop a _ text allowed _ ih =>
      have last : Thinned may [] [a] := drop allowed nil
      have whole := ih.append last
      rwa [List.append_nil, ← List.reverse_cons] at whole
  | exchange written blank _ ih =>
      rw [List.reverse_cons, List.reverse_cons]
      exact ih.append (exchange written blank nil)

/-- Each end of a thinned text is a thinned end of the text. -/
theorem exists_of_suffix (thinned : Thinned may text' text) {rest' : List α}
    (within : rest'.IsSuffix text') :
    ∃ rest : List α, rest.IsSuffix text ∧ Thinned may rest' rest := by
  induction thinned with
  | nil =>
      obtain rfl := List.suffix_nil.mp within
      exact ⟨[], List.suffix_rfl, nil⟩
  | @keep a text' text thinned ih =>
      rcases List.suffix_cons_iff.mp within with rfl | deeper
      · exact ⟨a :: text, List.suffix_rfl, keep a thinned⟩
      · obtain ⟨rest, inside, left⟩ := ih deeper
        exact ⟨rest, inside.trans (List.suffix_cons a text), left⟩
  | @drop a _ text _ _ ih =>
      obtain ⟨rest, inside, left⟩ := ih within
      exact ⟨rest, inside.trans (List.suffix_cons a text), left⟩
  | @exchange a b text' text written blank thinned ih =>
      rcases List.suffix_cons_iff.mp within with rfl | deeper
      · exact ⟨b :: text, List.suffix_rfl, exchange written blank thinned⟩
      · obtain ⟨rest, inside, left⟩ := ih deeper
        exact ⟨rest, inside.trans (List.suffix_cons b text), left⟩

/-- No symbol is new but spaces and line feeds. -/
theorem mem_or_of_mem (thinned : Thinned may text' text) {a : α} (member : a ∈ text') :
    a ∈ text ∨ a = ofChar ' ' ∨ a = ofChar '\n' := by
  induction thinned with
  | nil => exact Or.inl member
  | keep b _ ih =>
      rcases List.mem_cons.mp member with rfl | further
      · exact Or.inl List.mem_cons_self
      · exact (ih further).imp_left (List.mem_cons_of_mem b)
  | drop _ _ ih => exact (ih member).imp_left (List.mem_cons_of_mem _)
  | exchange written _ _ ih =>
      rcases List.mem_cons.mp member with rfl | further
      · exact Or.inr written
      · exact (ih further).imp_left (List.mem_cons_of_mem _)

/-- What is written in place of a blank is a blank. -/
theorem isBlank_of_written {a : α} (written : a = ofChar ' ' ∨ a = ofChar '\n') :
    isBlank a = true := by
  rcases written with rfl | rfl <;> simp [isBlank]

/-- No symbol but a blank is new. -/
theorem mem_of_mem (thinned : Thinned may text' text) {a : α} (inked : isBlank a = false)
    (member : a ∈ text') : a ∈ text := by
  rcases thinned.mem_or_of_mem member with old | written
  · exact old
  · rw [isBlank_of_written written] at inked
    contradiction

/-- A reading of symbols that passes over blanks and over what may be dropped
reads the same in a thinned text. -/
theorem flatMap_eq {γ : Type} {view : α → List γ} (blanks : ∀ a, isBlank a = true → view a = [])
    (drops : ∀ a, may a → view a = []) (thinned : Thinned may text' text) :
    text'.flatMap view = text.flatMap view := by
  induction thinned with
  | nil => rfl
  | keep a _ ih => rw [List.flatMap_cons, List.flatMap_cons, ih]
  | drop allowed _ ih => rw [List.flatMap_cons, drops _ allowed, List.nil_append, ih]
  | exchange written blank _ ih =>
      rw [List.flatMap_cons, List.flatMap_cons, blanks _ (isBlank_of_written written),
        blanks _ blank, ih]

/-- A reading of symbols that passes over blanks reads no more in a thinned
text. -/
theorem flatMap_sublist {γ : Type} {view : α → List γ}
    (blanks : ∀ a, isBlank a = true → view a = []) (thinned : Thinned may text' text) :
    (text'.flatMap view).Sublist (text.flatMap view) := by
  induction thinned with
  | nil => exact List.Sublist.refl _
  | keep a _ ih => exact ih.append_left (view a)
  | drop _ _ ih => exact ih.trans (List.sublist_append_right _ _)
  | exchange written blank _ ih =>
      rw [List.flatMap_cons, List.flatMap_cons, blanks _ (isBlank_of_written written),
        blanks _ blank]
      exact ih

/-- A thinned text weighs no more where all blanks weigh the same. -/
theorem weight_le {weight : List α → Nat}
    (cons : ∀ a text, weight (a :: text) = weight [a] + weight text)
    (blanks : ∀ a b, isBlank a = true → isBlank b = true → weight [a] = weight [b])
    (thinned : Thinned may text' text) : weight text' ≤ weight text := by
  induction thinned with
  | nil => exact le_rfl
  | @keep a text' text _ ih =>
      rw [cons a text', cons a text]
      exact Nat.add_le_add_left ih _
  | @drop a _ text _ _ ih =>
      rw [cons a text]
      exact ih.trans (Nat.le_add_left _ _)
  | @exchange a b text' text written blank _ ih =>
      rw [cons a text', cons b text, blanks a b (isBlank_of_written written) blank]
      exact Nat.add_le_add_left ih _

end Thinned

theorem Shortened.trans {first second third : List α} (outer : Shortened third second)
    (inner : Shortened second first) : Shortened third first :=
  Thinned.trans (fun _ _ => trivial) outer inner

theorem exists_ofChar_of_isBlank {a : α} (blank : isBlank a = true) : ∃ c, a = ofChar c := by
  obtain ⟨c, -, same⟩ := exists_of_isBlank blank
  exact ⟨c, same⟩

theorem Pruned.trans {first second third : List α} (outer : Pruned third second)
    (inner : Pruned second first) : Pruned third first :=
  Thinned.trans (fun _ => exists_ofChar_of_isBlank) outer inner

theorem Pruned.shortened {first second : List α} (pruned : Pruned second first) :
    Shortened second first :=
  pruned.mono fun _ _ => trivial

theorem Respaced.pruned {first second : List α} (respaced : Respaced second first) :
    Pruned second first :=
  respaced.mono fun _ => exists_ofChar_of_isBlank

/-- A word of characters is dropped. -/
theorem Pruned.dropSpell (letters : List Char) : Pruned [] (spell letters : List α) := by
  apply Thinned.dropAll
  intro a member
  obtain ⟨c, -, rfl⟩ := List.mem_map.mp member
  exact ⟨c, rfl⟩

theorem Respaced.shortened {first second : List α} (respaced : Respaced second first) :
    Shortened second first :=
  respaced.mono fun _ _ => trivial

theorem Respaced.trans {first second third : List α} (outer : Respaced third second)
    (inner : Respaced second first) : Respaced third first :=
  Thinned.trans (fun _ blank => blank) outer inner

namespace Respaced

variable {text text' : List α}

/-- A first symbol that is no blank stays. -/
theorem exists_cons {a : α} (inked : isBlank a = false) (respaced : Respaced text' (a :: text)) :
    ∃ rest, text' = a :: rest ∧ Respaced rest text := by
  have other : ¬ isBlank a = true := Bool.eq_false_iff.mp inked
  cases respaced with
  | keep _ behind => exact ⟨_, rfl, behind⟩
  | drop blank _ => contradiction
  | exchange _ blank _ => contradiction

theorem inked_head (respaced : Respaced text' text)
    (inked : ∀ a ∈ text.head?, isBlank a = false) : ∀ a ∈ text'.head?, isBlank a = false := by
  cases text with
  | nil =>
      cases respaced
      simp
  | cons a text =>
      obtain ⟨rest, rfl, _⟩ := respaced.exists_cons (inked a rfl)
      exact inked

theorem inked_last (respaced : Respaced text' text)
    (inked : ∀ a ∈ text.getLast?, isBlank a = false) :
    ∀ a ∈ text'.getLast?, isBlank a = false := by
  rw [← List.head?_reverse] at inked ⊢
  exact inked_head respaced.reverse inked

/-- Blanks stay blanks. -/
theorem forall_isBlank (respaced : Respaced text' text) (blanks : ∀ a ∈ text, isBlank a = true) :
    ∀ a ∈ text', isBlank a = true := by
  intro a member
  rcases respaced.mem_or_of_mem member with old | written
  · exact blanks a old
  · exact Thinned.isBlank_of_written written

end Respaced

/-- Replacing thins a text when every match is replaced by a thinned match. -/
theorem Pattern.thinned_replace {β : Type} {may : α → Prop} {pattern : Pattern α β}
    {write : β → List α}
    (each : ∀ text found rest, pattern.read text = some (found, rest) →
      ∃ matched, text = matched ++ rest ∧ Thinned may (write found) matched)
    (text : List α) : Thinned may (pattern.replace write text) text :=
  related_replace (Thinned may) Thinned.refl Thinned.append each text

end HtmlMinifier
