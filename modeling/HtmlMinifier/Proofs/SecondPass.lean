import HtmlMinifier.Proofs.CleanLines

/-!
# A second pass

The texts of a document are soft after one pass, and its first attributes stand on lines of their
own; a second pass changes nothing.  This holds of every document, also of one in which angle
brackets stand alone or tags within tags.

Two things are needed of a pattern and of what is written for its matches.  What is written for a
match is read again, whatever follows it, and is written as it was.  And where nothing has been
read nothing is read later, when the text behind has been changed: a match neither begins at
another place nor reaches further than before.
-/

namespace HtmlMinifier

open Alphabet

namespace Pattern

variable {α β : Type}

/-- What is written for a match stays when a text is gone through once more, and so does the place
of a symbol that has been kept. -/
structure Steady (pattern : Pattern α β) (write : β → List α) : Prop where
  read_write_append : ∀ {text rest : List α} {found : β},
    pattern.read text = some (found, rest) →
      ∃ again, write again = write found ∧
        ∀ behind, pattern.read (write found ++ behind) = some (again, behind)
  read_cons_replace : ∀ {a : α} {text : List α},
    pattern.read (a :: text) = none → pattern.read (a :: pattern.replace write text) = none

/-- Nothing is left to replace in a second pass. -/
theorem Steady.replace_replace {pattern : Pattern α β} {write : β → List α}
    (steady : pattern.Steady write) (text : List α) :
    pattern.replace write (pattern.replace write text) = pattern.replace write text := by
  induction text using pattern.induction with
  | nil => rw [replace_nil, replace_nil]
  | found text found rest read ih =>
      obtain ⟨again, same, read'⟩ := steady.read_write_append read
      rw [replace_of_some read, replace_of_some (read' _), same, ih]
  | kept a text refused ih =>
      rw [replace_cons_of_none refused, replace_cons_of_none (steady.read_cons_replace refused), ih]

end Pattern

variable {α : Type} [Alphabet α]

/-! ## The edges of text -/

namespace TextEdge

theorem space_eq_nil_iff {run : List α} : space run = [] ↔ run = [] := by
  cases run <;> simp [space]

theorem soften_ne_nil {text : List α} (nonempty : text ≠ []) : soften text ≠ [] := by
  rw [soften_text]
  intro empty
  simp only [List.append_eq_nil_iff, space_eq_nil_iff] at empty
  obtain ⟨leading, core, trailing⟩ := empty
  have inner := List.rdropWhile_append_rtakeWhile (p := isBlank) (l := text.dropWhile isBlank)
  have whole := List.takeWhile_append_dropWhile (p := isBlank) (l := text)
  rw [← inner, leading, core, trailing] at whole
  exact nonempty whole.symm

theorem open_notMem_soften {text : List α} (absent : ofChar '<' ∉ text) :
    ofChar '<' ∉ soften text := fun member =>
  absent ((soften_respaced text).mem_of_mem (by simp [isBlank]) member)

/-- Nothing is read at a `>` if and only if no `<` follows it or one follows at once. -/
theorem read_close_eq_none_iff {text : List α} :
    read (ofChar '>' :: text) = none ↔
      ofChar '<' ∉ text ∨ ∃ rest, text = ofChar '<' :: rest := by
  constructor
  · intro refused
    by_cases opened : ofChar '<' ∈ text
    · obtain ⟨front, back, rfl, absent⟩ := List.eq_append_cons_of_mem opened
      cases front with
      | nil => exact .inr ⟨back, rfl⟩
      | cons a front =>
          rw [read_between absent] at refused
          contradiction
    · exact .inl opened
  · rintro (absent | ⟨rest, rfl⟩)
    · exact read_last absent
    · exact read_between List.not_mem_nil rest

theorem steady : (pattern (α := α)).Steady write where
  read_write_append {text rest content} found := by
    obtain ⟨inside, -, rfl, nonempty, -⟩ := read_eq_some_iff.mp found
    have absent : ofChar '<' ∉ inside.takeWhile fun a => !is '<' a := by
      intro member
      have other := List.mem_takeWhile_imp member
      simp [is] at other
    refine ⟨soften (inside.takeWhile fun a => !is '<' a), ?_, fun behind => ?_⟩
    · rw [write, soften_soften, write]
    · have again := read_between (open_notMem_soften absent) behind
      rw [if_neg (by simpa using soften_ne_nil nonempty)] at again
      rw [write, List.cons_append, List.append_assoc]
      exact again
  read_cons_replace {a text} refused := by
    by_cases close : a = ofChar '>'
    · subst close
      rcases read_close_eq_none_iff.mp refused with absent | ⟨rest, rfl⟩
      · have absent' : ofChar '<' ∉ collapse text := fun member =>
          absent ((collapse_respaced text).mem_of_mem (by simp [isBlank]) member)
        exact read_close_eq_none_iff.mpr (.inl absent')
      · have other : ofChar '>' ∉ [(ofChar '<' : α)] := by simp
        have opened := collapse_append_of_notMem other rest
        exact read_close_eq_none_iff.mpr (.inr ⟨_, opened⟩)
    · exact read_of_ne a _ close

end TextEdge

/-! ## The first attribute -/

namespace Attribute

/-- The tail of a tag ends with the first `>` behind the blanks. -/
theorem exists_content_of_readTail {text tail rest : List α}
    (found : readTail text = some (tail, rest)) :
    ∃ content, content ≠ [] ∧ ofChar '>' ∉ content ∧ tail = content ++ [ofChar '>'] := by
  cases text with
  | nil => simp [readTail] at found
  | cons a text =>
      simp only [readTail, Option.ite_none_right_eq_some] at found
      obtain ⟨cut, closed, found⟩ := Option.bind_eq_some_iff.mp found.2
      simp only [Option.ite_none_left_eq_some, Option.some.injEq, Prod.mk.injEq,
        List.isEmpty_iff] at found
      obtain ⟨nonempty, rfl, -⟩ := found
      obtain ⟨unclosed, close, -⟩ := Reader.upTo_singleton_eq_some_iff.mp closed
      refine ⟨_, nonempty, ?_, by rw [close]⟩
      split
      · intro member
        rw [Option.mem_toList] at member
        have blank := List.mem_takeWhile_imp (List.mem_of_getLast? member)
        simp [isBlank] at blank
      · exact unclosed

/-- A tail that is read behind some blanks is read behind any others. -/
theorem readTail_append_of_readTail {text tail rest run : List α}
    (found : readTail text = some (tail, rest)) (parted : run ≠ [])
    (blanks : ∀ a ∈ run, isBlank a = true) (behind : List α) :
    readTail (run ++ (tail ++ behind)) = some (tail, behind) := by
  obtain ⟨content, nonempty, unclosed, rfl⟩ := exists_content_of_readTail found
  obtain ⟨_, _, -, -, -, -, begins⟩ := exists_run_of_readTail found
  have begins' : (∃ b, isBlank b = true ∧ content = [b]) ∨
      ∀ a ∈ content.head?, isBlank a = false := by
    rcases begins with ⟨b, blank, bare⟩ | inked
    · have same : content ++ [ofChar '>'] = [b] ++ [ofChar '>'] := bare
      exact .inl ⟨b, blank, List.append_cancel_right same⟩
    · rw [List.head?_append_of_ne_nil _ nonempty] at inked
      exact .inr inked
  have again := readTail_append parted blanks nonempty begins' unclosed behind
  simpa using again

/-- More than a single blank in front of a `>` is a run of blanks and something behind it. -/
theorem exists_run_of_ne_nil {a : α} (blank : isBlank a = true) {front : List α}
    (nonempty : front ≠ []) :
    ∃ run content, a :: front = run ++ content ∧ run ≠ [] ∧ (∀ b ∈ run, isBlank b = true) ∧
      content ≠ [] ∧
      ((∃ b, isBlank b = true ∧ content = [b]) ∨ ∀ b ∈ content.head?, isBlank b = false) := by
  by_cases inked : front.dropWhile isBlank = []
  · have blanks := List.dropWhile_eq_nil_iff.mp inked
    obtain ⟨others, b, rfl⟩ := List.eq_nil_or_concat' front |>.resolve_left nonempty
    refine ⟨a :: others, [b], rfl, List.cons_ne_nil _ _, ?_, List.cons_ne_nil _ _,
      .inl ⟨b, blanks b (by simp), rfl⟩⟩
    exact List.forall_mem_cons.mpr
      ⟨blank, fun c member => blanks c (List.mem_append_left [b] member)⟩
  · refine ⟨a :: front.takeWhile isBlank, front.dropWhile isBlank, ?_, List.cons_ne_nil _ _, ?_,
      inked, .inr (inked_head_dropWhile front)⟩
    · rw [List.cons_append, List.takeWhile_append_dropWhile]
    · exact List.forall_mem_cons.mpr ⟨blank, fun _ => List.mem_takeWhile_imp⟩

/-- Nothing is read behind a blank if and only if no `>` follows it or one follows at once. -/
theorem readTail_cons_eq_none_iff {a : α} (blank : isBlank a = true) {text : List α} :
    readTail (a :: text) = none ↔ ofChar '>' ∉ text ∨ ∃ rest, text = ofChar '>' :: rest := by
  constructor
  · intro refused
    by_cases closed : ofChar '>' ∈ text
    · obtain ⟨front, back, rfl, unclosed⟩ := List.eq_append_cons_of_mem closed
      by_cases empty : front = []
      · exact .inr ⟨back, by rw [empty, List.nil_append]⟩
      · obtain ⟨run, content, shape, parted, blanks, nonempty, begins⟩ :=
          exists_run_of_ne_nil blank empty
        have unclosed' : ofChar '>' ∉ content := by
          intro member
          have member' : ofChar '>' ∈ a :: front := shape ▸ List.mem_append_right run member
          rcases List.mem_cons.mp member' with rfl | inFront
          · simp [isBlank] at blank
          · exact unclosed inFront
        have found := readTail_append parted blanks nonempty begins unclosed' back
        rw [← List.append_assoc, ← shape, List.cons_append, refused] at found
        contradiction
    · exact .inl closed
  · rintro (absent | ⟨rest, rfl⟩)
    · rw [Option.eq_none_iff_forall_ne_some]
      rintro ⟨tail, rest⟩ found
      obtain ⟨run, front, -, -, rfl, shape, -⟩ := exists_run_of_readTail found
      have member : ofChar '>' ∈ a :: text := by simp [shape]
      rcases List.mem_cons.mp member with rfl | inText
      · simp [isBlank] at blank
      · exact absent inText
    · have stops : ∀ b ∈ (ofChar '>' :: rest : List α).head?, isBlank b = false := by
        rintro _ ⟨⟩
        simp [isBlank]
      have found := Reader.upTo_append_cons (c := '>') List.not_mem_nil rest
      rw [List.nil_append] at found
      rw [readTail, if_pos blank, dropWhile_eq_self stops, takeWhile_eq_nil stops, found]
      simp

/-- Nothing is read at a `<` if and only if no name follows it, or nothing is read behind the
name. -/
theorem read_open_eq_none_iff {text : List α} :
    read (ofChar '<' :: text) = none ↔
      text.takeWhile isNameSymbol = [] ∨ readTail (text.dropWhile isNameSymbol) = none := by
  have opened : Reader.after? ['<'] (ofChar '<' :: text) = some text :=
    Reader.after?_eq_some_iff.mpr rfl
  rw [read, opened]
  simp only [bind, Option.bind_some, List.isEmpty_iff]
  split
  next nameless => simp [nameless]
  next named => cases readTail (text.dropWhile isNameSymbol) <;> simp [named]

/-- A name is the same when first attributes have moved, and what follows it has moved. -/
theorem parts_reflow (text : List α) :
    (reflow text).takeWhile isNameSymbol = text.takeWhile isNameSymbol ∧
      (reflow text).dropWhile isNameSymbol = reflow (text.dropWhile isNameSymbol) := by
  have symbols : ∀ a ∈ text.takeWhile isNameSymbol, isNameSymbol a = true :=
    fun _ => List.mem_takeWhile_imp
  have unopened : ofChar '<' ∉ text.takeWhile isNameSymbol := by
    intro member
    have symbol := symbols _ member
    simp [isNameSymbol] at symbol
  have stops : ∀ a ∈ (reflow (text.dropWhile isNameSymbol)).head?, isNameSymbol a = false := by
    rw [head?_reflow]
    intro a first
    simpa [Option.mem_def.mp first] using List.head?_dropWhile_not isNameSymbol text
  have moved := reflow_append_of_notMem unopened (text.dropWhile isNameSymbol)
  rw [List.takeWhile_append_dropWhile] at moved
  rw [moved, List.takeWhile_append_of_pos symbols, List.dropWhile_append_of_pos symbols,
    takeWhile_eq_nil stops, dropWhile_eq_self stops, List.append_nil]
  exact ⟨rfl, rfl⟩

/-- Where nothing is read behind a name, nothing is read there when first attributes have
moved. -/
theorem readTail_reflow_eq_none {text : List α} (refused : readTail text = none) :
    readTail (reflow text) = none := by
  cases text with
  | nil => rwa [reflow_nil]
  | cons a text =>
      cases blank : isBlank a with
      | false =>
          have first := head?_reflow (a :: text)
          cases moved : reflow (a :: text) with
          | nil => rfl
          | cons b others =>
              rw [moved, List.head?_cons, List.head?_cons, Option.some.injEq] at first
              simp [readTail, first, blank]
      | true =>
          have other : ofChar '<' ∉ [a] := by
            rw [List.mem_singleton]
            rintro rfl
            simp [isBlank] at blank
          have kept := reflow_append_of_notMem other text
          rw [List.singleton_append, List.singleton_append] at kept
          rw [kept, readTail_cons_eq_none_iff blank]
          rcases (readTail_cons_eq_none_iff blank).mp refused with absent | ⟨rest, rfl⟩
          · exact .inl fun member =>
              absent ((reflow_respaced text).mem_of_mem (by simp [isBlank]) member)
          · have other' : ofChar '<' ∉ [(ofChar '>' : α)] := by simp
            have closed := reflow_append_of_notMem other' rest
            exact .inr ⟨_, closed⟩

theorem steady : (pattern (α := α)).Steady write where
  read_write_append {text rest tag} found := by
    obtain ⟨named, tail, -, nonempty, tailed, rfl⟩ := read_eq_some_iff.mp found
    refine ⟨_, rfl, fun behind => ?_⟩
    have parted : [(ofChar '\n' : α)] ≠ [] := List.cons_ne_nil _ _
    have tailed' := readTail_append_of_readTail tailed parted (by simp [isBlank]) behind
    have again := read_append nonempty (fun _ => List.mem_takeWhile_imp) tailed'
    rw [write, List.append_assoc]
    exact again
  read_cons_replace {a text} refused := by
    by_cases opened : a = ofChar '<'
    · subst opened
      have again : read (ofChar '<' :: reflow text) = none := by
        rw [read_open_eq_none_iff, (parts_reflow text).1, (parts_reflow text).2]
        exact (read_open_eq_none_iff.mp refused).imp_right readTail_reflow_eq_none
      exact again
    · exact read_of_ne a _ opened

end Attribute

/-! ## Both stages -/

/-- Softening the texts of a document once more changes nothing, and neither does moving its first
attributes once more. -/
theorem collapse_collapse_and_reflow_reflow (text : List α) :
    TextEdge.collapse (TextEdge.collapse text) = TextEdge.collapse text ∧
      Attribute.reflow (Attribute.reflow text) = Attribute.reflow text :=
  ⟨TextEdge.steady.replace_replace text, Attribute.steady.replace_replace text⟩

end HtmlMinifier
