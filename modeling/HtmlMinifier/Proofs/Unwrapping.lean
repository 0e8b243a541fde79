import HtmlMinifier.Proofs.Seam
import Mathlib.Data.List.DropRight
import Mathlib.Data.List.Infix

/-!
# What is taken off a script or a style sheet

A script loses the two halves of a comment and the marks of its CDATA sections, one after the
other and each at most in one way: the mark `<!--` at its front, with the blanks around it; the
mark `-->` at its end, with the blanks around it and with a `//` in front; every `<![CDATA[` and
then every `]]>`, if there is a `<![CDATA[`; and the margins.  A style sheet keeps its `//`, and
the blanks that only margins would take.

The minifier looks for the closing half from the front on, at every place where it might begin.
`dropEnd_eq_withoutClosing` shows that this is the same as taking it off from the end.
-/

namespace HtmlMinifier

open Alphabet

/-! ## From the ends -/

namespace Unwrapping

/-- What `behind` makes of the text behind a comment's opening mark, or the whole body where no
such mark stands at its front. -/
def withoutOpening (behind : List Char → List Char) (body : List Char) : List Char :=
  ((body.dropWhile isBlank).dropPrefix? Markup.commentOpen).elim body behind

/-- What `before` makes of the text before a comment's closing mark, or the whole body where no
such mark stands at its end. -/
def withoutClosing (before : List Char → List Char) (body : List Char) : List Char :=
  ((body.rdropWhile isBlank).dropSuffix? Markup.commentClose).elim body before

/-- A text without the blanks at its end, and without `//` and the blanks before that. -/
def withoutLineComment (code : List Char) : List Char :=
  let code := code.rdropWhile isBlank
  (code.dropSuffix? Markup.lineComment).elim code (List.rdropWhile isBlank)

/-- Deletes a word wherever it stands, from left to right. -/
def erase (word text : List Char) : List Char :=
  match text with
  | [] => []
  | c :: rest =>
      if word ≠ [] ∧ word.IsPrefix (c :: rest) then erase word ((c :: rest).drop word.length)
      else c :: erase word rest
termination_by text.length
decreasing_by
  next here =>
    have positive := List.length_pos_iff.mpr here.1
    simp only [List.length_drop, List.length_cons]
    omega
  next => exact Nat.lt_succ_self _

/-- A body without the marks of its CDATA sections, if one is opened in it. -/
def withoutCdata (body : List Char) : List Char :=
  if Markup.cdataOpen.IsInfix body then erase Markup.cdataClose (erase Markup.cdataOpen body)
  else body

def withoutMargins (text : List Char) : List Char :=
  (text.dropWhile isMargin).rdropWhile isMargin

/-- A script without its wrapper. -/
def script (body : List Char) : List Char :=
  withoutMargins (withoutCdata
    (withoutClosing withoutLineComment (withoutOpening (List.dropWhile isBlank) body)))

/-- A style sheet without its wrapper. -/
def style (body : List Char) : List Char :=
  withoutMargins (withoutCdata (withoutClosing id (withoutOpening id body)))

/-- The halves of a comment share no symbol, and only one of them is taken off. -/
example : script "<!-->".toList = ">".toList ∧
    script "<!-- <!-- a // //\n//\n--> -->".toList = "<!-- a // //\n//\n-->".toList ∧
    script "<!<![CDATA[-- ]]]]>> -->".toList = "<!-- ]]>".toList := by
  decide +kernel

end Unwrapping

/-! ## The opening half -/

theorem Reader.after?_eq_dropPrefix? (word text : List Char) :
    after? word text = text.dropPrefix? word := by
  ext rest
  rw [after?_eq_some_iff, spell_char, List.dropPrefix?_eq_some_iff]
  simp

namespace Unwrapping

/-! ## The closing half -/

theorem rdropWhile_append_of_forall {test : Char → Bool} {run : List Char}
    (all : ∀ c ∈ run, test c = true) (text : List Char) :
    (text ++ run).rdropWhile test = text.rdropWhile test := by
  rw [List.rdropWhile, List.reverse_append, List.dropWhile_append_of_pos (by simpa using all),
    List.rdropWhile]

/-- A text that ends in a word, blanks behind it left aside. -/
theorem rdropWhile_eq_append_iff {word : List Char} (nonempty : word ≠ [])
    (inked : ∀ c ∈ word.getLast?, isBlank c = false) {text front : List Char} :
    text.rdropWhile isBlank = front ++ word ↔
      ∃ run, (∀ c ∈ run, isBlank c = true) ∧ text = front ++ (word ++ run) := by
  constructor
  · intro core
    have parts := List.rdropWhile_append_rtakeWhile (p := isBlank) (l := text)
    refine ⟨text.rtakeWhile isBlank, fun _ => List.mem_rtakeWhile_imp, ?_⟩
    rw [← List.append_assoc, ← core, parts]
  · rintro ⟨run, blanks, rfl⟩
    rw [← List.append_assoc, rdropWhile_append_of_forall blanks]
    apply rdropWhile_eq_self
    rwa [List.getLast?_append_of_ne_nil _ nonempty]

theorem rdropWhile_eq_append_commentClose_iff {text front : List Char} :
    text.rdropWhile isBlank = front ++ Markup.commentClose ↔
      ∃ run, (∀ c ∈ run, isBlank c = true) ∧ text = front ++ (Markup.commentClose ++ run) :=
  rdropWhile_eq_append_iff (List.cons_ne_nil _ _) (by rintro _ ⟨⟩; rfl)

theorem rdropWhile_eq_append_lineComment_iff {text front : List Char} :
    text.rdropWhile isBlank = front ++ Markup.lineComment ↔
      ∃ run, (∀ c ∈ run, isBlank c = true) ∧ text = front ++ (Markup.lineComment ++ run) :=
  rdropWhile_eq_append_iff (List.cons_ne_nil _ _) (by rintro _ ⟨⟩; rfl)

theorem dropEnd_append {isEnd : List Char → Bool} {front back : List Char}
    (ends : isEnd back = true)
    (least : ∀ suffix, suffix ≠ [] → suffix.IsSuffix front → isEnd (suffix ++ back) = false) :
    Wrapper.dropEnd isEnd (front ++ back) = front := by
  have found : Reader.upTo (fun rest => if isEnd rest then some (rest, []) else none)
      (front ++ back) = some ⟨front, back, []⟩ := by
    induction front with
    | nil => exact Reader.upTo_of_some (if_pos ends)
    | cons c front ih =>
        have refused : isEnd (c :: (front ++ back)) = false :=
          least (c :: front) (List.cons_ne_nil c front) List.suffix_rfl
        have behind := ih fun suffix nonempty within =>
          least suffix nonempty (within.trans (List.suffix_cons c front))
        rw [List.cons_append, Reader.upTo_cons_of_none (by simp [refused]), behind]
        rfl
  rw [Wrapper.dropEnd, found]

theorem dropEnd_eq_self {isEnd : List Char → Bool} {text : List Char}
    (never : ∀ suffix, suffix.IsSuffix text → isEnd suffix = false) :
    Wrapper.dropEnd isEnd text = text := by
  obtain ⟨dropped, whole, rfl | ends⟩ := Wrapper.exists_append_dropEnd isEnd text
  · rw [List.append_nil] at whole
    exact whole.symm
  · rw [never dropped ⟨_, whole.symm⟩] at ends
    contradiction

/-- A closing half is what may lead to the mark `-->`, the mark itself and blanks.  To drop the
longest one is to take it off the end, if `before` takes off the longest lead. -/
theorem dropEnd_eq_withoutClosing {isEnd : List Char → Bool} {IsLead : List Char → Prop}
    {before : List Char → List Char}
    (ends : ∀ text, isEnd text = true ↔
      ∃ lead, IsLead lead ∧ text.rdropWhile isBlank = lead ++ Markup.commentClose)
    (longest : ∀ code, ∃ lead, IsLead lead ∧ code = before code ++ lead ∧
      ∀ suffix, suffix ≠ [] → suffix.IsSuffix (before code) → ¬ IsLead (suffix ++ lead))
    (body : List Char) : Wrapper.dropEnd isEnd body = withoutClosing before body := by
  rw [withoutClosing]
  cases closed : (body.rdropWhile isBlank).dropSuffix? Markup.commentClose with
  | none =>
      apply dropEnd_eq_self
      rintro suffix ⟨front, rfl⟩
      rw [Bool.eq_false_iff]
      intro ending
      obtain ⟨lead, -, core⟩ := (ends suffix).mp ending
      obtain ⟨run, blanks, rfl⟩ := rdropWhile_eq_append_commentClose_iff.mp core
      have whole : (front ++ (lead ++ (Markup.commentClose ++ run))).rdropWhile isBlank =
          (front ++ lead) ++ Markup.commentClose :=
        rdropWhile_eq_append_commentClose_iff.mpr ⟨run, blanks, (List.append_assoc _ _ _).symm⟩
      have found := List.dropSuffix?_eq_some_iff.mpr ⟨_, whole, beq_self_eq_true _⟩
      rw [closed] at found
      contradiction
  | some code =>
      obtain ⟨_, core, same⟩ := List.dropSuffix?_eq_some_iff.mp closed
      rw [eq_of_beq same] at core
      obtain ⟨run, blanks, rfl⟩ := rdropWhile_eq_append_commentClose_iff.mp core
      obtain ⟨lead, isLead, split, least⟩ := longest code
      have shape : code ++ (Markup.commentClose ++ run) =
          before code ++ (lead ++ (Markup.commentClose ++ run)) := by
        rw [← List.append_assoc (before code), ← split]
      rw [shape, Option.elim_some]
      apply dropEnd_append
      · exact (ends _).mpr
          ⟨lead, isLead, rdropWhile_eq_append_commentClose_iff.mpr ⟨run, blanks, rfl⟩⟩
      · intro suffix nonempty within
        rw [Bool.eq_false_iff]
        intro ending
        obtain ⟨lead', isLead', core'⟩ := (ends _).mp ending
        have core'' := rdropWhile_eq_append_commentClose_iff.mpr
          ⟨run, blanks, (List.append_assoc suffix lead (Markup.commentClose ++ run)).symm⟩
        rw [core'', List.append_left_inj] at core'
        exact least suffix nonempty within (core' ▸ isLead')

theorem isClosing_iff {text : List Char} :
    Wrapper.isClosing text = true ↔
      ∃ run, (∀ c ∈ run, isBlank c = true) ∧ text = Markup.commentClose ++ run := by
  rw [Wrapper.isClosing]
  cases closed : Reader.after? Markup.commentClose text with
  | none =>
      refine iff_of_false (by simp) ?_
      rintro ⟨run, -, rfl⟩
      have found : Reader.after? Markup.commentClose (Markup.commentClose ++ run) = some run :=
        Reader.after?_eq_some_iff.mpr (by rw [spell_char])
      rw [found] at closed
      contradiction
  | some rest =>
      obtain rfl := Reader.after?_eq_some_iff.mp closed
      simp

/-- Nothing leads to the closing mark of a style sheet. -/
theorem dropEnd_isClosing (body : List Char) :
    Wrapper.dropEnd Wrapper.isClosing body = withoutClosing id body := by
  have ends : ∀ text, Wrapper.isClosing text = true ↔
      ∃ lead, lead = [] ∧ text.rdropWhile isBlank = lead ++ Markup.commentClose := by
    intro text
    simp only [isClosing_iff, exists_eq_left, rdropWhile_eq_append_commentClose_iff,
      List.nil_append]
  have longest : ∀ code : List Char, ∃ lead, lead = [] ∧ code = id code ++ lead ∧
      ∀ suffix, suffix ≠ [] → suffix.IsSuffix (id code) → ¬ suffix ++ lead = [] := by
    intro code
    refine ⟨[], rfl, (List.append_nil code).symm, ?_⟩
    intro suffix nonempty _
    rwa [List.append_nil]
  exact dropEnd_eq_withoutClosing ends longest body

/-- Blanks, and perhaps `//` among them, which lead to the closing mark of a script. -/
def IsLead (lead : List Char) : Prop :=
  ∃ front slashes back, (∀ c ∈ front, isBlank c = true) ∧ (∀ c ∈ back, isBlank c = true) ∧
    (slashes = [] ∨ slashes = Markup.lineComment) ∧ lead = front ++ (slashes ++ back)

theorem isScriptClosing_iff {text : List Char} :
    Wrapper.isScriptClosing text = true ↔
      ∃ lead, IsLead lead ∧ text.rdropWhile isBlank = lead ++ Markup.commentClose := by
  rw [Wrapper.isScriptClosing, isClosing_iff]
  constructor
  · rintro ⟨run, blanks, closing⟩
    have front := List.takeWhile_append_dropWhile (p := isBlank) (l := text)
    obtain ⟨slashes, choice, split⟩ : ∃ slashes,
        (slashes = [] ∨ slashes = Markup.lineComment) ∧ text.dropWhile isBlank =
          slashes ++ (Reader.after? Markup.lineComment (text.dropWhile isBlank)).getD
            (text.dropWhile isBlank) := by
      cases found : Reader.after? Markup.lineComment (text.dropWhile isBlank) with
      | none => exact ⟨[], .inl rfl, rfl⟩
      | some rest =>
          have shape := Reader.after?_eq_some_iff.mp found
          rw [spell_char] at shape
          exact ⟨Markup.lineComment, .inr rfl, shape⟩
    generalize (Reader.after? Markup.lineComment (text.dropWhile isBlank)).getD
      (text.dropWhile isBlank) = rest at closing split
    have back := List.takeWhile_append_dropWhile (p := isBlank) (l := rest)
    refine ⟨_, ⟨text.takeWhile isBlank, slashes, rest.takeWhile isBlank,
      fun _ => List.mem_takeWhile_imp, fun _ => List.mem_takeWhile_imp, choice, rfl⟩,
      rdropWhile_eq_append_commentClose_iff.mpr ⟨run, blanks, ?_⟩⟩
    rw [List.append_assoc, List.append_assoc, ← closing, back, ← split, front]
  · rintro ⟨lead, ⟨front, slashes, back, blank, blank', choice, rfl⟩, core⟩
    obtain ⟨run, blanks, rfl⟩ := rdropWhile_eq_append_commentClose_iff.mp core
    refine ⟨run, blanks, ?_⟩
    have closing : (back ++ (Markup.commentClose ++ run)).dropWhile isBlank =
        Markup.commentClose ++ run := by
      rw [List.dropWhile_append_of_pos blank']
      exact dropWhile_eq_self (by rintro _ ⟨⟩; rfl)
    rw [List.append_assoc, List.append_assoc, List.dropWhile_append_of_pos blank]
    rcases choice with rfl | rfl
    · have refused : Reader.after? Markup.lineComment (Markup.commentClose ++ run) = none :=
        Reader.after?_cons_of_ne '/' (by decide) _
      rw [List.nil_append, closing, refused, Option.getD_none]
      exact dropWhile_eq_self (by rintro _ ⟨⟩; rfl)
    · have opened : Reader.after? Markup.lineComment
          (Markup.lineComment ++ (back ++ (Markup.commentClose ++ run))) =
          some (back ++ (Markup.commentClose ++ run)) :=
        Reader.after?_eq_some_iff.mpr (by rw [spell_char])
      have stops : ∀ rest, (Markup.lineComment ++ rest).dropWhile isBlank =
          Markup.lineComment ++ rest := fun rest =>
        dropWhile_eq_self (by rintro _ ⟨⟩; rfl)
      rw [stops, opened, Option.getD_some, closing]

/-- An end of a text that has lost its blanks behind is none of blanks. -/
theorem getLast?_of_suffix_rdropWhile {text suffix : List Char} (nonempty : suffix ≠ [])
    (within : suffix.IsSuffix (text.rdropWhile isBlank)) :
    ∀ c ∈ suffix.getLast?, isBlank c = false := by
  intro c last
  have core : text.rdropWhile isBlank ≠ [] := fun empty =>
    nonempty (List.suffix_nil.mp (empty ▸ within))
  have inked := List.rdropWhile_last_not isBlank text core
  obtain ⟨front, whole⟩ := within
  rw [List.getLast?_eq_some_getLast nonempty] at last
  have same : (text.rdropWhile isBlank).getLast core = suffix.getLast nonempty := by
    simp only [← whole]
    exact List.getLast_append_of_ne_nil _ nonempty
  rw [same, Option.some.inj last] at inked
  exact Bool.eq_false_iff.mpr inked

theorem isLead_iff {lead : List Char} :
    IsLead lead ↔ (∀ c ∈ lead, isBlank c = true) ∨
      ∃ front, (∀ c ∈ front, isBlank c = true) ∧
        lead.rdropWhile isBlank = front ++ Markup.lineComment := by
  simp only [rdropWhile_eq_append_lineComment_iff]
  constructor
  · rintro ⟨front, slashes, back, blank, blank', rfl | rfl, rfl⟩
    · exact .inl (List.forall_mem_append.mpr ⟨blank, blank'⟩)
    · exact .inr ⟨front, blank, back, blank', rfl⟩
  · rintro (blank | ⟨front, blank, back, blank', rfl⟩)
    · exact ⟨[], [], lead, by simp, blank, .inl rfl, rfl⟩
    · exact ⟨front, _, back, blank, blank', .inr rfl, rfl⟩

/-- What is taken off before the closing mark of a script is the longest that may lead to it. -/
theorem longest_isLead (code : List Char) :
    ∃ lead, IsLead lead ∧ code = withoutLineComment code ++ lead ∧
      ∀ suffix, suffix ≠ [] → suffix.IsSuffix (withoutLineComment code) →
        ¬ IsLead (suffix ++ lead) := by
  have parts := List.rdropWhile_append_rtakeWhile (p := isBlank) (l := code)
  have behind : ∀ c ∈ code.rtakeWhile isBlank, isBlank c = true := fun _ => List.mem_rtakeWhile_imp
  have notBlank : ∀ {text suffix lead : List Char}, suffix ≠ [] →
      suffix.IsSuffix (text.rdropWhile isBlank) → ¬ ∀ c ∈ suffix ++ lead, isBlank c = true := by
    intro text suffix lead nonempty within blank
    have last := List.getLast?_eq_some_getLast nonempty
    have inked := getLast?_of_suffix_rdropWhile nonempty within _ last
    rw [blank _ (List.mem_append_left _ (List.getLast_mem nonempty))] at inked
    contradiction
  rw [withoutLineComment]
  cases closed : (code.rdropWhile isBlank).dropSuffix? Markup.lineComment with
  | none =>
      rw [Option.elim_none]
      refine ⟨code.rtakeWhile isBlank, isLead_iff.mpr (.inl behind), parts.symm, ?_⟩
      intro suffix nonempty within isLead
      rcases isLead_iff.mp isLead with blank | ⟨front, -, slashes⟩
      · exact notBlank nonempty within blank
      · rw [rdropWhile_append_of_forall behind,
          rdropWhile_eq_self (getLast?_of_suffix_rdropWhile nonempty within)] at slashes
        obtain ⟨before, whole⟩ := within
        rw [slashes, ← List.append_assoc] at whole
        have found := List.dropSuffix?_eq_some_iff.mpr ⟨_, whole.symm, beq_self_eq_true _⟩
        rw [closed] at found
        contradiction
  | some core =>
      obtain ⟨_, split, same⟩ := List.dropSuffix?_eq_some_iff.mp closed
      rw [eq_of_beq same] at split
      have blanks : ∀ c ∈ core.rtakeWhile isBlank, isBlank c = true :=
        fun _ => List.mem_rtakeWhile_imp
      have slashed : ∀ front : List Char,
          (front ++ (Markup.lineComment ++ code.rtakeWhile isBlank)).rdropWhile isBlank =
            front ++ Markup.lineComment := fun front =>
        rdropWhile_eq_append_lineComment_iff.mpr ⟨_, behind, rfl⟩
      rw [Option.elim_some]
      refine ⟨core.rtakeWhile isBlank ++ (Markup.lineComment ++ code.rtakeWhile isBlank),
        isLead_iff.mpr (.inr ⟨_, blanks, slashed _⟩), ?_, ?_⟩
      · have parts' := List.rdropWhile_append_rtakeWhile (p := isBlank) (l := core)
        conv_lhs => rw [← parts, split, ← parts']
        simp only [List.append_assoc]
      · intro suffix nonempty within isLead
        rcases isLead_iff.mp isLead with blank | ⟨front, blank, slashes⟩
        · exact notBlank nonempty within blank
        · rw [← List.append_assoc, slashed, List.append_left_inj] at slashes
          exact notBlank nonempty within (slashes ▸ blank)

theorem dropEnd_isScriptClosing (body : List Char) :
    Wrapper.dropEnd Wrapper.isScriptClosing body = withoutClosing withoutLineComment body :=
  dropEnd_eq_withoutClosing (fun _ => isScriptClosing_iff) longest_isLead body

/-! ## The marks of CDATA sections -/

theorem replace_phrase_eq_erase {word : List Char} (nonempty : word ≠ []) (text : List Char) :
    (Pattern.phrase word nonempty).replace (fun _ => []) text = erase word text := by
  induction text using (Pattern.phrase (α := Char) word nonempty).induction with
  | nil => simp [erase]
  | found text match' rest found ih =>
      have whole := Pattern.append_of_read_phrase found
      rw [spell_char] at whole
      rw [Pattern.replace_of_some found, ih, List.nil_append]
      cases text with
      | nil => simp at found
      | cons c text =>
          rw [erase, if_pos ⟨nonempty, rest, whole.symm⟩, whole, List.drop_left]
  | kept c text refused ih =>
      have absent : ¬ (word ≠ [] ∧ word.IsPrefix (c :: text)) := by
        rintro ⟨-, rest, whole⟩
        have here : Reader.after? word (c :: text) = some rest :=
          Reader.after?_eq_some_iff.mpr (by rw [spell_char, whole])
        simp [Pattern.phrase, here] at refused
      rw [Pattern.replace_cons_of_none refused, ih, erase, if_neg absent]

theorem eraseCdata_eq (body : List Char) : Wrapper.eraseCdata body = withoutCdata body := by
  rw [Wrapper.eraseCdata, withoutCdata, Wrapper.cdataClose, Wrapper.cdataOpen,
    replace_phrase_eq_erase, replace_phrase_eq_erase]
  simp only [Reader.occurs_iff_isInfix]

/-! ## Whole bodies -/

theorem script_eq (body : List Char) : Wrapper.script body = script body := by
  rw [Wrapper.script, eraseCdata_eq, Wrapper.uncommentScript, dropEnd_isScriptClosing,
    Wrapper.opened?, Reader.after?_eq_dropPrefix?]
  rfl

theorem style_eq (body : List Char) : Wrapper.style body = style body := by
  have opened : withoutOpening id body = (Wrapper.opened? body).getD body := by
    rw [withoutOpening, Wrapper.opened?, Reader.after?_eq_dropPrefix?]
    cases (body.dropWhile isBlank).dropPrefix? Markup.commentOpen <;> rfl
  rw [Wrapper.style, eraseCdata_eq, Wrapper.uncommentStyle, dropEnd_isClosing, ← opened]
  rfl

end Unwrapping

end HtmlMinifier
