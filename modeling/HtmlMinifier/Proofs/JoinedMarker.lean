import HtmlMinifier.Proofs.Unwrapping

/-!
# Markers that come together

The markers of CDATA sections are erased in two passes: every `<![CDATA[` that stands in a body,
and then every `]]>`.  Neither pass comes back.  What has stood on both sides of a marker stands
together then and can be a marker itself, so that the result may hold one of either kind.

`Rejoins` tells the bodies in which this happens.  The letters of a marker stand in the body in
their order, and what stands between them is closing markers, in which as in the rest opening
markers stand between letters.  The whole must not be a marker that goes in its turn.  A marker is
left exactly if it comes together like this, and erasing once more changes nothing exactly if no
opening one does.  A part of a marker stands right before another marker in every such body.
-/

namespace HtmlMinifier.Unwrapping

/-! ## Erasing a word -/

section Erase

variable {mark : List Char}

@[simp]
theorem erase_nil (mark : List Char) : erase mark [] = [] := by
  rw [erase]

theorem erase_append_self (nonempty : mark ≠ []) (rest : List Char) :
    erase mark (mark ++ rest) = erase mark rest := by
  obtain ⟨m, ms, rfl⟩ := List.exists_cons_of_ne_nil nonempty
  rw [List.cons_append, erase, if_pos ⟨nonempty, List.prefix_append (m :: ms) rest⟩,
    ← List.cons_append, List.drop_left]

theorem erase_cons_of_not_isPrefix {c : Char} {rest : List Char}
    (refused : ¬ mark.IsPrefix (c :: rest)) : erase mark (c :: rest) = c :: erase mark rest := by
  rw [erase, if_neg fun both => refused both.2]

/-- Induction along the walk that erases a word. -/
theorem erase_induction (nonempty : mark ≠ []) {motive : List Char → Prop} (nil : motive [])
    (erased : ∀ rest, motive rest → motive (mark ++ rest))
    (kept : ∀ c rest, ¬ mark.IsPrefix (c :: rest) → motive rest → motive (c :: rest))
    (text : List Char) : motive text := by
  induction length : text.length using Nat.strongRecOn generalizing text with
  | ind n ih =>
      cases text with
      | nil => exact nil
      | cons c text =>
          by_cases here : mark.IsPrefix (c :: text)
          · obtain ⟨rest, whole⟩ := here
            have positive := List.length_pos_iff.mpr nonempty
            have shorter : rest.length < n := by
              rw [← length, ← whole, List.length_append]
              omega
            rw [← whole]
            exact erased rest (ih _ shorter rest rfl)
          · exact kept c text here (ih _ (by simp [← length]) text rfl)

/-- Copies of the word go one after the other. -/
theorem erase_copies_append (nonempty : mark ≠ []) (copies : Nat) (rest : List Char) :
    erase mark ((List.replicate copies mark).flatten ++ rest) = erase mark rest := by
  induction copies with
  | zero => rfl
  | succ copies ih =>
      rw [List.replicate_succ, List.flatten_cons, List.append_assoc, erase_append_self nonempty, ih]

theorem mem_of_mem_copies {copies : Nat} {c : Char}
    (member : c ∈ (List.replicate copies mark).flatten) : c ∈ mark := by
  obtain ⟨copy, among, inCopy⟩ := List.mem_flatten.mp member
  exact List.eq_of_mem_replicate among ▸ inCopy

/-- Two texts are treated one by one when the second begins with no end of the word. -/
theorem erase_append (nonempty : mark ≠ []) {first rest : List Char}
    (apart : ∀ back, back ≠ [] → back.IsSuffix mark.tail → ¬ back.IsPrefix rest) :
    erase mark (first ++ rest) = erase mark first ++ erase mark rest := by
  induction first using erase_induction nonempty with
  | nil => rw [erase_nil, List.nil_append, List.nil_append]
  | erased first ih =>
      rw [List.append_assoc, erase_append_self nonempty, erase_append_self nonempty, ih]
  | kept c first refused ih =>
      have refused' : ¬ mark.IsPrefix (c :: (first ++ rest)) := by
        rintro ⟨more, shape⟩
        rw [← List.cons_append] at shape
        rcases List.append_eq_append_iff.mp shape with ⟨back, whole, -⟩ | ⟨back, whole, behind⟩
        · exact refused ⟨back, whole.symm⟩
        · by_cases empty : back = []
          · exact refused ⟨[], by rw [whole, empty]; simp⟩
          · exact apart back empty ⟨first, by rw [whole]; rfl⟩ ⟨more, behind.symm⟩
      rw [List.cons_append, erase_cons_of_not_isPrefix refused, erase_cons_of_not_isPrefix refused',
        ih, List.cons_append]

theorem erase_sublist (nonempty : mark ≠ []) (text : List Char) :
    (erase mark text).Sublist text := by
  induction text using erase_induction nonempty with
  | nil => simp
  | erased rest ih =>
      rw [erase_append_self nonempty]
      exact ih.trans (List.sublist_append_right mark rest)
  | kept c rest refused ih =>
      rw [erase_cons_of_not_isPrefix refused]
      exact ih.cons_cons c

/-- A text stays as it is if and only if the word does not stand in it. -/
theorem erase_eq_self_iff (nonempty : mark ≠ []) {text : List Char} :
    erase mark text = text ↔ ¬ mark.IsInfix text := by
  induction text using erase_induction nonempty with
  | nil => simp [nonempty]
  | erased rest _ =>
      have here : mark.IsInfix (mark ++ rest) := (List.prefix_append mark rest).isInfix
      have shorter := (erase_sublist nonempty rest).length_le
      have positive := List.length_pos_iff.mpr nonempty
      rw [erase_append_self nonempty]
      constructor
      · intro same
        have length := congrArg List.length same
        rw [List.length_append] at length
        omega
      · exact fun absent => absurd here absent
  | kept c rest refused ih =>
      rw [erase_cons_of_not_isPrefix refused, List.cons.injEq, ih, List.infix_cons_iff]
      simp [refused]

end Erase

/-! ## Torn words -/

/-- `Torn mark word text` says that a text is a word with any number of copies of a mark between
each two of its letters. -/
inductive Torn (mark : List Char) : List Char → List Char → Prop
  | letter (c : Char) : Torn mark [c] [c]
  | cons (c : Char) (copies : Nat) {word text : List Char} (further : Torn mark word text) :
      Torn mark (c :: word) (c :: ((List.replicate copies mark).flatten ++ text))

namespace Torn

variable {mark word text : List Char}

/-- A torn word, from its first letter on. -/
theorem exists_of_cons {c : Char} (torn : Torn mark (c :: word) text) :
    (word = [] ∧ text = [c]) ∨
      ∃ copies rest, Torn mark word rest ∧
        text = c :: ((List.replicate copies mark).flatten ++ rest) := by
  cases torn with
  | letter => exact .inl ⟨rfl, rfl⟩
  | cons _ copies further => exact .inr ⟨copies, _, further, rfl⟩

/-- A torn word begins with its first letter. -/
theorem exists_eq_cons {c : Char} (torn : Torn mark (c :: word) text) :
    ∃ behind, text = c :: behind := by
  cases torn <;> exact ⟨_, rfl⟩

theorem text_ne_nil (torn : Torn mark word text) : text ≠ [] := by
  cases torn <;> exact List.cons_ne_nil _ _

theorem mem_or_mem (torn : Torn mark word text) {c : Char} (member : c ∈ text) :
    c ∈ word ∨ c ∈ mark := by
  induction torn with
  | letter d => exact .inl member
  | cons d copies further ih =>
      rcases List.mem_cons.mp member with rfl | behind
      · exact .inl List.mem_cons_self
      · rcases List.mem_append.mp behind with inCopies | inText
        · exact .inr (mem_of_mem_copies inCopies)
        · exact (ih inText).imp_left (List.mem_cons_of_mem d)

/-- Behind the first letter stand further letters of the word and of the mark only. -/
theorem notMem_tail (torn : Torn mark word text) {c : Char} (unlike : c ∉ word.tail)
    (unmarked : c ∉ mark) : c ∉ text.tail := by
  cases torn with
  | letter d => exact List.not_mem_nil
  | cons d copies further =>
      intro member
      rcases List.mem_append.mp member with inCopies | inText
      · exact unmarked (mem_of_mem_copies inCopies)
      · exact (further.mem_or_mem inText).elim unlike unmarked

/-- A mark that tears a word stands behind a part of it. -/
theorem eq_or_isPrefix (torn : Torn mark word text) :
    text = word ∨ ∃ front back, word = front ++ back ∧ front ≠ [] ∧ back ≠ [] ∧
      (front ++ mark).IsPrefix text := by
  induction torn with
  | letter c => exact .inl rfl
  | @cons c copies word text further ih =>
      cases copies with
      | succ copies =>
          have nonempty : word ≠ [] := by
            rintro rfl
            cases further
          refine .inr ⟨[c], word, rfl, List.cons_ne_nil c [], nonempty, ?_⟩
          rw [List.replicate_succ, List.flatten_cons, List.append_assoc, List.singleton_append]
          exact List.cons_prefix_cons.mpr ⟨rfl, List.prefix_append _ _⟩
      | zero =>
          rcases ih with rfl | ⟨front, back, rfl, -, hasBack, start⟩
          · exact .inl rfl
          · exact .inr ⟨c :: front, back, rfl, List.cons_ne_nil c front, hasBack,
              List.cons_prefix_cons.mpr ⟨rfl, start⟩⟩

/-- A torn word comes out whole where its letters are not the first of the mark. -/
theorem erase_append_of_notMem {m : Char} {ms : List Char} (torn : Torn (m :: ms) word text)
    (unmarked : m ∉ word) (rest : List Char) :
    erase (m :: ms) (text ++ rest) = word ++ erase (m :: ms) rest := by
  have kept : ∀ {c : Char} {word : List Char}, m ∉ c :: word →
      ∀ behind, ¬ (m :: ms).IsPrefix (c :: behind) := by
    intro c word unmarked behind start
    obtain ⟨rfl, -⟩ := List.cons_prefix_cons.mp start
    exact unmarked List.mem_cons_self
  induction torn with
  | letter c => exact erase_cons_of_not_isPrefix (kept unmarked rest)
  | cons c copies further ih =>
      rw [List.cons_append, erase_cons_of_not_isPrefix (kept unmarked _), List.append_assoc,
        erase_copies_append (List.cons_ne_nil m ms),
        ih fun among => unmarked (List.mem_cons_of_mem c among), List.cons_append]

end Torn

/-! ## What erasing brings together -/

section Together

variable {mark word text : List Char}

/-- A word at the front of what is left stands torn in the text, behind marks. -/
theorem exists_torn_of_isPrefix (nonempty : mark ≠ []) (word_ne_nil : word ≠ [])
    (start : word.IsPrefix (erase mark text)) :
    ∃ copies torn, Torn mark word torn ∧
      ((List.replicate copies mark).flatten ++ torn).IsPrefix text := by
  induction text using erase_induction nonempty generalizing word with
  | nil =>
      rw [erase_nil] at start
      exact absurd (List.prefix_nil.mp start) word_ne_nil
  | erased rest ih =>
      rw [erase_append_self nonempty] at start
      obtain ⟨copies, torn, tears, within⟩ := ih word_ne_nil start
      refine ⟨copies + 1, torn, tears, ?_⟩
      rw [List.replicate_succ, List.flatten_cons, List.append_assoc]
      exact (List.prefix_append_right_inj mark).mpr within
  | kept c rest refused ih =>
      rw [erase_cons_of_not_isPrefix refused] at start
      obtain ⟨d, word, rfl⟩ := List.exists_cons_of_ne_nil word_ne_nil
      obtain ⟨rfl, further⟩ := List.cons_prefix_cons.mp start
      by_cases last : word = []
      · subst last
        exact ⟨0, [d], .letter d, by simp⟩
      · obtain ⟨copies, torn, tears, within⟩ := ih last further
        exact ⟨0, _, .cons d copies tears, List.cons_prefix_cons.mpr ⟨rfl, within⟩⟩

/-- A word in what is left stands torn in the text, and is not the mark as a whole. -/
theorem exists_torn_of_isInfix (nonempty : mark ≠ []) (word_ne_nil : word ≠ [])
    (inside : word.IsInfix (erase mark text)) :
    ∃ torn, Torn mark word torn ∧ torn ≠ mark ∧ torn.IsInfix text := by
  induction text using erase_induction nonempty with
  | nil =>
      rw [erase_nil] at inside
      exact absurd (List.infix_nil.mp inside) word_ne_nil
  | erased rest ih =>
      rw [erase_append_self nonempty] at inside
      obtain ⟨torn, tears, other, within⟩ := ih inside
      exact ⟨torn, tears, other, within.trans (List.suffix_append mark rest).isInfix⟩
  | kept c rest refused ih =>
      have here := erase_cons_of_not_isPrefix refused
      rw [here] at inside
      rcases List.infix_cons_iff.mp inside with start | further
      · rw [← here] at start
        obtain ⟨copies, torn, tears, within⟩ := exists_torn_of_isPrefix nonempty word_ne_nil start
        cases copies with
        | zero =>
            refine ⟨torn, tears, ?_, List.IsPrefix.isInfix within⟩
            rintro rfl
            exact refused within
        | succ copies =>
            -- the walk would have erased the first of the copies
            rw [List.replicate_succ, List.flatten_cons, List.append_assoc] at within
            exact absurd ((List.prefix_append mark _).trans within) refused
      · obtain ⟨torn, tears, other, within⟩ := ih further
        exact ⟨torn, tears, other, within.trans (List.suffix_cons c rest).isInfix⟩

/-- A torn word comes out whole where no mark begins with its first letter. -/
theorem Torn.isInfix_erase {m c : Char} {ms : List Char} (torn : Torn (m :: ms) (c :: word) text)
    (unmarked : m ∉ word) (unlike : c ∉ ms) (kept : ∀ rest, ¬ (m :: ms).IsPrefix (text ++ rest))
    {body : List Char} (inside : text.IsInfix body) :
    (c :: word).IsInfix (erase (m :: ms) body) := by
  obtain ⟨front, rest, rfl⟩ := inside
  have apart : ∀ back, back ≠ [] → back.IsSuffix (m :: ms).tail →
      ¬ back.IsPrefix (text ++ rest) := by
    intro back nonempty ending start
    obtain ⟨b, back, rfl⟩ := List.exists_cons_of_ne_nil nonempty
    obtain ⟨behind, rfl⟩ := torn.exists_eq_cons
    obtain ⟨rfl, -⟩ := List.cons_prefix_cons.mp start
    exact unlike (ending.subset List.mem_cons_self)
  have whole : erase (m :: ms) (text ++ rest) = c :: word ++ erase (m :: ms) rest := by
    have refused := kept rest
    rcases torn.exists_of_cons with ⟨rfl, rfl⟩ | ⟨copies, behind, further, rfl⟩
    · exact erase_cons_of_not_isPrefix refused
    · rw [List.cons_append] at refused
      rw [List.cons_append, erase_cons_of_not_isPrefix refused, List.append_assoc,
        erase_copies_append (List.cons_ne_nil m ms), further.erase_append_of_notMem unmarked]
      rfl
  rw [List.append_assoc, erase_append (List.cons_ne_nil m ms) apart, whole, ← List.append_assoc]
  exact ⟨_, _, rfl⟩

/-- A word that is torn twice stands at the front of the result only if it has not been torn. -/
theorem Torn.eq_of_isPrefix {k m : Char} {ks ms inner rest : List Char}
    (torn : Torn (k :: ks) word inner) (again : Torn (m :: ms) inner text)
    (first : k ∉ word.tail) (second : m ∉ word.tail) (start : word.IsPrefix (text ++ rest)) :
    text = word := by
  induction torn generalizing text with
  | letter c =>
      rcases again.exists_of_cons with ⟨-, rfl⟩ | ⟨_, _, further, -⟩
      · rfl
      · cases further
  | @cons c copies word inner further ih =>
      cases word with
      | nil => cases further
      | cons d word =>
          rcases again.exists_of_cons with ⟨empty, -⟩ | ⟨copies', behind, further', rfl⟩
          · exact absurd (List.append_eq_nil_iff.mp empty).2 further.text_ne_nil
          · obtain ⟨-, start⟩ := List.cons_prefix_cons.mp start
            cases copies' with
            | succ copies' =>
                obtain ⟨rfl, -⟩ := List.cons_prefix_cons.mp start
                exact absurd List.mem_cons_self second
            | zero =>
                cases copies with
                | succ copies =>
                    obtain ⟨_, rfl⟩ := further'.exists_eq_cons
                    obtain ⟨rfl, -⟩ := List.cons_prefix_cons.mp start
                    exact absurd List.mem_cons_self first
                | zero =>
                    have whole : behind = d :: word :=
                      ih further' (fun among => first (List.mem_cons_of_mem d among))
                        (fun among => second (List.mem_cons_of_mem d among)) start
                    rw [whole]
                    rfl

end Together

/-! ## Closing markers -/

section Closing

theorem cdataClose_ne_nil : Markup.cdataClose ≠ [] :=
  List.cons_ne_nil _ _

theorem erase_cdataClose_bracket {copies : Nat} {rest : List Char}
    (kept : copies = 0 → ¬ Markup.cdataClose.IsPrefix (']' :: rest)) :
    erase Markup.cdataClose (']' :: ((List.replicate copies Markup.cdataClose).flatten ++ rest)) =
      ']' :: erase Markup.cdataClose rest := by
  have refused : ¬ Markup.cdataClose.IsPrefix
      (']' :: ((List.replicate copies Markup.cdataClose).flatten ++ rest)) := by
    cases copies with
    | zero => exact kept rfl
    | succ copies =>
        simp [Markup.cdataClose, List.replicate_succ]
  rw [erase_cons_of_not_isPrefix refused, erase_copies_append cdataClose_ne_nil]

/-- A closing marker comes together from any that is torn by closing markers. -/
theorem Torn.cdataClose_isInfix_erase {text body : List Char}
    (torn : Torn Markup.cdataClose Markup.cdataClose text) (other : text ≠ Markup.cdataClose)
    (inside : text.IsInfix body) :
    Markup.cdataClose.IsInfix (erase Markup.cdataClose body) := by
  obtain ⟨front, rest, rfl⟩ := inside
  obtain ⟨⟨⟩, -⟩ | ⟨i, _, behind, rfl⟩ := torn.exists_of_cons
  obtain ⟨⟨⟩, -⟩ | ⟨j, _, last, rfl⟩ := behind.exists_of_cons
  obtain ⟨-, rfl⟩ | ⟨_, _, ⟨⟩, -⟩ := last.exists_of_cons
  have apart : ∀ back, back ≠ [] → back.IsSuffix Markup.cdataClose.tail →
      ¬ back.IsPrefix (']' :: ((List.replicate i Markup.cdataClose).flatten ++
        ']' :: ((List.replicate j Markup.cdataClose).flatten ++ ['>'])) ++ rest) := by
    intro back nonempty ending start
    simp only [Markup.cdataClose, List.tail_cons, List.suffix_cons_iff, List.suffix_nil] at ending
    obtain rfl | rfl | rfl := ending
    · cases i <;> simp [Markup.cdataClose, List.replicate_succ] at start
    · simp at start
    · exact nonempty rfl
  have copied : i = 0 → ¬ Markup.cdataClose.IsPrefix
      (']' :: ']' :: ((List.replicate j Markup.cdataClose).flatten ++ '>' :: rest)) := by
    rintro rfl start
    cases j with
    | zero => exact other rfl
    | succ j => simp [Markup.cdataClose, List.replicate_succ] at start
  have single : j = 0 → ¬ Markup.cdataClose.IsPrefix (']' :: '>' :: rest) := by
    simp [Markup.cdataClose]
  have closed : ¬ Markup.cdataClose.IsPrefix ('>' :: rest) := by
    simp [Markup.cdataClose]
  refine ⟨erase Markup.cdataClose front, erase Markup.cdataClose rest, ?_⟩
  rw [List.append_assoc front, erase_append cdataClose_ne_nil apart]
  simp only [List.cons_append, List.append_assoc, List.nil_append]
  rw [erase_cdataClose_bracket copied, erase_cdataClose_bracket single,
    erase_cons_of_not_isPrefix closed]
  rfl

end Closing

/-! ## Bodies -/

section Bodies

variable {word body : List Char}

/-- A word comes together in a body: it stands there torn by closing markers, and what that is
stands there torn by opening ones.  Neither is a marker as a whole. -/
def Rejoins (word body : List Char) : Prop :=
  ∃ inner text, Torn Markup.cdataClose word inner ∧ inner ≠ Markup.cdataClose ∧
    Torn Markup.cdataOpen inner text ∧ text ≠ Markup.cdataOpen ∧ text.IsInfix body

theorem cdataOpen_ne_nil : Markup.cdataOpen ≠ [] :=
  List.cons_ne_nil _ _

theorem Rejoins.of_isInfix (nonempty : word ≠ [])
    (inside : word.IsInfix (erase Markup.cdataClose (erase Markup.cdataOpen body))) :
    Rejoins word body := by
  obtain ⟨inner, tears, other, within⟩ :=
    exists_torn_of_isInfix cdataClose_ne_nil nonempty inside
  obtain ⟨text, again, other', within'⟩ :=
    exists_torn_of_isInfix cdataOpen_ne_nil tears.text_ne_nil within
  exact ⟨inner, text, tears, other, again, other', within'⟩

theorem Rejoins.cdataOpen_isInfix (rejoins : Rejoins Markup.cdataOpen body) :
    Markup.cdataOpen.IsInfix (erase Markup.cdataClose (erase Markup.cdataOpen body)) := by
  obtain ⟨inner, text, tears, -, again, other, inside⟩ := rejoins
  obtain ⟨tail, rfl⟩ := tears.exists_eq_cons
  have unmarked : '<' ∉ tail := tears.notMem_tail (by decide) (by decide)
  have standing : ∀ rest, ¬ Markup.cdataOpen.IsPrefix (text ++ rest) := by
    intro rest start
    exact other (tears.eq_of_isPrefix again (by decide) (by decide) start)
  have kept : ∀ rest, ¬ Markup.cdataClose.IsPrefix ('<' :: tail ++ rest) := by
    simp [Markup.cdataClose]
  exact tears.isInfix_erase (by decide) (by decide) kept
    (again.isInfix_erase unmarked (by decide) standing inside)

theorem Rejoins.cdataClose_isInfix (rejoins : Rejoins Markup.cdataClose body) :
    Markup.cdataClose.IsInfix (erase Markup.cdataClose (erase Markup.cdataOpen body)) := by
  obtain ⟨inner, text, tears, other, again, -, inside⟩ := rejoins
  obtain ⟨tail, rfl⟩ := tears.exists_eq_cons
  have unmarked : '<' ∉ tail := tears.notMem_tail (by decide) (by decide)
  have standing : ∀ rest, ¬ Markup.cdataOpen.IsPrefix (text ++ rest) := by
    obtain ⟨behind, rfl⟩ := again.exists_eq_cons
    simp [Markup.cdataOpen]
  exact tears.cdataClose_isInfix_erase other
    (again.isInfix_erase unmarked (by decide) standing inside)

theorem eraseCdata_of_isInfix (opened : Markup.cdataOpen.IsInfix body) :
    Wrapper.eraseCdata body = erase Markup.cdataClose (erase Markup.cdataOpen body) := by
  rw [eraseCdata_eq, withoutCdata, if_pos opened]

theorem eraseCdata_eq_self_iff :
    Wrapper.eraseCdata body = body ↔ ¬ Markup.cdataOpen.IsInfix body := by
  constructor
  · intro same opened
    rw [eraseCdata_of_isInfix opened] at same
    have longer : body.Sublist (erase Markup.cdataOpen body) := by
      have closed := erase_sublist cdataClose_ne_nil (erase Markup.cdataOpen body)
      rwa [same] at closed
    have unchanged := (erase_sublist cdataOpen_ne_nil body).antisymm longer
    exact (erase_eq_self_iff cdataOpen_ne_nil).mp unchanged opened
  · intro unopened
    rw [eraseCdata_eq, withoutCdata, if_neg unopened]

theorem cdataOpen_isInfix_eraseCdata_iff (opened : Markup.cdataOpen.IsInfix body) :
    Markup.cdataOpen.IsInfix (Wrapper.eraseCdata body) ↔ Rejoins Markup.cdataOpen body := by
  rw [eraseCdata_of_isInfix opened]
  exact ⟨Rejoins.of_isInfix cdataOpen_ne_nil, Rejoins.cdataOpen_isInfix⟩

theorem cdataClose_isInfix_eraseCdata_iff (opened : Markup.cdataOpen.IsInfix body) :
    Markup.cdataClose.IsInfix (Wrapper.eraseCdata body) ↔ Rejoins Markup.cdataClose body := by
  rw [eraseCdata_of_isInfix opened]
  exact ⟨Rejoins.of_isInfix cdataClose_ne_nil, Rejoins.cdataClose_isInfix⟩

/-- The markers that are left in a body are those that come together, and erasing once more
changes nothing if and only if no opening one does. -/
theorem markers_eraseCdata_iff_rejoins (body : List Char) :
    (Markup.cdataOpen.IsInfix body →
      (Markup.cdataOpen.IsInfix (Wrapper.eraseCdata body) ↔ Rejoins Markup.cdataOpen body) ∧
      (Markup.cdataClose.IsInfix (Wrapper.eraseCdata body) ↔ Rejoins Markup.cdataClose body)) ∧
    (Wrapper.eraseCdata (Wrapper.eraseCdata body) = Wrapper.eraseCdata body ↔
      (Markup.cdataOpen.IsInfix body → ¬ Rejoins Markup.cdataOpen body)) := by
  refine ⟨fun opened =>
    ⟨cdataOpen_isInfix_eraseCdata_iff opened, cdataClose_isInfix_eraseCdata_iff opened⟩, ?_⟩
  rw [eraseCdata_eq_self_iff]
  by_cases opened : Markup.cdataOpen.IsInfix body
  · rw [cdataOpen_isInfix_eraseCdata_iff opened, forall_prop_of_true opened]
  · have unchanged := eraseCdata_eq_self_iff.mpr opened
    rw [unchanged]
    exact iff_of_true opened fun here => absurd here opened

/-- A marker may come together from both sides of another one, and goes only when markers are
erased once more; a closing one is left for good where no opening one is. -/
theorem eraseCdata_eraseCdata_ne :
    Markup.cdataOpen.IsInfix "<![CD<![CDATA[ATA[x".toList ∧
      Wrapper.eraseCdata "<![CD<![CDATA[ATA[x".toList = "<![CDATA[x".toList ∧
      Wrapper.eraseCdata (Wrapper.eraseCdata "<![CD<![CDATA[ATA[x".toList) = "x".toList ∧
      Wrapper.eraseCdata "<![CDATA[]]]]>>x".toList = "]]>x".toList := by
  decide +kernel

/-! ## Where markers come together -/

/-- A marker comes together only where a part of a marker stands right before another one. -/
theorem Rejoins.exists_isInfix (marker : word = Markup.cdataOpen ∨ word = Markup.cdataClose)
    (rejoins : Rejoins word body) :
    ∃ front back mark, (front ++ back = Markup.cdataOpen ∨ front ++ back = Markup.cdataClose) ∧
      front ≠ [] ∧ back ≠ [] ∧ (mark = Markup.cdataOpen ∨ mark = Markup.cdataClose) ∧
      (front ++ mark).IsInfix body := by
  obtain ⟨inner, text, tears, other, again, other', inside⟩ := rejoins
  rcases tears.eq_or_isPrefix with rfl | ⟨front, back, rfl, hasFront, hasBack, start⟩
  · -- only opening markers tear the word
    have opening := marker.resolve_right other
    rcases again.eq_or_isPrefix with same | ⟨front, back, whole, hasFront, hasBack, start⟩
    · exact absurd (same.trans opening) other'
    · exact ⟨front, back, Markup.cdataOpen, .inl (whole ▸ opening), hasFront, hasBack, .inl rfl,
        start.isInfix.trans inside⟩
  · rcases again.eq_or_isPrefix with rfl | ⟨front', back', whole, hasFront', -, start'⟩
    · exact ⟨front, back, Markup.cdataClose, marker, hasFront, hasBack, .inr rfl,
        start.isInfix.trans inside⟩
    · -- the first opening marker stands before, in or behind the first closing one
      have within := start'.isInfix.trans inside
      rcases List.prefix_or_prefix_of_prefix ⟨back', whole.symm⟩ start with ⟨rest, shape⟩ | long
      · rcases List.append_eq_append_iff.mp shape with ⟨part, rfl, -⟩ | ⟨part, rfl, closing⟩
        · rw [List.append_assoc] at marker
          exact ⟨front', part ++ back, Markup.cdataOpen, marker, hasFront',
            List.append_ne_nil_of_right_ne_nil part hasBack, .inl rfl, within⟩
        · by_cases noPart : part = []
          · rw [noPart, List.append_nil] at within
            exact ⟨front, back, Markup.cdataOpen, marker, hasFront, hasBack, .inl rfl, within⟩
          · by_cases noRest : rest = []
            · rw [noRest, List.append_nil] at closing
              rw [← closing] at within
              exact ⟨front, back, Markup.cdataClose, marker, hasFront, hasBack, .inr rfl,
                (List.prefix_append _ _).isInfix.trans within⟩
            · rw [List.append_assoc] at within
              exact ⟨part, rest, Markup.cdataOpen, .inr closing.symm, noPart, noRest, .inl rfl,
                (List.suffix_append front _).isInfix.trans within⟩
      · exact ⟨front, back, Markup.cdataClose, marker, hasFront, hasBack, .inr rfl,
          ((long.trans (List.prefix_append front' _)).isInfix).trans within⟩

end Bodies

end HtmlMinifier.Unwrapping
