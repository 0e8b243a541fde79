import HtmlMinifier.Proofs.BlankRun
import HtmlMinifier.Proofs.Content
import HtmlMinifier.Proofs.Seam
import Mathlib.Data.List.Infix

/-!
# A comment in front of a document

A plain comment in front of a document has no effect, as long as no script and no
style sheet reaches from the comment into the document.  These are set aside before
comments are dropped, so the text of a comment can open a script that a close tag of
the document ends.  What stands between is then lost with the comment, or the comment
is not closed any more.

`Region.Apart` says that nothing of the kind happens.  It is asked of the comment and
of the document as each is for itself before scripts, and before style sheets, are set
aside.
-/

namespace HtmlMinifier

open Alphabet

variable {α : Type} [Alphabet α]

/-! ## Comments and what comes before them -/

namespace Comment

/-- A comment, as it is written. -/
def text (content : List α) : List α :=
  spell Markup.commentOpen ++ content ++ spell Markup.commentClose

theorem text_append (content rest : List α) :
    text content ++ rest =
      spell Markup.commentOpen ++ (content ++ (spell Markup.commentClose ++ rest)) := by
  simp [text]

/-- A comment ends at the first closing marker behind its opening one. -/
theorem upTo_close_append {content : List α}
    (unclosed : ¬ (spell Markup.commentClose).IsInfix content) (rest : List α) :
    Reader.upTo (Reader.phrase Markup.commentClose)
        (content ++ (spell Markup.commentClose ++ rest)) =
      some ⟨content, spell Markup.commentClose, rest⟩ := by
  induction content with
  | nil => exact Reader.upTo_of_some (Reader.phrase_eq_some_iff.mpr ⟨rfl, rfl⟩)
  | cons a content ih =>
      have behind := ih fun inside => unclosed (inside.trans (List.suffix_cons a content).isInfix)
      have refused : Reader.phrase Markup.commentClose
          (a :: (content ++ (spell Markup.commentClose ++ rest))) = none := by
        cases read : Reader.phrase Markup.commentClose
            (a :: (content ++ (spell Markup.commentClose ++ rest))) with
        | none => rfl
        | some pair =>
            obtain ⟨-, shape⟩ := Reader.phrase_eq_some_iff.mp read
            -- a marker that reaches over the end of the content has a hyphen for its `>`
            rcases content with _ | ⟨b, _ | ⟨d, content⟩⟩
            · simp [Markup.commentClose] at shape
            · simp [Markup.commentClose] at shape
            · simp only [Markup.commentClose, spell_cons, spell_nil, List.cons_append,
                List.cons.injEq] at shape
              obtain ⟨rfl, rfl, rfl, -⟩ := shape
              exact absurd (List.prefix_append _ content).isInfix unclosed
      rw [List.cons_append, Reader.upTo_cons_of_none refused, behind]
      rfl

/-- A plain comment is dropped. -/
theorem strip_text_append {content : List α}
    (unclosed : ¬ (spell Markup.commentClose).IsInfix content)
    (plain : isConditional content = false) (rest : List α) :
    strip (text content ++ rest) = strip rest := by
  have read : pattern.read (text content ++ rest) = some (content, rest) := by
    rw [text_append]
    exact read_eq_some_iff.mpr
      ⟨_, _, Reader.after?_eq_some_iff.mpr rfl, upTo_close_append unclosed rest, rfl, rfl⟩
  rw [strip, Pattern.replace_of_some read, residue, plain]
  rfl

end Comment

namespace Margin

theorem trim_text_append (content : List α) {rest : List α}
    (inked : ∀ a ∈ rest.head?, isMargin a = false) :
    trim (Comment.text content ++ rest) = Comment.text content ++ trim rest := by
  have stays : rest.dropWhile isMargin = rest := by
    cases rest with
    | nil => rfl
    | cons a rest => exact List.dropWhile_cons_of_neg (by simp [inked a rfl])
  have front : (Comment.text content ++ rest).dropWhile isMargin = Comment.text content ++ rest :=
    List.dropWhile_cons_of_neg (by simp [isMargin])
  have last : ∀ rest, Comment.text content ++ rest =
      (spell Markup.commentOpen ++ content ++ spell ['-', '-']) ++ ofChar '>' :: rest := by
    simp [Comment.text, Markup.commentClose]
  rw [trim, trim, front, stays, last, last]
  exact rdropWhile_append_cons (by simp [isMargin]) _ rest

/-- The margins of a document with a comment in front are those behind it. -/
theorem normalize_text_append (content : List α) {rest : List α}
    (inked : ∀ a ∈ rest.head?, isMargin a = false) :
    normalize (Comment.text content ++ rest) =
      Comment.text (joinLines content) ++ normalize rest := by
  have kept : ∀ letters : List Char, '\r' ∉ letters → ∀ rest : List α,
      joinLines (spell letters ++ rest) = spell letters ++ joinLines rest :=
    fun letters absent => joinLines_append_of_notMem (by simpa using absent)
  calc
    normalize (Comment.text content ++ rest) =
        joinLines (spell Markup.commentOpen ++
          (content ++ (spell Markup.commentClose ++ trim rest))) := by
      rw [normalize, trim_text_append content inked, Comment.text_append]
      rfl
    _ = spell Markup.commentOpen ++ (joinLines content ++
          joinLines (spell Markup.commentClose ++ trim rest)) := by
      rw [kept _ (by decide)]
      exact congrArg (spell Markup.commentOpen ++ ·)
        (joinLines_append_cons (by simp) content _)
    _ = Comment.text (joinLines content) ++ normalize rest := by
      rw [kept _ (by decide), Comment.text_append]
      rfl

end Margin

/-! ## Regions that stay apart -/

namespace Region

/-- No region reaches from one text into another: what is opened in the first is closed
there, or the second has no close tag. -/
def Apart (region : Region) (first second : List α) : Prop :=
  (∀ suffix ∈ first.tails, Element.opens region.name suffix = true →
    (Element.read region.name suffix).isSome = true) ∨
    (Reader.upTo (Reader.phraseAnyCase (Markup.closeTag region.name)) second).isNone = true

instance (region : Region) (first second : List α) : Decidable (region.Apart first second) :=
  inferInstanceAs (Decidable (_ ∨ _))

/-- What holds neither blanks nor open angle brackets opens no element. -/
theorem not_opens_append (region : Region) {letters : List Char}
    (plain : ∀ c ∈ letters, isBlank c = false ∧ c ≠ '<') {suffix : List α} (nonempty : suffix ≠ [])
    (within : suffix.IsSuffix (spell letters)) (rest : List α) :
    Element.opens region.name (suffix ++ rest) = false := by
  obtain ⟨a, suffix, rfl⟩ := List.exists_cons_of_ne_nil nonempty
  obtain ⟨c, member, rfl⟩ := List.mem_map.mp (within.subset List.mem_cons_self)
  obtain ⟨inked, other⟩ := plain c member
  have inked' : isBlank (ofChar c : α) = false := (satisfies_ofChar _ c).trans inked
  exact Element.not_opens_of_ne region.name inked' (by simpa using other) _

/-- The opening marker of a comment opens no element. -/
theorem not_opens_commentOpen (region : Region) {suffix : List α} (nonempty : suffix ≠ [])
    (within : suffix.IsSuffix (spell Markup.commentOpen)) (rest : List α) :
    Element.opens region.name (suffix ++ rest) = false := by
  rcases List.suffix_cons_iff.mp within with rfl | within
  · cases region <;> simp [Element.opens, Reader.name, Reader.phraseAnyCase, Markup.openTag, name,
      Reader.word, isBlank, isAnyCase]
  · have plain : ∀ c ∈ ['!', '-', '-'], isBlank c = false ∧ c ≠ '<' := by decide
    exact region.not_opens_append plain nonempty within rest

theorem unhyphened_name (region : Region) : ∀ c ∈ region.name, c.toLower ≠ '-' := by
  cases region <;> decide

/-- A region that is left open in the content of a comment is not closed behind it. -/
theorem Apart.upTo_close {region : Region} {content rest suffix : List α}
    (apart : region.Apart (Comment.text content) rest) (within : suffix.IsSuffix content)
    (opens : Element.opens region.name suffix = true)
    (refused : Element.read region.name suffix = none) :
    Reader.upTo (Reader.phraseAnyCase (Markup.closeTag region.name))
      (spell Markup.commentClose ++ rest) = none := by
  have passed : ∀ {rest : List α},
      Reader.upTo (Reader.phraseAnyCase (Markup.closeTag region.name)) rest = none →
        Reader.upTo (Reader.phraseAnyCase (Markup.closeTag region.name))
          (spell Markup.commentClose ++ rest) = none := by
    intro rest absent
    have closing : (ofChar '<' : α) ∉ (spell Markup.commentClose : List α) := by
      simp [Markup.commentClose]
    rw [Markup.closeTag, Reader.upTo_angle_append closing, ← Markup.closeTag, absent,
      Option.map_none]
  rcases apart with closed | absent
  · have alone : Element.read region.name (suffix ++ spell Markup.commentClose) = none := by
      have seam : Element.read region.name (suffix ++ ofChar '-' :: spell ['-', '>']) = _ :=
        Element.read_append_hyphen region.unhyphened_name fun _ _ =>
          passed (Reader.upTo_nil_of_none rfl)
      rwa [refused] at seam
    have opens' : Element.opens region.name (suffix ++ spell Markup.commentClose) = true :=
      (Element.opens_append_hyphen region.unhyphened_name suffix _).trans opens
    have inside : (suffix ++ spell Markup.commentClose).IsSuffix (Comment.text content) := by
      obtain ⟨front, rfl⟩ := within
      exact ⟨spell Markup.commentOpen ++ front, by simp [Comment.text]⟩
    have found := closed _ ((List.mem_tails _ _).mpr inside) opens'
    rw [alone] at found
    contradiction
  · exact passed (Option.isNone_iff_eq_none.mp absent)

/-- The markers of a comment are kept, and so is what stands between them where no
region is. -/
theorem cut_text_append (region : Region) {content rest : List α}
    (apart : region.Apart (Comment.text content) rest) :
    region.pattern.cut (Comment.text content ++ rest) =
      (spell Markup.commentOpen).map .kept ++ (region.pattern.cut content ++
        ((spell Markup.commentClose).map .kept ++ region.pattern.cut rest)) := by
  rw [Comment.text_append, Pattern.cut_append_of_refused, Pattern.cut_append region.splits,
    Pattern.cut_append_of_refused]
  · intro suffix nonempty within
    exact read_of_not_opens (region.not_opens_append (by decide) nonempty within rest)
  · intro suffix _ within
    have seam := Element.read_append_hyphen region.unhyphened_name (apart.upTo_close within)
    rw [read_pattern, read_pattern]
    exact (congrArg _ seam).trans (by cases Element.read region.name suffix <;> rfl)
  · intro suffix nonempty within
    exact read_of_not_opens (region.not_opens_commentOpen nonempty within _)

end Region

/-! ## Plain comments -/

namespace Comment

/-- A content that neither closes its comment nor makes it a condition. -/
structure Plain (content : List α) : Prop where
  unclosed : ¬ (spell Markup.commentClose).IsInfix content
  unbracketed : ¬ (spell ['[']).IsPrefix content
  unmarked : ¬ (spell Markup.sectionOpen).IsInfix content

theorem Plain.not_isConditional {content : List α} (plain : Plain content) :
    isConditional content = false := by
  rw [isConditional, Bool.or_eq_false_iff]
  constructor
  · cases bracket : Reader.after? ['['] content with
    | none => rfl
    | some rest =>
        exact absurd ⟨rest, (Reader.after?_eq_some_iff.mp bracket).symm⟩ plain.unbracketed
  · rw [Reader.occurs, Reader.upTo_phrase_eq_none plain.unmarked]
    rfl

/-- A content stays plain when matches within it are exchanged for other symbols. -/
theorem Plain.cut {β : Type} {pattern : Pattern α β} (splits : pattern.Splits)
    {view : Piece α β → α} (keeps : ∀ a, view (.kept a) = a)
    (foreign : ∀ b, view (.found b) ∉ spell (Markup.commentClose ++ Markup.sectionOpen))
    {content : List α} (plain : Plain content) : Plain ((pattern.cut content).map view) := by
  have foreignIn : ∀ letters : List Char, letters ⊆ Markup.commentClose ++ Markup.sectionOpen →
      ∀ b, view (.found b) ∉ spell letters := fun letters within b member =>
    foreign b (List.map_subset ofChar within member)
  constructor
  · exact fun inside => plain.unclosed
      (Pattern.isInfix_of_isInfix_cut splits keeps (foreignIn _ (by decide)) inside)
  · exact fun front => plain.unbracketed
      (Pattern.isPrefix_of_isPrefix_cut splits keeps (foreignIn _ (by decide)) front)
  · exact fun inside => plain.unmarked
      (Pattern.isInfix_of_isInfix_cut splits keeps (foreignIn _ (by decide)) inside)

theorem Plain.joinLines {content : List α} (plain : Plain content) :
    Plain (Margin.joinLines content) := by
  rw [Margin.joinLines_eq_map]
  exact plain.cut Margin.lineEnd_splits (fun _ => rfl) (by simp [Margin.ofLineEnd,
    Markup.commentClose, Markup.sectionOpen])

end Comment

namespace Symbol

theorem plain_start {content : String} (plain : Comment.Plain content.toList) :
    Comment.Plain (start content) := by
  have written : ∀ (front : List Symbol) (letters : List Char) (back : List Symbol),
      front ++ letters.map char ++ back = start content →
        flattenAll front ++ letters ++ flattenAll back = content.toList := by
    intro front letters back whole
    have flat := congrArg flattenAll whole
    rwa [flattenAll_append, flattenAll_append, start, flattenAll_map_char,
      flattenAll_map_char] at flat
  constructor
  · rintro ⟨front, back, whole⟩
    exact plain.unclosed ⟨_, _, by simpa using written front _ back whole⟩
  · rintro ⟨back, whole⟩
    exact plain.unbracketed ⟨_, by simpa [flattenAll] using written [] ['['] back whole⟩
  · rintro ⟨front, back, whole⟩
    exact plain.unmarked ⟨_, _, by simpa using written front _ back whole⟩

variable {content rest : List Symbol}

theorem apply_normalize_comment (inked : ∀ a ∈ rest.head?, isMargin a = false) :
    apply (Comment.text content ++ rest) .normalize =
      Comment.text (Margin.joinLines content) ++ apply rest .normalize := by
  have alone : apply rest .normalize = Margin.normalize rest := apply_of_pieces_eq rfl
  rw [alone, ← Margin.normalize_text_append content inked]
  exact apply_of_pieces_eq rfl

theorem apply_protect_comment {region : Region} (apart : region.Apart (Comment.text content) rest) :
    apply (Comment.text content ++ rest) (.protect region) =
      Comment.text (apply content (.protect region)) ++ apply rest (.protect region) := by
  rw [apply, Stage.pieces, region.cut_text_append apart, Comment.text_append]
  simp only [List.map_append]
  rfl

theorem apply_comments_comment (plain : Comment.Plain content) (rest : List Symbol) :
    apply (Comment.text content ++ rest) .comments = apply rest .comments := by
  have alone : apply rest .comments = Comment.strip rest := apply_of_pieces_eq rfl
  rw [alone, ← Comment.strip_text_append plain.unclosed plain.not_isConditional]
  exact apply_of_pieces_eq rfl

/-- A plain comment in front of a document is gone when the content of the document is
decided. -/
theorem run_contentOrder_comment (plain : Comment.Plain content)
    (inked : ∀ a ∈ rest.head?, isMargin a = false)
    (scripts : Region.script.Apart (run (Comment.text content) [.normalize])
      (run rest [.normalize]))
    (styles : Region.style.Apart (run (Comment.text content) [.normalize, .protect .script])
      (run rest [.normalize, .protect .script])) :
    run (Comment.text content ++ rest) Stage.contentOrder = run rest Stage.contentOrder := by
  have alone : ∀ {region : Region} {content : List Symbol},
      apply (Comment.text content) (.protect region) =
        Comment.text (apply content (.protect region)) := by
    intro region content
    have apart : region.Apart (Comment.text content) [] := Or.inr rfl
    simpa [apply] using apply_protect_comment apart
  have normalized : apply (Comment.text content) .normalize =
      Comment.text (Margin.joinLines content) := by
    have inked : ∀ a ∈ ([] : List Symbol).head?, isMargin a = false := by simp
    simpa [apply, Stage.pieces] using apply_normalize_comment inked
  simp only [run_cons, run_nil, normalized, alone] at scripts styles
  have protect : ∀ (region : Region) {content : List Symbol}, Comment.Plain content →
      Comment.Plain (apply content (.protect region)) := fun region _ plain =>
    plain.cut region.splits (fun _ => rfl) (by simp [ofPiece, spell])
  have plain' := protect .style (protect .script plain.joinLines)
  simp only [Stage.contentOrder, run_cons, run_nil]
  rw [apply_normalize_comment inked, apply_protect_comment scripts, apply_protect_comment styles,
    apply_comments_comment plain']

end Symbol

/-- A plain comment in front of a document has no effect, when no script and no style
sheet reaches from it into the document. -/
theorem minifyWith_comment_append {first second : Sigil} {content document : String}
    (plain : Comment.Plain content.toList)
    (inked : ∀ c ∈ document.toList.head?, isBlank c = false ∧ c ≠ '\x00')
    (scripts : Region.script.Apart
      (Symbol.run (Symbol.start ("<!--" ++ content ++ "-->")) [.normalize])
      (Symbol.run (Symbol.start document) [.normalize]))
    (styles : Region.style.Apart
      (Symbol.run (Symbol.start ("<!--" ++ content ++ "-->")) [.normalize, .protect .script])
      (Symbol.run (Symbol.start document) [.normalize, .protect .script]))
    (absent : ¬ first.text.Sublist ("<!--" ++ content ++ "-->" ++ document).toList)
    (absent' : ¬ second.text.Sublist document.toList) :
    minifyWith first ("<!--" ++ content ++ "-->" ++ document) = minifyWith second document := by
  have comment : Symbol.start ("<!--" ++ content ++ "-->") =
      Comment.text (Symbol.start content) := by
    simp [Symbol.start, Comment.text, Markup.commentOpen, Markup.commentClose]
  have whole : Symbol.start ("<!--" ++ content ++ "-->" ++ document) =
      Comment.text (Symbol.start content) ++ Symbol.start document := by
    rw [← comment]
    simp [Symbol.start]
  have inked' : ∀ a ∈ (Symbol.start document).head?, isMargin a = false := by
    intro a first
    rw [Symbol.start, List.head?_map, Option.mem_def, Option.map_eq_some_iff] at first
    obtain ⟨c, first, rfl⟩ := first
    obtain ⟨ink, other⟩ := inked c first
    rw [Bool.eq_false_iff]
    intro margin
    exact Bool.eq_false_iff.mp ink (isBlank_of_isMargin margin other)
  rw [comment] at scripts styles
  rw [minifyWith, minifyWith, Draft.restore_run_start absent, Draft.restore_run_start absent',
    whole, Stage.order_eq_append, Symbol.run_append, Symbol.run_append,
    Symbol.run_contentOrder_comment (Symbol.plain_start plain) inked' scripts styles]

/-- A script that is closed within the comment is lost with it, and the one of the document
stays. -/
theorem minifyWith_comment_append_closed_script :
    Comment.Plain " <SCRIPT>x</SCRIPT> ".toList ∧
      (∀ c ∈ "<p> a </p><script> f() </script>".toList.head?, isBlank c = false ∧ c ≠ '\x00') ∧
        minifyWith ⟨0⟩ ("<!--" ++ " <SCRIPT>x</SCRIPT> " ++ "-->" ++
            "<p> a </p><script> f() </script>") =
          minifyWith ⟨1⟩ "<p> a </p><script> f() </script>" :=
  have plain : Comment.Plain " <SCRIPT>x</SCRIPT> ".toList :=
    ⟨by decide, by decide, by decide⟩
  have inked : ∀ c ∈ "<p> a </p><script> f() </script>".toList.head?,
      isBlank c = false ∧ c ≠ '\x00' := by
    rintro _ ⟨⟩
    decide
  ⟨plain, inked, minifyWith_comment_append plain inked (by decide +kernel) (by decide +kernel)
    (by decide +kernel) (by decide +kernel)⟩

/-- The text of a comment opens a script that a close tag of the document ends.  The
paragraph between them and the script behind it are lost. -/
theorem minifyWith_comment_append_ne :
    Comment.Plain " <script> ".toList ∧
      (∀ c ∈ "<p>a</p><script>f()</script><!-- b -->".toList.head?,
        isBlank c = false ∧ c ≠ '\x00') ∧
        minifyWith ⟨0⟩ ("<!--" ++ " <script> " ++ "-->" ++
            "<p>a</p><script>f()</script><!-- b -->") = "" ∧
          minifyWith ⟨0⟩ "<p>a</p><script>f()</script><!-- b -->" =
            "<p>a</p><script>f()</script>" :=
  ⟨⟨by decide, by decide, by decide⟩, by rintro _ ⟨⟩; decide, by decide +kernel,
    by decide +kernel⟩

end HtmlMinifier
