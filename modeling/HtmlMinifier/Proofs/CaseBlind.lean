import HtmlMinifier.Proofs.SigilChoice
import HtmlMinifier.Proofs.StageCase

/-!
# Minifying does not see the case of letters

To write the letters of a document small and then minify it gives the same as to do so in
the other order, since no stage tells the two cases apart.  The one exception is the marker
`<![CDATA[`, which is looked for in capitals; a document that holds it in no case is one
in which no script and no style sheet holds it when its wrapper is taken away.  Up to there
nothing but line ends has changed, and a region that is set aside brings no characters
together.

The same argument holds for characters outside ASCII.  None of them is told from any other,
so none counts as a letter, also not one whose lower case in Unicode is an ASCII letter.
-/

namespace HtmlMinifier

open Alphabet

namespace Symbol

mutual

/-- A symbol with its characters folded, to every depth. -/
def fold (folding : Folding) : Symbol → Symbol
  | char c => char (folding.fold c)
  | stored content => stored (foldAll folding content)

/-- A document with its characters folded. -/
def foldAll (folding : Folding) : List Symbol → List Symbol
  | [] => []
  | a :: text => fold folding a :: foldAll folding text

end

theorem foldAll_eq_map (folding : Folding) (text : List Symbol) :
    foldAll folding text = text.map (fold folding) := by
  induction text with
  | nil => rfl
  | cons a text ih => rw [foldAll, ih, List.map_cons]

/-- Folding characters, as a recasing. -/
def recased (folding : Folding) : Recasing Symbol Symbol where
  toFolding := folding
  write := fold folding
  char?_write a := by cases a <;> simp [fold, char?]

mutual

theorem flatten_fold (folding : Folding) : ∀ a : Symbol,
    flatten (fold folding a) = (flatten a).map folding.fold
  | char _ => rfl
  | stored content => by rw [fold, flatten, flatten, flattenAll_foldAll folding content]

/-- A folded document stands for the folded text. -/
theorem flattenAll_foldAll (folding : Folding) : ∀ text : List Symbol,
    flattenAll (foldAll folding text) = (flattenAll text).map folding.fold
  | [] => rfl
  | a :: text => by
      rw [foldAll, flattenAll, flatten_fold folding a, flattenAll_foldAll folding text, flattenAll,
        List.map_append]

end

variable (folding : Folding) {text : List Symbol}

/-- A stage takes a folded document to the folded result. -/
theorem apply_foldAll {stage : Stage}
    (uncoded : ∀ region, stage = .protect region → region.closer ≠ [] → Wrapper.Uncoded text) :
    apply (foldAll folding text) stage = foldAll folding (apply text stage) := by
  have pieces := stage.pieces_map (recased folding) uncoded
  change stage.pieces (text.map (fold folding)) = _ at pieces
  rw [foldAll_eq_map, foldAll_eq_map, apply, apply, pieces, List.map_map, List.map_map]
  apply List.map_congr_left
  intro piece _
  cases piece with
  | kept a => rfl
  | found content =>
      change stored (content.map (fold folding)) = stored (foldAll folding content)
      rw [foldAll_eq_map]

/-- Stages that take no wrappers away take a folded document to the folded result. -/
theorem run_foldAll {stages : List Stage}
    (verbatim : ∀ region, Stage.protect region ∈ stages → region.closer = []) :
    run (foldAll folding text) stages = foldAll folding (run text stages) := by
  induction stages generalizing text with
  | nil => rfl
  | cons stage stages ih =>
      have here : ∀ region, stage = .protect region → region.closer ≠ [] →
          Wrapper.Uncoded text := by
        rintro region rfl anew
        exact absurd (verbatim region List.mem_cons_self) anew
      rw [run_cons, run_cons, apply_foldAll folding here]
      exact ih fun region member => verbatim region (List.mem_cons_of_mem stage member)

/-! ## Up to the wrappers -/

/-- Setting regions aside brings no characters together. -/
theorem uncoded_apply_protect (region : Region) (uncoded : Wrapper.Uncoded text) :
    Wrapper.Uncoded (apply text (.protect region)) := by
  intro written same inside
  apply uncoded written same
  refine Pattern.isInfix_of_isInfix_cut region.splits (fun _ => rfl) ?_ inside
  intro content member
  obtain ⟨c, -, foreign⟩ := List.mem_map.mp member
  contradiction

/-- Nor does a change of margins and line ends. -/
theorem uncoded_apply_normalize (uncoded : Wrapper.Uncoded text) :
    Wrapper.Uncoded (apply text .normalize) := by
  intro written same inside
  rw [apply_of_pieces_eq rfl] at inside
  have flat : (ofChar '\n' : Symbol) ∉ spell written := by
    rw [ofChar_mem_spell]
    intro member
    have letters : '\n'.toLower ∉ Markup.cdataOpen.map Char.toLower := by decide
    exact letters (same ▸ List.mem_map_of_mem member)
  exact uncoded written same
    ((Margin.isInfix_of_isInfix_joinLines flat inside).trans (Margin.trim_isInfix text))

/-- A folded document is taken through all stages to the folded result. -/
theorem run_order_foldAll (uncoded : Wrapper.Uncoded text) :
    run (foldAll folding text) Stage.order = foldAll folding (run text Stage.order) := by
  have normal := uncoded_apply_normalize uncoded
  have behindScripts := uncoded_apply_protect .script normal
  have verbatim : ∀ region, Stage.protect region ∈ [.comments, .protect .pre, .protect .textarea,
      .lines, .blocks, .texts, .attributes] → region.closer = [] := by
    intro region member
    cases region with
    | script | style => simp at member
    | pre | textarea => rfl
  rw [Stage.order, run_cons, apply_foldAll folding fun _ _ _ => uncoded, run_cons,
    apply_foldAll folding fun _ _ _ => normal, run_cons,
    apply_foldAll folding fun _ _ _ => behindScripts]
  exact run_foldAll folding verbatim

end Symbol

/-- The symbols of a document hold `<![CDATA[` in no case when its characters do not. -/
theorem Symbol.uncoded_start {html : String}
    (uncoded : ¬ (Markup.cdataOpen.map Char.toLower).IsInfix (html.toList.map Char.toLower)) :
    Wrapper.Uncoded (start html) := by
  intro written same inside
  apply uncoded
  rw [← same]
  exact (isInfix_of_isInfix_spell inside).map Char.toLower

/-- Folding the characters of a document folds those of its minified document. -/
theorem map_minifyWith (folding : Folding) {html : String} (plain : '%' ∉ html.toList)
    (uncoded : ¬ (Markup.cdataOpen.map Char.toLower).IsInfix (html.toList.map Char.toLower))
    (sigil sigil' : Sigil) :
    (minifyWith sigil html).map folding.fold = minifyWith sigil' (html.map folding.fold) := by
  have plain' : '%' ∉ (html.map folding.fold).toList := by
    rw [String.toList_map, List.mem_map]
    rintro ⟨c, member, percent⟩
    have same := folding.fold_beq (by decide : isPlain '%' = true) c
    rw [percent, beq_self_eq_true, eq_comm, beq_iff_eq] at same
    exact plain (same ▸ member)
  have start : Symbol.start (html.map folding.fold) =
      Symbol.foldAll folding (Symbol.start html) := by
    rw [Symbol.foldAll_eq_map, Symbol.start, Symbol.start, String.toList_map, List.map_map,
      List.map_map]
    rfl
  rw [minifyWith_of_percent_notMem plain, minifyWith_of_percent_notMem plain', minifySymbols,
    minifySymbols, start, Symbol.run_order_foldAll folding (Symbol.uncoded_start uncoded),
    Symbol.flattenAll_foldAll, ← String.toList_inj, String.toList_map, String.toList_ofList,
    String.toList_ofList]

/-- Exchanging characters outside ASCII for others there. -/
def Folding.abroad (exchange : Char → Char) (ascii : ∀ c, c.toNat < 128 → exchange c = c)
    (foreign : ∀ c, 128 ≤ c.toNat → 128 ≤ (exchange c).toNat) : Folding where
  fold := exchange
  toLower_fold c within := by rw [ascii c within]
  foreign_fold := foreign
  fold_of_isLower c small := by
    apply ascii
    exact toNat_lt_of_isAlphanum
      (Bool.or_eq_true_iff.mpr (Or.inl (Bool.or_eq_true_iff.mpr (Or.inr small))))

/-- Without `%`, and without `<![CDATA[` in any case, it makes no difference whether the
letters of a document are written small before it is minified or after that.  Nor does it
make one which characters outside ASCII a document has. -/
theorem toLower_minifyWith {html : String} (plain : '%' ∉ html.toList)
    (uncoded : ¬ (Markup.cdataOpen.map Char.toLower).IsInfix (html.toList.map Char.toLower))
    (sigil sigil' : Sigil) :
    (minifyWith sigil html).toLower = minifyWith sigil' html.toLower ∧
      ∀ exchange : Char → Char, (∀ c, c.toNat < 128 → exchange c = c) →
        (∀ c, 128 ≤ c.toNat → 128 ≤ (exchange c).toNat) →
          (minifyWith sigil html).map exchange = minifyWith sigil' (html.map exchange) :=
  ⟨map_minifyWith .lower plain uncoded sigil sigil', fun exchange ascii foreign =>
    map_minifyWith (.abroad exchange ascii foreign) plain uncoded sigil sigil'⟩

/-- A script whose tags are in both cases, a block in capitals, and a tag that would be one
of a script if `ſ` were an `s`. -/
theorem toLower_minifyWith_script :
    ('%' ∉ "<Script> f() </SCRIPT> <P\tID=A>B</P><ſcript> g() </ſcript>".toList ∧
      ¬ (Markup.cdataOpen.map Char.toLower).IsInfix
        ("<Script> f() </SCRIPT> <P\tID=A>B</P><ſcript> g() </ſcript>".toList.map Char.toLower)) ∧
    ((minifyWith ⟨0⟩ "<Script> f() </SCRIPT> <P\tID=A>B</P><ſcript> g() </ſcript>").toLower =
        minifyWith ⟨1⟩ "<Script> f() </SCRIPT> <P\tID=A>B</P><ſcript> g() </ſcript>".toLower ∧
      ∀ exchange : Char → Char, (∀ c, c.toNat < 128 → exchange c = c) →
        (∀ c, 128 ≤ c.toNat → 128 ≤ (exchange c).toNat) →
          (minifyWith ⟨0⟩
              "<Script> f() </SCRIPT> <P\tID=A>B</P><ſcript> g() </ſcript>").map exchange =
            minifyWith ⟨1⟩
              ("<Script> f() </SCRIPT> <P\tID=A>B</P><ſcript> g() </ſcript>".map exchange)) :=
  ⟨⟨by decide +kernel, by decide +kernel⟩,
    toLower_minifyWith (by decide +kernel) (by decide +kernel) ⟨0⟩ ⟨1⟩⟩

end HtmlMinifier
