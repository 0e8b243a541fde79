import HtmlMinifier.Proofs.Ledger
import Mathlib.Data.List.Nodup
import Mathlib.Logic.Relation

/-!
# What is put back

Expanding a text goes from its tokens into the table, and from the tokens in what it finds
there further in.  The record of an expansion tells the index of each token that is replaced;
without these it is what the expansion writes.

In a layered table contents hold tokens of earlier contents only.  Where each index stands at
most once in a text and in the contents, expanding the text puts no content back twice, and
a content that is not put back has a content around it, maybe itself, whose token stands
nowhere.  With the ledger of a draft this is what becomes of everything that the stages set
aside.
-/

namespace HtmlMinifier

namespace Table

/-- The characters that expanding a text writes, with the index of each token in front of
what is written for it. -/
def record (table : Table) (limit : Nat) (text : List Char) : List (Char ⊕ Nat) :=
  (Token.segments table.sigil limit text).flatMap fun segment =>
    match segment with
    | .plain text => text.map .inl
    | .token index => .inr index :: record table index (table.content index)
termination_by limit
decreasing_by exact index.isLt

/-- Without the indices the record is what the expansion writes. -/
theorem filterMap_getLeft?_record (table : Table) (limit : Nat) (text : List Char) :
    (table.record limit text).filterMap Sum.getLeft? = table.expand limit text := by
  induction limit using Nat.strongRecOn generalizing text with
  | ind limit ih =>
      rw [record, expand, List.filterMap_flatMap]
      congr 1
      funext segment
      cases segment with
      | plain text => simp [List.filterMap_map, Function.comp_def]
      | token index => exact ih index index.isLt _

/-- The indices of the contents that expanding a text puts back. -/
def putBack (table : Table) (limit : Nat) (text : List Char) : List Nat :=
  (table.record limit text).filterMap Sum.getRight?

/-- The index of a content and of all that expanding it puts back. -/
def branch (table : Table) (index : Nat) : List Nat :=
  index :: table.putBack index (table.content index)

/-- The indices of the tokens in the content at an index. -/
def inside (table : Table) (index : Nat) : List Nat :=
  Token.indices table.sigil (table.content index)

/-- The token of a content stands in a content, maybe in one whose token stands there. -/
def Within (table : Table) : Nat → Nat → Prop :=
  Relation.ReflTransGen fun index outer => index ∈ table.inside outer

/-- Contents hold tokens of earlier contents only. -/
def Layered (table : Table) : Prop :=
  ∀ outer < table.size, ∀ index ∈ table.inside outer, index < outer

variable {table : Table}

/-- Expanding a text puts back the branches of its tokens. -/
theorem putBack_eq_flatMap_branch {limit : Nat} {text : List Char}
    (below : ∀ index ∈ Token.indices table.sigil text, index < limit) :
    table.putBack limit text = (Token.indices table.sigil text).flatMap table.branch := by
  rw [putBack, record, List.filterMap_flatMap, Token.flatMap_segments (fun _ => [])
    (fun index : Fin limit => table.branch index), ← Token.map_allFound_cut_eq_indices below]
  · generalize (Token.pattern table.sigil limit).cut text = pieces
    induction pieces with
    | nil => rfl
    | cons piece pieces ih =>
        cases piece with
        | kept c => exact ih
        | found index => exact congrArg (table.branch index ++ ·) ih
  · intro text
    simp [List.filterMap_map, Function.comp_def]
  · exact fun index => rfl

/-- The branch of a content goes on with the branches of the tokens in it. -/
theorem Layered.branch_eq (layered : table.Layered) {index : Nat} (below : index < table.size) :
    table.branch index = index :: (table.inside index).flatMap table.branch := by
  rw [branch, putBack_eq_flatMap_branch (layered index below), inside]

theorem Layered.le_of_mem_branch (layered : table.Layered) {index outer : Nat}
    (below : outer < table.size) (member : index ∈ table.branch outer) : index ≤ outer := by
  induction outer using Nat.strongRecOn with
  | ind outer ih =>
      rw [layered.branch_eq below, List.mem_cons, List.mem_flatMap] at member
      rcases member with rfl | ⟨middle, within, member⟩
      · exact Nat.le_refl index
      · have earlier := layered outer below middle within
        exact (ih middle earlier (earlier.trans below) member).trans earlier.le

/-- A branch holds the tokens in every content that it holds. -/
theorem Layered.mem_branch_of_mem_inside (layered : table.Layered) {index middle outer : Nat}
    (below : outer < table.size) (member : middle ∈ table.branch outer)
    (within : index ∈ table.inside middle) : index ∈ table.branch outer := by
  induction outer using Nat.strongRecOn with
  | ind outer ih =>
      rw [layered.branch_eq below, List.mem_cons, List.mem_flatMap] at member ⊢
      right
      rcases member with rfl | ⟨next, inOuter, member⟩
      · exact ⟨index, within, List.mem_cons_self⟩
      · have earlier := layered outer below next inOuter
        exact ⟨next, inOuter, ih next earlier (earlier.trans below) member⟩

/-- Where each index stands at most once, nothing is put back twice.  The latest content
that is left has its token among the roots or nowhere; in its place come the tokens in it. -/
theorem Layered.nodup_flatMap_branch (layered : table.Layered) {limit : Nat}
    (within : limit ≤ table.size) {roots : List Nat} (below : ∀ index ∈ roots, index < limit)
    (once : (roots ++ (List.range limit).flatMap table.inside).Nodup) :
    (roots.flatMap table.branch).Nodup := by
  induction limit generalizing roots with
  | zero =>
      have none : roots = [] :=
        List.eq_nil_iff_forall_not_mem.mpr fun index member => absurd (below index member) (by simp)
      simp [none]
  | succ limit ih =>
      have inTable : limit < table.size := within
      rw [List.range_succ, List.flatMap_append, List.flatMap_singleton] at once
      by_cases member : limit ∈ roots
      · have front := List.perm_cons_erase member
        have replaced : (roots.flatMap table.branch).Perm
            (limit :: (table.inside limit ++ roots.erase limit).flatMap table.branch) := by
          have spread := front.flatMap_right table.branch
          rwa [List.flatMap_cons, layered.branch_eq inTable, List.cons_append,
            ← List.flatMap_append] at spread
        have once' : (limit :: ((table.inside limit ++ roots.erase limit) ++
            (List.range limit).flatMap table.inside)).Nodup := by
          refine (List.Perm.nodup_iff (List.perm_iff_count.mpr fun i => ?_)).mp once
          have split := front.count_eq i
          simp only [List.count_append, List.count_cons] at split ⊢
          omega
        obtain ⟨fresh, once'⟩ := List.nodup_cons.mp once'
        have below' : ∀ index ∈ table.inside limit ++ roots.erase limit, index < limit := by
          intro index member'
          rcases List.mem_append.mp member' with inside | other
          · exact layered limit inTable index inside
          · have different : index ≠ limit := fun same =>
              fresh (List.mem_append_left _ (same ▸ member'))
            have bound := below index (List.mem_of_mem_erase other)
            omega
        rw [replaced.nodup_iff, List.nodup_cons, List.mem_flatMap]
        refine ⟨?_, ih inTable.le below' once'⟩
        rintro ⟨index, root, inBranch⟩
        have bound := below' index root
        have reached := layered.le_of_mem_branch (bound.trans inTable) inBranch
        omega
      · have below' : ∀ index ∈ roots, index < limit := by
          intro index root
          have different : index ≠ limit := fun same => member (same ▸ root)
          have bound := below index root
          omega
        rw [← List.append_assoc] at once
        exact ih inTable.le below' (List.Nodup.of_append_left once)

/-- A content that is not put back lies in one whose token stands nowhere. -/
theorem Layered.exists_within_of_notMem (layered : table.Layered) {roots : List Nat}
    (below : ∀ index ∈ roots, index < table.size) {index : Nat} (inTable : index < table.size)
    (missing : index ∉ roots.flatMap table.branch) :
    ∃ outer < table.size, table.Within index outer ∧
      outer ∉ roots ++ (List.range table.size).flatMap table.inside := by
  induction above : table.size - index using Nat.strongRecOn generalizing index with
  | ind n ih =>
      by_cases stands : index ∈ roots ++ (List.range table.size).flatMap table.inside
      · rcases List.mem_append.mp stands with root | inContent
        · exact absurd (List.mem_flatMap.mpr ⟨index, root, List.mem_cons_self⟩) missing
        · obtain ⟨middle, inRange, held⟩ := List.mem_flatMap.mp inContent
          have inTable' := List.mem_range.mp inRange
          have later := layered middle inTable' index held
          have missing' : middle ∉ roots.flatMap table.branch := by
            intro member
            obtain ⟨root, isRoot, inBranch⟩ := List.mem_flatMap.mp member
            exact missing (List.mem_flatMap.mpr ⟨root, isRoot,
              layered.mem_branch_of_mem_inside (below root isRoot) inBranch held⟩)
          obtain ⟨outer, bound, around, nowhere⟩ := ih _ (by omega) inTable' missing' rfl
          exact ⟨outer, bound, .head held around, nowhere⟩
      · exact ⟨index, inTable, .refl, stands⟩

theorem toList_entries (table : Table) :
    table.entries.toList = (List.range table.size).map table.content := by
  apply List.ext_getElem
  · simp [size]
  · intro index inEntries inRange
    rw [Array.length_toList] at inEntries
    simp [content, Array.getD_eq_getD_getElem?, Array.getElem?_eq_getElem inEntries]

end Table

namespace Draft

/-- The characters that restoring a draft writes, with the index of each token in front of
what is written for it. -/
def record (draft : Draft) : List (Char ⊕ Nat) :=
  draft.table.record draft.table.size draft.text

/-- The indices of the contents that restoring a draft puts back. -/
def putBack (draft : Draft) : List Nat :=
  draft.record.filterMap Sum.getRight?

theorem filterMap_getLeft?_record (draft : Draft) :
    draft.record.filterMap Sum.getLeft? = draft.restore.toList := by
  rw [record, Table.filterMap_getLeft?_record, restore, Table.restore, String.toList_ofList]

theorem tokens_eq_append_flatMap_inside (draft : Draft) :
    draft.tokens = Token.indices draft.table.sigil draft.text ++
      (List.range draft.table.size).flatMap draft.table.inside := by
  rw [tokens, Table.toList_entries, List.flatMap_map]
  rfl

namespace Ledger

variable {draft : Draft} {slots : List Slot} {stored : List (List Slot)} {struck : List Nat}

theorem layered (ledger : draft.Ledger slots stored struck) : draft.table.Layered := by
  intro outer below index member
  rw [ledger.size_eq] at below
  have known : stored[outer]? = some stored[outer] := List.getElem?_eq_getElem below
  have held : draft.table.content outer =
      (Slot.written draft.table.sigil).encode stored[outer] := by
    rw [Table.content, Array.getD_eq_getD_getElem?, ← Array.getElem?_toList, ledger.entries_eq,
      List.getElem?_map, known]
    rfl
  rw [Table.inside, held, (ledger.clean _ (List.getElem_mem below)).indices_written] at member
  exact ledger.earlier outer _ known index member

theorem lt_size (ledger : draft.Ledger slots stored struck) {index : Nat}
    (member : index ∈ draft.tokens) : index < draft.table.size :=
  List.mem_range.mp (ledger.tokens_append_perm.subset (List.mem_append_left struck member))

/-- Each index stands once, among the tokens or among those that are struck. -/
theorem count_tokens_add (ledger : draft.Ledger slots stored struck) {index : Nat}
    (below : index < draft.table.size) : draft.tokens.count index + struck.count index = 1 := by
  rw [← List.count_append, ledger.tokens_append_perm.count_eq]
  exact List.count_eq_one_of_mem List.nodup_range (List.mem_range.mpr below)

theorem mem_struck (ledger : draft.Ledger slots stored struck) {index : Nat}
    (below : index < draft.table.size) (missing : index ∉ draft.tokens) : index ∈ struck := by
  have stands := ledger.tokens_append_perm.mem_iff.mpr (List.mem_range.mpr below)
  exact (List.mem_append.mp stands).resolve_left missing

theorem lt_size_of_mem_text (ledger : draft.Ledger slots stored struck) :
    ∀ index ∈ Token.indices draft.table.sigil draft.text, index < draft.table.size :=
  fun _ member => ledger.lt_size (List.mem_append_left _ member)

/-- Restoring a draft puts back the branches of the tokens in its text. -/
theorem putBack_eq (ledger : draft.Ledger slots stored struck) :
    draft.putBack = (Token.indices draft.table.sigil draft.text).flatMap draft.table.branch :=
  Table.putBack_eq_flatMap_branch ledger.lt_size_of_mem_text

/-- Restoring a draft puts nothing back twice. -/
theorem nodup_putBack (ledger : draft.Ledger slots stored struck) : draft.putBack.Nodup := by
  have once : draft.tokens.Nodup :=
    List.Nodup.of_append_left (ledger.tokens_append_perm.nodup_iff.mpr List.nodup_range)
  rw [ledger.putBack_eq]
  rw [tokens_eq_append_flatMap_inside] at once
  exact ledger.layered.nodup_flatMap_branch (Nat.le_refl _) ledger.lt_size_of_mem_text once

/-- What is not put back lies in a content whose token is struck. -/
theorem exists_within_of_notMem (ledger : draft.Ledger slots stored struck) {index : Nat}
    (below : index < draft.table.size) (missing : index ∉ draft.putBack) :
    ∃ outer ∈ struck, draft.table.Within index outer := by
  rw [ledger.putBack_eq] at missing
  obtain ⟨outer, inTable, around, nowhere⟩ :=
    ledger.layered.exists_within_of_notMem ledger.lt_size_of_mem_text below missing
  rw [← tokens_eq_append_flatMap_inside] at nowhere
  exact ⟨outer, ledger.mem_struck inTable nowhere, around⟩

end Ledger

/-- What becomes of the contents that are set aside.  A sigil whose characters are not in a
document in their order makes tokens that can be counted after every run of stages: each has
an index of the table, and one in a content has an earlier index than the content; each index
stands at most once, at first exactly once, and where it stands no more its token was in a
comment that was dropped.  The record of how the draft is restored holds the index of each
content once, unless the content or one around it was commented out. -/
theorem tokens_run_start {sigil : Sigil} {document : String}
    (absent : ¬ sigil.text.Sublist document.toList) (stages : List Stage) :
    let draft := (start sigil document).run stages
    let gone := (start sigil document).commentedOut stages
    (∀ index ∈ draft.tokens, index < draft.table.size) ∧
      draft.table.Layered ∧
      (∀ index < draft.table.size,
        draft.tokens.count index ≤ 1 ∧ (.comments ∉ stages → draft.tokens.count index = 1) ∧
          (index ∉ draft.tokens → index ∈ gone)) ∧
      draft.record.filterMap Sum.getLeft? = draft.restore.toList ∧
      ∀ index < draft.table.size,
        draft.putBack.count index = 1 ∨
          draft.putBack.count index = 0 ∧ ∃ outer ∈ gone, draft.table.Within index outer := by
  intro draft gone
  obtain ⟨slots, stored, ledger⟩ := (Ledger.start absent).run stages
  refine ⟨fun index => ledger.lt_size, ledger.layered, ?_, draft.filterMap_getLeft?_record, ?_⟩
  · intro index below
    have counted := ledger.count_tokens_add below
    refine ⟨Nat.le.intro counted, ?_, ledger.mem_struck below⟩
    intro without
    rwa [commentedOut_eq_nil without, List.nil_append, List.count_nil] at counted
  · intro index below
    by_cases member : index ∈ draft.putBack
    · exact .inl (List.count_eq_one_of_mem ledger.nodup_putBack member)
    · exact .inr ⟨List.count_eq_zero.mpr member, ledger.exists_within_of_notMem below member⟩

/-- The first script is commented out, the second is set aside within a block. -/
theorem tokens_run_start_of_comment :
    ¬ (Sigil.mk 0).text.Sublist
        "<!--<script>a</script>--><pre><script>b</script></pre>".toList ∧
      0 ∈ (start ⟨0⟩ "<!--<script>a</script>--><pre><script>b</script></pre>").commentedOut
        Stage.order ∧
      ((start ⟨0⟩ "<!--<script>a</script>--><pre><script>b</script></pre>").run
        Stage.order).putBack.count 1 = 1 := by
  have absent : ¬ (Sigil.mk 0).text.Sublist
      "<!--<script>a</script>--><pre><script>b</script></pre>".toList := by decide +kernel
  obtain ⟨-, -, counted, -, restored⟩ := tokens_run_start absent Stage.order
  refine ⟨absent, (counted 0 (by decide +kernel)).2.2 (by decide +kernel), ?_⟩
  exact (restored 1 (by decide +kernel)).resolve_right fun dropped =>
    absurd dropped.1 (by decide +kernel)

end Draft

end HtmlMinifier
