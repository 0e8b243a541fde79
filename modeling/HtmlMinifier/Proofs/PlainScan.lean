import HtmlMinifier.Proofs.Slot

/-!
# A scan for tokens

Expanding a text is the scan that `Table.Scans` describes.  At each place of the text, if a token
of an index below the limit stands there, the content at that index is scanned with the index as
the new limit, and the scan goes on behind the token.  Otherwise one symbol is kept.

Nothing is asked of the table.  A content may hold its own token or those of later contents; they
are not below its limit, and so they are text.  An index is a word of 64 bits, and so is a limit:
digits that denote a larger number belong to no token, and zeros in front of a number do no harm.
-/

namespace HtmlMinifier

namespace Token

/-- `Stands sigil limit text index rest` says that the token of an index below the limit stands at
the front of a text, with `rest` behind it. -/
inductive Stands (sigil : Sigil) (limit : UInt64) : List Char → UInt64 → List Char → Prop
  | mk {digits rest : List Char} {index : UInt64} (nonempty : digits ≠ [])
      (decimal : ∀ c ∈ digits, c.isDigit = true)
      (denotes : Nat.ofDigitChars 10 digits 0 = index.toNat) (below : index < limit) :
      Stands sigil limit (sigil.text ++ digits ++ '%' :: rest) index rest

variable {sigil : Sigil} {limit : UInt64} {text rest : List Char}

/-- A token that stands at the front of a text is read there. -/
theorem Stands.read_eq {index : UInt64} (stands : Stands sigil limit text index rest) :
    ∃ below, read sigil limit.toNat text = some (⟨index.toNat, below⟩, rest) := by
  cases stands with
  | mk nonempty decimal denotes below =>
      have below : index.toNat < limit.toNat := UInt64.lt_iff_toNat_lt.mp below
      exact ⟨below, read_eq_some_iff.mpr ⟨_, nonempty, decimal, denotes, rfl⟩⟩

/-- A token that is read stands at the front of the text. -/
theorem exists_stands_of_read {index : Fin limit.toNat}
    (found : read sigil limit.toNat text = some (index, rest)) :
    ∃ word : UInt64, word.toNat = index ∧ Stands sigil limit text word rest := by
  obtain ⟨digits, nonempty, decimal, denotes, rfl⟩ := read_eq_some_iff.mp found
  have fits : (UInt64.ofNat index).toNat = index :=
    UInt64.toNat_ofNat_of_lt' (index.isLt.trans limit.toNat_lt)
  have below : UInt64.ofNat index < limit := by
    rw [UInt64.lt_iff_toNat_lt, fits]
    exact index.isLt
  exact ⟨UInt64.ofNat index, fits, .mk nonempty decimal (denotes.trans fits.symm) below⟩

end Token

namespace Table

/-- The scan, from the text behind the cursor to what becomes of it. -/
inductive Scans (table : Table) : UInt64 → List Char → List Char → Prop
  | nil {limit : UInt64} : Scans table limit [] []
  | token {limit index : UInt64} {text rest content written result : List Char}
      (here : Token.Stands table.sigil limit text index rest)
      (stored : table.entries[index.toNat]? = some content)
      (inside : Scans table index content written) (further : Scans table limit rest result) :
      Scans table limit text (written ++ result)
  | kept {limit : UInt64} {c : Char} {text result : List Char}
      (clear : ∀ index rest, ¬ Token.Stands table.sigil limit (c :: text) index rest)
      (further : Scans table limit text result) : Scans table limit (c :: text) (c :: result)

variable {table : Table} {limit : UInt64} {text result : List Char}

theorem content_of_getElem? {index : Nat} {content : List Char}
    (stored : table.entries[index]? = some content) : table.content index = content := by
  rw [Table.content, Array.getD_eq_getD_getElem?, stored, Option.getD_some]

/-- The scan gives what a text is expanded to. -/
theorem Scans.expand_eq (scans : Scans table limit text result) :
    table.expand limit.toNat text = result := by
  induction scans with
  | nil => rw [expand_eq_replace, Pattern.replace_nil]
  | token here stored _ _ ihInside ihFurther =>
      obtain ⟨_, found⟩ := here.read_eq
      rw [expand_eq_replace] at ihFurther ⊢
      rw [Pattern.replace_of_some found, content_of_getElem? stored, ihInside, ihFurther]
  | @kept limit c text result clear _ ih =>
      have refused : Token.read table.sigil limit.toNat (c :: text) = none := by
        rw [Option.eq_none_iff_forall_ne_some]
        rintro ⟨index, rest⟩ found
        obtain ⟨word, -, stands⟩ := Token.exists_stands_of_read found
        exact clear word rest stands
      rw [expand_eq_replace] at ih ⊢
      rw [Pattern.replace_cons_of_none refused, ih]

/-- The scan comes to an end, whatever the table holds: the limit of a content is below the limit
of the text that holds its token. -/
theorem exists_scans_expand (within : limit.toNat ≤ table.size) (text : List Char) :
    Scans table limit text (table.expand limit.toNat text) := by
  induction bound : limit.toNat using Nat.strongRecOn generalizing limit text with
  | ind bound ih =>
      subst bound
      rw [expand_eq_replace]
      induction text using (Token.pattern table.sigil limit.toNat).induction with
      | nil =>
          rw [Pattern.replace_nil]
          exact .nil
      | found text index rest found ihText =>
          obtain ⟨word, same, here⟩ := Token.exists_stands_of_read found
          have inside : index.val < table.size := index.isLt.trans_le within
          have stored : table.entries[word.toNat]? = some (table.content index) := by
            rw [same, Table.content, Array.getD_eq_getD_getElem?, Array.getElem?_eq_getElem inside,
              Option.getD_some]
          have scanned := ih index index.isLt (same.trans_le inside.le) (table.content index) same
          rw [Pattern.replace_of_some found]
          exact .token here stored scanned ihText
      | kept c text refused ihText =>
          have clear : ∀ index rest,
              ¬ Token.Stands table.sigil limit (c :: text) index rest := by
            intro index rest stands
            obtain ⟨_, found⟩ := stands.read_eq
            rw [Token.read_pattern, found] at refused
            contradiction
          rw [Pattern.replace_cons_of_none refused]
          exact .kept clear ihText

/-- To expand a text is to scan it. -/
theorem expand_eq_iff_scans (within : limit.toNat ≤ table.size) :
    table.expand limit.toNat text = result ↔ Scans table limit text result := by
  constructor
  · rintro rfl
    exact exists_scans_expand within text
  · exact Scans.expand_eq

/-- The first content is its own token.  The second one holds its own token too, and the token of
the first one with a zero in front of the index. -/
def circular : Table where
  sigil := ⟨0⟩
  entries := #["%squeeze0000000000000000x0%".toList,
    "[%squeeze0000000000000000x1%%squeeze0000000000000000x00%]".toList]

/-- A number that no word holds, and two tokens with a `%` between them that belongs to the first
one. -/
def tangled : List Char :=
  ("%squeeze0000000000000000x18446744073709551616%" ++
    "%squeeze0000000000000000x01%squeeze0000000000000000x0%").toList

/-- What becomes of it. -/
def untangled : List Char :=
  ("%squeeze0000000000000000x18446744073709551616%" ++
    "[%squeeze0000000000000000x1%%squeeze0000000000000000x0%]squeeze0000000000000000x0%").toList

theorem expand_eq_iff_scans_circular :
    (2 : UInt64).toNat ≤ circular.size ∧
      circular.expand (2 : UInt64).toNat tangled = untangled ∧
        Scans circular 2 tangled untangled := by
  have within : (2 : UInt64).toNat ≤ circular.size := by decide
  have expanded : circular.expand (2 : UInt64).toNat tangled = untangled := by decide +kernel
  exact ⟨within, expanded, (expand_eq_iff_scans within).mp expanded⟩

end Table

end HtmlMinifier
