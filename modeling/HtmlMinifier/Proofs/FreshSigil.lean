import HtmlMinifier.Minification
import HtmlMinifier.Proofs.Seam
import Mathlib.Data.Fintype.Pigeonhole

/-!
# Fresh sigils

The sigil that is counted from a seed for a document does not occur in it.  No two sigils stand
at one place, since all are of one length, and the candidates are one more than the document has
symbols.  They are different as long as these are fewer than there are numbers.
-/

namespace HtmlMinifier

namespace Sigil

theorem digitChar_inj {digit digit' : Nat} (small : digit < 16) (small' : digit' < 16)
    (same : Nat.digitChar digit = Nat.digitChar digit') : digit = digit' := by
  have all : ∀ first second : Fin 16, Nat.digitChar first = Nat.digitChar second →
      first = second := by
    decide
  exact Fin.mk.inj (all ⟨digit, small⟩ ⟨digit', small'⟩ same)

/-- A number that is not too large can be told from its digits. -/
theorem digits_inj {count number number' : Nat} (small : number < 16 ^ count)
    (small' : number' < 16 ^ count) (same : digits count number = digits count number') :
    number = number' := by
  induction count generalizing number number' with
  | zero => omega
  | succ count ih =>
      obtain ⟨earlier, last⟩ := List.append_inj same (by simp)
      have lastDigit := digitChar_inj (Nat.mod_lt _ (by decide)) (Nat.mod_lt _ (by decide))
        (List.singleton_inj.mp last)
      have others : number / 16 = number' / 16 :=
        ih (Nat.div_lt_of_lt_mul (by omega)) (Nat.div_lt_of_lt_mul (by omega)) earlier
      omega

theorem text_injective : Function.Injective text := by
  intro sigil sigil' same
  have digits_eq : digits 16 sigil.nonce.toNat = digits 16 sigil'.nonce.toNat :=
    List.append_cancel_left (List.append_cancel_right same)
  have number := digits_inj sigil.nonce.toNat_lt sigil'.nonce.toNat_lt digits_eq
  cases sigil
  cases sigil'
  exact congrArg mk (UInt64.toNat_inj.mp number)

theorem nonce_iterate_next (sigil : Sigil) (steps : Nat) :
    (next^[steps] sigil).nonce = sigil.nonce + UInt64.ofNat steps := by
  induction steps with
  | zero => simp
  | succ steps ih =>
      rw [Function.iterate_succ_apply', next, ih, UInt64.ofNat_add, UInt64.add_assoc]
      rfl

/-- Fewer sigils than there are numbers, one after the other, are all different. -/
theorem iterate_next_inj {sigil : Sigil} {first second : Nat} (small : first < 2 ^ 64)
    (small' : second < 2 ^ 64) (same : next^[first] sigil = next^[second] sigil) :
    first = second := by
  have nonces := congrArg nonce same
  rw [nonce_iterate_next, nonce_iterate_next, UInt64.add_right_inj] at nonces
  have numbers := congrArg UInt64.toNat nonces
  rwa [UInt64.toNat_ofNat_of_lt' small, UInt64.toNat_ofNat_of_lt' small'] at numbers

/-- If the sigil that is taken occurs, all that were tried do. -/
theorem isInfix_iterate_of_isInfix_freshFrom {document : List Char} {count : Nat} {sigil : Sigil}
    (occurs : (freshFrom document count sigil).text.IsInfix document) {steps : Nat}
    (within : steps ≤ count) : (next^[steps] sigil).text.IsInfix document := by
  induction count generalizing sigil steps with
  | zero =>
      obtain rfl := Nat.le_zero.mp within
      exact occurs
  | succ count ih =>
      rw [freshFrom] at occurs
      split at occurs
      next here =>
        cases steps with
        | zero => exact Reader.occurs_iff_isInfix.mp here
        | succ steps => exact ih occurs (Nat.le_of_succ_le_succ within)
      next absent => exact absurd (Reader.occurs_iff_isInfix.mpr occurs) absent

/-- A sigil that occurs stands at a place of the document. -/
theorem exists_place_of_isInfix {sigil : Sigil} {document : List Char}
    (occurs : sigil.text.IsInfix document) :
    ∃ place : Fin document.length, sigil.text.IsPrefix (document.drop place) := by
  obtain ⟨front, back, rfl⟩ := occurs
  have behind : (front ++ sigil.text ++ back).drop front.length = sigil.text ++ back := by
    rw [List.append_assoc, List.drop_left]
  have inside : front.length < (front ++ sigil.text ++ back).length := by
    simp only [List.length_append, length_text]
    omega
  exact ⟨⟨front.length, inside⟩, back, behind.symm⟩

/-- A fresh sigil does not occur in the document: more sigils are tried than there are places
for them, and no two of them have the same place. -/
theorem not_isInfix_fresh (seed : UInt64) {document : List Char}
    (short : document.length < 2 ^ 64) : ¬ (fresh seed document).text.IsInfix document := by
  intro occurs
  have tried : ∀ steps : Fin (document.length + 1), ∃ place : Fin document.length,
      (next^[steps] ⟨seed⟩).text.IsPrefix (document.drop place) := fun steps =>
    exists_place_of_isInfix
      (isInfix_iterate_of_isInfix_freshFrom occurs (Nat.le_of_lt_succ steps.isLt))
  choose place stands using tried
  obtain ⟨first, second, different, same⟩ := Fintype.exists_ne_map_eq_of_card_lt place (by simp)
  have lengths : (next^[first] (Sigil.mk seed)).text.length =
      (next^[second] (Sigil.mk seed)).text.length := by
    rw [length_text, length_text]
  have texts := (List.prefix_of_prefix_length_le (stands first) (same ▸ stands second)
    lengths.le).eq_of_length lengths
  exact different (Fin.ext (iterate_next_inj (by omega) (by omega) (text_injective texts)))

end Sigil

/-- The sigil for a document does not occur in the normal form of it. -/
theorem not_isInfix_sigilFor (seed : UInt64) {document : String}
    (short : (Margin.normalize document.toList).length < 2 ^ 64) :
    ¬ (sigilFor seed document).text.IsInfix (Margin.normalize document.toList) :=
  Sigil.not_isInfix_fresh seed short

end HtmlMinifier
