import HtmlMinifier.Table

/-!
# Expansion as a scan

Expanding a text jumps from one sigil to the next and leaves what it passed for
later.  The plain way to say the same is a scan: at each place either a whole
token is read, and what it stands for is written, or one symbol is kept.
`Token.pattern` is the pattern of such tokens, and `Table.expand_eq_replace` says
that expanding is replacing its matches.

Nothing is lost between the two because a sigil begins with its only `%`: inside
a sigil that belongs to no token no other sigil can begin.
-/

namespace HtmlMinifier

namespace Sigil

/-- The text of a sigil behind its `%`. -/
def tail (sigil : Sigil) : List Char :=
  ['s', 'q', 'u', 'e', 'e', 'z', 'e'] ++ digits 16 sigil.nonce.toNat ++ ['x']

theorem text_eq_cons (sigil : Sigil) : sigil.text = '%' :: sigil.tail :=
  rfl

theorem isAlphanum_of_mem_digits {count number : Nat} {c : Char}
    (member : c ∈ digits count number) : c.isAlphanum = true := by
  induction count generalizing number with
  | zero => simp [digits] at member
  | succ count ih =>
      rw [digits, List.mem_append, List.mem_singleton] at member
      rcases member with earlier | rfl
      · exact ih earlier
      · have all : ∀ n : Fin 16, (Nat.digitChar n).isAlphanum = true := by decide
        exact all ⟨number % 16, Nat.mod_lt _ (by decide)⟩

/-- Behind its `%` a sigil holds letters and digits only. -/
theorem isAlphanum_of_mem_tail {sigil : Sigil} {c : Char} (member : c ∈ sigil.tail) :
    c.isAlphanum = true := by
  simp only [tail, List.mem_append] at member
  rcases member with (word | number) | last
  · have all : ∀ c ∈ ['s', 'q', 'u', 'e', 'e', 'z', 'e'], c.isAlphanum = true := by decide
    exact all c word
  · exact isAlphanum_of_mem_digits number
  · rw [List.mem_singleton.mp last]
    decide

theorem percent_notMem_tail (sigil : Sigil) : '%' ∉ sigil.tail := by
  intro member
  exact absurd (isAlphanum_of_mem_tail member) (by decide)

end Sigil

namespace Pattern

variable {α β : Type}

/-- A text in which a pattern never matches is kept; it is enough that a reader which
accepts wherever the pattern does accepts nowhere. -/
theorem cut_of_upTo_eq_none {pattern : Pattern α β} {reader : Reader α}
    (narrow : ∀ text, reader text = none → pattern.read text = none)
    {text : List α} (absent : Reader.upTo reader text = none) :
    pattern.cut text = text.map .kept := by
  induction text with
  | nil => simp
  | cons a text ih =>
      cases read : reader (a :: text) with
      | some pair => simp [Reader.upTo_of_some read] at absent
      | none =>
          rw [Reader.upTo_cons_of_none read, Option.map_eq_none_iff] at absent
          rw [cut_cons_of_none (narrow _ read), ih absent, List.map_cons]

/-- What stands before the first place where such a reader accepts is kept. -/
theorem cut_of_upTo_eq_some {pattern : Pattern α β} {reader : Reader α}
    (narrow : ∀ text, reader text = none → pattern.read text = none)
    (faithful : Reader.Faithful reader) {text : List α} {split : Reader.Split α}
    (found : Reader.upTo reader text = some split) :
    pattern.cut text =
      split.before.map .kept ++ pattern.cut (split.taken ++ split.rest) := by
  induction text generalizing split with
  | nil =>
      cases read : reader [] with
      | none => simp [Reader.upTo_nil_of_none read] at found
      | some pair =>
          rw [Reader.upTo_of_some read, Option.some.injEq] at found
          simp [← found, faithful read]
  | cons a text ih =>
      cases read : reader (a :: text) with
      | some pair =>
          rw [Reader.upTo_of_some read, Option.some.injEq] at found
          simp [← found, faithful read]
      | none =>
          rw [Reader.upTo_cons_of_none read, Option.map_eq_some_iff] at found
          rcases found with ⟨split', inner, rfl⟩
          rw [cut_cons_of_none (narrow _ read), ih inner]
          rfl

end Pattern

namespace Token

/-- A token at the front of a text. -/
def read (sigil : Sigil) (limit : Nat) (text : List Char) : Option (Fin limit × List Char) :=
  (Reader.after? sigil.text text).bind (readIndex limit)

/-- The tokens below a limit. -/
def pattern (sigil : Sigil) (limit : Nat) : Pattern Char (Fin limit) where
  read := read sigil limit
  shrinks text index rest found := by
    obtain ⟨inside, opened, indexed⟩ := Option.bind_eq_some_iff.mp found
    have behind := Reader.length_of_after? opened
    have shorter := length_of_readIndex indexed
    omega

@[simp]
theorem read_pattern (sigil : Sigil) (limit : Nat) (text : List Char) :
    (pattern sigil limit).read text = read sigil limit text :=
  rfl

/-- A segment in the pieces of a text that is cut at its tokens. -/
def Segment.pieces {limit : Nat} : Segment limit → List (Piece Char (Fin limit))
  | .plain text => text.map .kept
  | .token index => [.found index]

/-- Every token begins with `%`. -/
theorem read_of_not_percent {sigil : Sigil} {limit : Nat} (c : Char) (text : List Char)
    (other : c ≠ '%') : read sigil limit (c :: text) = none := by
  rw [read, Sigil.text_eq_cons, Reader.after?_cons_of_ne '%' other, Option.bind_none]

/-- The segments of a text are what it is cut into at its tokens. -/
theorem flatMap_pieces_segments (sigil : Sigil) (limit : Nat) (text : List Char) :
    (segments sigil limit text).flatMap Segment.pieces = (pattern sigil limit).cut text := by
  have narrow : ∀ text, Reader.phrase sigil.text text = none →
      (pattern sigil limit).read text = none := by
    intro text refused
    simp [pattern, read, Reader.after?, refused]
  have faithful : Reader.Faithful (Reader.phrase sigil.text : Reader Char) :=
    Reader.phrase_faithful _
  induction length : text.length using Nat.strongRecOn generalizing text with
  | ind n ih =>
      rw [segments]
      split
      next absent =>
        rw [Pattern.cut_of_upTo_eq_none narrow absent]
        simp [Segment.pieces]
      next cut found =>
        have front := Reader.taken_of_upTo faithful found
        have behind := Reader.length_rest_of_upTo faithful found
        rw [Pattern.cut_of_upTo_eq_some narrow faithful found]
        split
        next index rest indexed =>
          have whole : (pattern sigil limit).read (cut.taken ++ cut.rest) = some (index, rest) := by
            simp [pattern, read, Reader.after?, front, indexed]
          have shorter := length_of_readIndex indexed
          rw [Pattern.cut_of_some whole, List.flatMap_cons, List.flatMap_cons,
            ih _ (by omega) rest rfl]
          rfl
        next unindexed =>
          have shorter := Reader.length_rest_of_upTo_phrase sigil.text_ne_nil found
          have refused : (pattern sigil limit).read (cut.taken ++ cut.rest) = none := by
            simp [pattern, read, Reader.after?, front, unindexed]
          have taken : cut.taken = '%' :: sigil.tail := by
            rw [(Reader.phrase_eq_some_iff.mp front).1, Alphabet.spell_char, Sigil.text_eq_cons]
          rw [List.flatMap_cons, ih _ (by omega) cut.rest rfl]
          rw [taken, List.cons_append] at refused ⊢
          rw [Pattern.cut_cons_of_none refused,
            Pattern.cut_append_of_notMem read_of_not_percent sigil.percent_notMem_tail]
          simp [Segment.pieces]

/-- What is made of each segment of a text can be made of each piece. -/
theorem flatMap_segments {γ : Type} {sigil : Sigil} {limit : Nat} (each : Char → List γ)
    (write : Fin limit → List γ) {view : Segment limit → List γ}
    (plain : ∀ text, view (.plain text) = text.flatMap each)
    (token : ∀ index, view (.token index) = write index) (text : List Char) :
    (segments sigil limit text).flatMap view =
      ((pattern sigil limit).cut text).flatMap fun piece =>
        match piece with
        | .kept c => each c
        | .found index => write index := by
  rw [← flatMap_pieces_segments, List.flatMap_assoc]
  congr 1
  funext segment
  cases segment with
  | plain text => rw [plain, Segment.pieces, List.flatMap_map]
  | token index => rw [token, Segment.pieces, List.flatMap_singleton]

end Token

/-- Expanding a text is replacing its tokens below the limit. -/
theorem Table.expand_eq_replace (table : Table) (limit : Nat) (text : List Char) :
    table.expand limit text =
      (Token.pattern table.sigil limit).replace
        (fun index => table.expand index (table.content index)) text := by
  rw [expand, Token.flatMap_segments (fun c => [c])
    fun index => table.expand index (table.content index)]
  · congr 1
    funext piece
    cases piece <;> rfl
  · exact fun text => by simp
  · exact fun index => rfl

end HtmlMinifier
