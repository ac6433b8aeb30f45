import Mathlib.Data.List.Perm.Subperm
import PropSat.Proofs.Decimal
import PropSat.Proofs.Formula.Renaming
import PropSat.Proofs.Grammar.Arena

/-!
# The language of the reader

A text is accepted exactly if its tokens have a derivation with no more names than there are atoms.
There is then only one, its formula is the result, and the table holds the distinct names of the
text.  Whatever is read speaks about the atoms of its own table, which bear source names.  On the
beginning of a formula with too many names, reading breaks off.
-/

namespace PropSat
namespace Grammar
namespace Expression

/-- Whether a derivation is one of a text. -/
def Derives (expression : Expression) (text : String) : Prop :=
  Spells text.toList expression.tokens

/-- What is read of a derivation: its formula, over the distinct names in the order in which they
first occur. -/
def parsed (expression : Expression) : Parsed where
  formula := expression.formula (names expression.tokens).eraseDups.idxOf
  table := .ofNames (names expression.tokens).eraseDups

/-- A text has at most one derivation. -/
theorem Derives.unique {text : String} {first second : Expression} (left : first.Derives text)
    (right : second.Derives text) : first = second :=
  tokens_inj (left.tokens_eq right)

end Expression

theorem Expression.names_chain (left : Expression) (connective : Connective) (right : Operand) :
    names (Expression.chain left connective right).tokens =
      names left.tokens ++ names right.tokens := by
  rw [Expression.tokens, names_append]
  rfl

theorem Operand.names_group (inner : Expression) :
    names (Operand.group inner).tokens = names inner.tokens := by
  rw [Operand.tokens, names_cons, names_append]
  exact List.append_nil _

section Formulas

variable {atomOf : String → Nat}

mutual

/-- The atoms of the formula of an expression are those of its names. -/
theorem Expression.atoms_formula :
    ∀ expression : Expression,
      (expression.formula atomOf).atoms = (names expression.tokens).map atomOf
  | .operand only => Operand.atoms_formula only
  | .chain left connective right => by
      rw [Expression.names_chain, Expression.formula, Formula.atoms,
        Expression.atoms_formula left, Operand.atoms_formula right, List.map_append]

theorem Operand.atoms_formula :
    ∀ operand : Operand, (operand.formula atomOf).atoms = (names operand.tokens).map atomOf
  | .name text => rfl
  | .not inner => Operand.atoms_formula inner
  | .group inner => by
      rw [Operand.names_group, Operand.formula, Expression.atoms_formula inner]

end

/-- The formula of an expression speaks about the atoms of its names. -/
theorem Expression.within_formula {bound : Nat} (expression : Expression)
    (inside : ∀ name ∈ names expression.tokens, atomOf name < bound) :
    (expression.formula atomOf).within bound = true := by
  rw [Formula.within_iff, Expression.atoms_formula]
  exact List.forall_mem_map.mpr inside

end Formulas

theorem mem_names {tokens : List Token} {name : String} :
    name ∈ names tokens ↔ .name name ∈ tokens := by
  rw [names, List.mem_filterMap]
  constructor
  · rintro ⟨token, member, name_eq⟩
    cases token with
    | name other =>
        cases name_eq
        exact member
    | not | leftParen | rightParen | connective => cases name_eq
  · exact fun member => ⟨.name name, member, rfl⟩

theorem plain_vocabulary {text : List Char} {tokens : List Token} (spells : Spells text tokens) :
    (vocabulary tokens).Plain where
  distinct := distinct_vocabulary tokens
  alphanumeric _ member := spells.sourceName (mem_names.mp (List.mem_eraseDups.mp member))

/-- Tokens whose names are among those of others have no more distinct names. -/
theorem fits_of_subset {left right : List Token} (subset : names left ⊆ names right)
    (fits : (vocabulary right).Fits) : (vocabulary left).Fits := by
  have distinct_subset : (names left).eraseDups ⊆ (names right).eraseDups := fun name member =>
    List.mem_eraseDups.mpr (subset (List.mem_eraseDups.mp member))
  exact Nat.le_trans (List.subperm_of_subset (nodup_eraseDups _) distinct_subset).length_le fits

/-- Whether a result of reading has a table of source names that holds the atoms of the formula. -/
structure Parsed.Sound (parsed : Parsed) : Prop where
  /-- The names are those of source variables, each given once. -/
  plain : parsed.table.Plain
  /-- The formula speaks about the atoms of the table. -/
  within : parsed.formula.within parsed.table.count = true

theorem Parsed.Sound.plainOn {parsed : Parsed} (sound : parsed.Sound) :
    parsed.table.PlainOn parsed.formula.atoms :=
  sound.plain.plainOn (Formula.within_iff.mp sound.within)

theorem sound_of_parse? {text : String} {parsed : Parsed}
    (parse_eq : parse? text = some (.ok parsed)) : parsed.Sound := by
  obtain ⟨expression, spells, _, rfl⟩ := parse?_eq_ok_iff.mp parse_eq
  refine ⟨plain_vocabulary spells, Expression.within_formula expression ?_⟩
  intro name member
  rw [AtomTable.count_eq]
  exact List.idxOf_lt_length_of_mem (List.mem_eraseDups.mpr member)

/-- What was read has no more atoms than there are. -/
theorem fits_of_parse? {text : String} {parsed : Parsed}
    (parse_eq : parse? text = some (.ok parsed)) : parsed.table.Fits := by
  obtain ⟨_, _, fits, rfl⟩ := parse?_eq_ok_iff.mp parse_eq
  exact fits

/-- Reading a text gives the formula of its derivation and the distinct names of the text when it
has a derivation with no more names than there are atoms; the derivation is then the only one.  A
text that has no more names than that, but no derivation, gives a fault.  There is no result exactly
if some beginning of the text with more names has a partial derivation, and reading into an arena
gives the same, so that no slot, record or operand is ever missing. -/
theorem parse?_recognizes (text : String) :
    (∀ parsed, parse? text = some (.ok parsed) ↔
      ∃ expression : Expression, expression.Derives text ∧
        (∀ other : Expression, other.Derives text → other = expression) ∧
        expression.parsed.table.count ≤ atomLimit ∧ parsed = expression.parsed) ∧
    (nameCount text ≤ atomLimit →
      ((∃ fault, parse? text = some (.error fault)) ↔
        ¬ ∃ expression : Expression, expression.Derives text)) ∧
    (parse? text = none ↔
      ∃ front position, front.map Lexeme.token <+: (lex text).map Placed.lexeme ∧
        Position.start.run? front = some position ∧ atomLimit < (vocabulary front).count) ∧
    Machine.parse? text = parse? text := by
  refine ⟨?_, ?_, ?_, machine_parse?_eq text⟩
  · intro parsed
    rw [parse?_eq_ok_iff]
    constructor
    · rintro ⟨expression, derives, fits, read_off⟩
      exact ⟨expression, derives, fun other other_derives => other_derives.unique derives, fits,
        read_off⟩
    · rintro ⟨expression, derives, _, fits, read_off⟩
      exact ⟨expression, derives, fits, read_off⟩
  · intro fits
    constructor
    · rintro ⟨fault, failed⟩ ⟨expression, derives⟩
      rw [nameCount_eq derives] at fits
      have accepted := parse?_eq_ok_iff.mpr ⟨expression, derives, fits, rfl⟩
      rw [failed] at accepted
      cases accepted
    · intro underivable
      refine (rejected_of_unread fun parsed accepted => underivable ?_).faulty fits
      obtain ⟨expression, derives, _⟩ := parse?_eq_ok_iff.mp accepted
      exact ⟨expression, derives⟩
  · rw [parse?_eq_none_iff]
    simp only [AtomTable.Fits, Nat.not_le]

/-- A text with one name, twice, and a beginning of it. -/
theorem parse?_recognizes_repeated :
    (∃ parsed, parse? "a<->!a" = some (.ok parsed) ∧ parsed.table.count = 1) ∧
      parse? "a<->!" = some (.error { position := 5, expected := .expression }) ∧
      ¬ ∃ expression : Expression, expression.Derives "a<->!" := by
  have derives : (Expression.chain (.operand (.name "a")) .iff (.not (.name "a"))).Derives
      "a<->!a" := spells_iff.mpr (by with_unfolding_all rfl)
  have failed : parse? "a<->!" = some (.error { position := 5, expected := .expression }) := by
    with_unfolding_all rfl
  have one_name : nameCount "a<->!" = 1 := by with_unfolding_all rfl
  refine ⟨⟨_, ((parse?_recognizes "a<->!a").1 _).mpr
    ⟨_, derives, fun other other_derives => other_derives.unique derives, by decide, rfl⟩,
    by decide⟩, failed, ?_⟩
  exact ((parse?_recognizes "a<->!").2.1 (by rw [one_name]; decide)).mp ⟨_, failed⟩

/-- A chain of implications between the numbers up to a last one. -/
def counting : Nat → Expression
  | 0 => .operand (.name (toString 0))
  | last + 1 => .chain (counting last) .implies (.name (toString (last + 1)))

/-- The chain of implications between the numbers up to a last one, as it is written. -/
def countingText : Nat → String
  | 0 => toString 0
  | last + 1 => countingText last ++ Connective.implies.symbol ++ toString (last + 1)

theorem spells_counting (last : Nat) {rest : List Char} {more : List Token} (breaks : Breaks rest)
    (spells : Spells rest more) :
    Spells ((countingText last).toList ++ rest) ((counting last).tokens ++ more) := by
  induction last generalizing rest more with
  | zero => exact @Spells.token (.name (toString 0)) _ _ ⟨sourceName_toString 0, breaks⟩ spells
  | succ last induction =>
      have name := @Spells.token (.name (toString (last + 1))) _ _
        ⟨sourceName_toString (last + 1), breaks⟩ spells
      have arrow := @Spells.token (.connective .implies) _ _ trivial name
      have chain := induction (Connective.implies.symbol_breaks _) arrow
      simpa [counting, countingText, Expression.tokens, Operand.tokens, Token.text] using chain

theorem derives_counting (last : Nat) : (counting last).Derives (countingText last) := by
  have spells := spells_counting last breaks_nil .nil
  rw [List.append_nil, List.append_nil] at spells
  exact spells

theorem names_counting (last : Nat) :
    names (counting last).tokens = (List.range (last + 1)).map toString := by
  induction last with
  | zero => rfl
  | succ last induction =>
      rw [counting, Expression.names_chain, induction, List.range_succ (n := last + 1),
        List.map_append]
      rfl

theorem count_counting (last : Nat) : (vocabulary (counting last).tokens).count = last + 1 := by
  have apart : ((List.range (last + 1)).map toString : List String).Nodup :=
    List.Pairwise.map toString (fun _ _ different same => different (toString_inj same))
      List.nodup_range
  rw [AtomTable.count_eq, vocabulary, AtomTable.ofNames, names_counting, eraseDups_eq_self apart,
    List.length_map, List.length_range]

theorem parse?_countingText_eq_none {last : Nat} (many : atomLimit ≤ last) :
    parse? (countingText last) = none := by
  have derives := derives_counting last
  refine parse?_eq_none_of_spells derives ?_
  rw [nameCount_eq derives, count_counting]
  omega

/-- A formula with more variables than there are atoms is not read. -/
theorem parse?_counting_breaks_off :
    (∃ expression : Expression, expression.Derives (countingText atomLimit)) ∧
      parse? (countingText atomLimit) = none ∧ Machine.parse? (countingText atomLimit) = none := by
  have broken_off := parse?_countingText_eq_none (Nat.le_refl atomLimit)
  exact ⟨⟨_, derives_counting atomLimit⟩, broken_off, (machine_parse?_eq _).trans broken_off⟩

end Grammar
end PropSat
