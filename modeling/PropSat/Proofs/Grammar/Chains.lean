import Mathlib.Data.List.Forall2
import PropSat.Proofs.Grammar.Printing

/-!
# Reading chains

Operands joined by one connective are written behind each other without parentheses, and such a
chain is read as a formula nested to the left.  A text that is put together from canonical forms,
negations, parentheses and chains is therefore read as the formula that is put together in the same
way, over the distinct names of its atoms.
-/

namespace PropSat
namespace Formula

/-- Formulas joined by a connective from the left; there has to be one. -/
def joined (connective : Connective) : List Formula → Formula
  | [] => var 0
  | first :: rest => rest.foldl (bin connective) first

section Joined

variable {connective : Connective} {formulas : List Formula}

/-- What is listed of joined formulas is what is listed of each of them. -/
theorem flatMap_joined {α : Type} (listed : Formula → List α)
    (listed_bin : ∀ left right, listed (bin connective left right) = listed left ++ listed right)
    (nonempty : formulas ≠ []) : listed (joined connective formulas) = formulas.flatMap listed := by
  cases formulas with
  | nil => exact absurd rfl nonempty
  | cons first rest =>
      rw [joined]
      induction rest generalizing first with
      | nil => simp
      | cons next rest induction =>
          rw [List.foldl_cons, induction _ (List.cons_ne_nil _ _), List.flatMap_cons,
            List.flatMap_cons, List.flatMap_cons, listed_bin, List.append_assoc]

/-- What two formulas have to satisfy for their join to satisfy it, all of several have to. -/
theorem joined_iff (satisfies : Formula → Prop)
    (satisfies_bin : ∀ left right,
      satisfies (bin connective left right) ↔ satisfies left ∧ satisfies right)
    (nonempty : formulas ≠ []) :
    satisfies (joined connective formulas) ↔ ∀ formula ∈ formulas, satisfies formula := by
  cases formulas with
  | nil => exact absurd rfl nonempty
  | cons first rest =>
      rw [joined]
      induction rest generalizing first with
      | nil => simp
      | cons next rest induction =>
          rw [List.foldl_cons, induction _ (List.cons_ne_nil _ _)]
          simp only [List.forall_mem_cons, satisfies_bin, and_assoc]

theorem rename_joined (atomOf : Nat → Nat) (nonempty : formulas ≠ []) :
    (joined connective formulas).rename atomOf =
      joined connective (formulas.map (rename atomOf)) := by
  cases formulas with
  | nil => exact absurd rfl nonempty
  | cons first rest =>
      rw [List.map_cons, joined, joined, List.foldl_map]
      exact (List.foldl_hom (rename atomOf) fun _ _ => rfl).symm

/-- The atoms of joined formulas are those of the formulas. -/
theorem atoms_joined (nonempty : formulas ≠ []) :
    (joined connective formulas).atoms = formulas.flatMap atoms :=
  flatMap_joined atoms (fun _ _ => rfl) nonempty

variable {assignment : Assignment}

/-- Formulas joined as a conjunction hold if all of them do. -/
theorem eval_joined_and (nonempty : formulas ≠ []) :
    (joined .and formulas).eval assignment = true ↔
      ∀ formula ∈ formulas, formula.eval assignment = true := by
  refine joined_iff (fun formula => formula.eval assignment = true) ?_ nonempty
  intro left right
  rw [eval, Connective.eval, Bool.and_eq_true]

/-- Formulas joined as a disjunction hold if one of them does. -/
theorem eval_joined_or (nonempty : formulas ≠ []) :
    (joined .or formulas).eval assignment = true ↔
      ∃ formula ∈ formulas, formula.eval assignment = true := by
  have none_holds : (joined .or formulas).eval assignment = false ↔
      ∀ formula ∈ formulas, formula.eval assignment = false := by
    refine joined_iff (fun formula => formula.eval assignment = false) ?_ nonempty
    intro left right
    rw [eval, Connective.eval, Bool.or_eq_false_iff]
  rw [← Bool.not_eq_false, none_holds]
  simp

end Joined

end Formula

/-- Joining the first two of some texts before the others changes nothing. -/
theorem intercalate_cons_cons_eq (separator first second : String) (rest : List String) :
    separator.intercalate (first :: second :: rest) =
      separator.intercalate ((first ++ separator ++ second) :: rest) := by
  cases rest with
  | nil =>
      rw [String.intercalate_cons_cons, String.intercalate_singleton, String.intercalate_singleton]
  | cons third rest =>
      simp only [String.intercalate_cons_cons, String.append_assoc]

namespace Grammar

/-- Whether a text is spelled by tokens, whatever comes after it with which a name cannot go on, and
the tokens name the atoms of a formula, which is read off them. -/
structure Writes (nameOf : Nat → String) (formula : Formula) (text : String) (tokens : List Token)
    (read : (String → Nat) → Formula) : Prop where
  /-- The text is spelled by the tokens. -/
  spells {rest : List Char} {more : List Token} (breaks : Breaks rest)
    (spelled : Spells rest more) : Spells (text.toList ++ rest) (tokens ++ more)
  /-- The formula is read off the tokens. -/
  formula_eq (atomOf : String → Nat) : read atomOf = formula.rename fun atom => atomOf (nameOf atom)
  /-- The tokens name the atoms of the formula. -/
  names_eq : names tokens = formula.atoms.map nameOf

/-- Whether a text is an operand that is read as a formula over named atoms. -/
def IsOperand (nameOf : Nat → String) (formula : Formula) (text : String) : Prop :=
  ∃ operand : Operand, Writes nameOf formula text operand.tokens fun atomOf =>
    operand.formula atomOf

/-- Whether a text is an expression that is read as a formula over named atoms. -/
def IsExpression (nameOf : Nat → String) (formula : Formula) (text : String) : Prop :=
  ∃ expression : Expression, Writes nameOf formula text expression.tokens fun atomOf =>
    expression.formula atomOf

section Texts

variable {nameOf : Nat → String} {formula left right : Formula} {text front back : String}

theorem isOperand_canonical (source : ∀ atom ∈ formula.atoms, SourceName (nameOf atom)) :
    IsOperand nameOf formula (formula.canonical nameOf) :=
  ⟨derivation nameOf formula,
    { spells := fun breaks spelled => spells_canonical source breaks spelled
      formula_eq := fun atomOf => formula_derivation atomOf formula
      names_eq := names_derivation formula }⟩

theorem IsOperand.isExpression (is_operand : IsOperand nameOf formula text) :
    IsExpression nameOf formula text := by
  obtain ⟨operand, writes⟩ := is_operand
  exact ⟨.operand operand, writes⟩

theorem IsOperand.not (is_operand : IsOperand nameOf formula text) :
    IsOperand nameOf (.neg formula) ("!" ++ text) := by
  obtain ⟨operand, writes⟩ := is_operand
  refine ⟨.not operand, ?_, ?_, writes.names_eq⟩
  · intro rest more breaks spelled
    have negated := @Spells.token .not _ _ trivial (writes.spells breaks spelled)
    simpa [Operand.tokens, Token.text] using negated
  · exact fun atomOf => congrArg Formula.neg (writes.formula_eq atomOf)

theorem IsExpression.chain (is_expression : IsExpression nameOf left front)
    (is_operand : IsOperand nameOf right back) (connective : Connective) :
    IsExpression nameOf (.bin connective left right) (front ++ connective.symbol ++ back) := by
  obtain ⟨expression, expression_writes⟩ := is_expression
  obtain ⟨operand, operand_writes⟩ := is_operand
  refine ⟨.chain expression connective operand, ?_, ?_, ?_⟩
  · intro rest more breaks spelled
    have operator := @Spells.token (.connective connective) _ _ trivial
      (operand_writes.spells breaks spelled)
    have whole := expression_writes.spells (connective.symbol_breaks _) operator
    simpa [Expression.tokens, Token.text] using whole
  · intro atomOf
    rw [Expression.formula, expression_writes.formula_eq, operand_writes.formula_eq,
      Formula.rename]
  · rw [Expression.names_chain, expression_writes.names_eq, operand_writes.names_eq,
      Formula.atoms, List.map_append]

theorem IsExpression.group (is_expression : IsExpression nameOf formula text) :
    IsOperand nameOf formula ("(" ++ text ++ ")") := by
  obtain ⟨expression, writes⟩ := is_expression
  refine ⟨.group expression, ?_, writes.formula_eq, ?_⟩
  · intro rest more breaks spelled
    have closed : Spells (')' :: rest) (.rightParen :: more) :=
      @Spells.token .rightParen _ _ trivial spelled
    have opened := @Spells.token .leftParen _ _ trivial (writes.spells (breaks_cons rfl) closed)
    simpa [Operand.tokens, Token.text] using opened
  · rw [Operand.names_group, writes.names_eq]

/-- Operands written behind an expression with one connective between them are chained to it. -/
theorem IsExpression.foldl (connective : Connective) {parts : List Formula} {texts : List String}
    (is_expression : IsExpression nameOf formula text)
    (operands : List.Forall₂ (IsOperand nameOf) parts texts) :
    IsExpression nameOf (parts.foldl (.bin connective) formula)
      (connective.symbol.intercalate (text :: texts)) := by
  induction operands generalizing formula text with
  | nil =>
      rw [String.intercalate_singleton]
      exact is_expression
  | cons operand operands induction =>
      rw [intercalate_cons_cons_eq]
      exact induction (is_expression.chain operand connective)

/-- Operands written behind each other with one connective between them are read as joined. -/
theorem isExpression_joined {α : Type} (connective : Connective) {entries : List α}
    (nonempty : entries ≠ []) {formulaOf : α → Formula} {textOf : α → String}
    (operands : ∀ entry ∈ entries, IsOperand nameOf (formulaOf entry) (textOf entry)) :
    IsExpression nameOf (.joined connective (entries.map formulaOf))
      (connective.symbol.intercalate (entries.map textOf)) := by
  cases entries with
  | nil => exact absurd rfl nonempty
  | cons first rest =>
      obtain ⟨first_operand, rest_operands⟩ := List.forall_mem_cons.mp operands
      refine first_operand.isExpression.foldl connective ?_
      rw [List.forall₂_map_left_iff, List.forall₂_map_right_iff, List.forall₂_same]
      exact rest_operands

end Texts

/-- What is read of an expression for a formula over named atoms: the formula over the distinct
names of its atoms. -/
def reading (nameOf : Nat → String) (formula : Formula) : Parsed where
  formula := formula.rename fun atom => (formula.atoms.map nameOf).eraseDups.idxOf (nameOf atom)
  table := .ofNames (formula.atoms.map nameOf).eraseDups

section Reading

variable {nameOf : Nat → String} {formula : Formula} {text : String}

/-- With distinct names, atoms are numbered by first occurrence. -/
theorem reading_eq (apart : ∀ first ∈ formula.atoms, ∀ second ∈ formula.atoms,
      nameOf first = nameOf second → first = second) :
    reading nameOf formula =
      { formula := formula.renumbered, table := .ofNames (formula.support.map nameOf) } := by
  rw [reading, Formula.rename_idxOf_names apart, eraseDups_map apart]
  rfl

theorem IsExpression.parse?_eq (is_expression : IsExpression nameOf formula text)
    (fits : (reading nameOf formula).table.Fits) :
    parse? text = some (.ok (reading nameOf formula)) := by
  obtain ⟨expression, writes⟩ := is_expression
  have spells := writes.spells breaks_nil .nil
  rw [List.append_nil, List.append_nil] at spells
  exact parse?_eq_of_derives spells writes.formula_eq writes.names_eq fits

theorem IsExpression.nameCount_eq (is_expression : IsExpression nameOf formula text) :
    nameCount text = (reading nameOf formula).table.count := by
  obtain ⟨expression, writes⟩ := is_expression
  have spells := writes.spells breaks_nil .nil
  rw [List.append_nil, List.append_nil] at spells
  rw [Grammar.nameCount_eq spells, vocabulary, writes.names_eq]
  rfl

theorem IsExpression.parse?_eq_none (is_expression : IsExpression nameOf formula text)
    (many : atomLimit < nameCount text) : parse? text = none := by
  obtain ⟨expression, writes⟩ := is_expression
  have spells := writes.spells breaks_nil .nil
  rw [List.append_nil, List.append_nil] at spells
  exact parse?_eq_none_of_spells spells many

/-- With names of a table that fits within the atoms that there are, so does what is read. -/
theorem fits_reading {table : AtomTable} (fits : table.Fits)
    (within : formula.within table.count = true) : (reading table.nameAt formula).table.Fits :=
  Nat.le_trans (length_names_le (Formula.within_iff.mp within)) fits

/-- The atom that is read for an atom bears its name. -/
theorem nameAt_reading {atom : Nat} (member : atom ∈ formula.atoms) :
    (reading nameOf formula).table.nameAt
        ((formula.atoms.map nameOf).eraseDups.idxOf (nameOf atom)) = nameOf atom :=
  AtomTable.nameAt_ofNames (List.mem_eraseDups.mpr (List.mem_map_of_mem member))

theorem canonical_reading :
    (reading nameOf formula).formula.canonical (reading nameOf formula).table.nameAt =
      formula.canonical nameOf :=
  Formula.canonical_rename fun _ member => nameAt_reading member

/-- On values of the names, what has been read has the value that it has with the atoms valued by
their names. -/
theorem Parsed.Sound.evaluate?_names {parsed : Parsed} (sound : parsed.Sound)
    (values : String → Bool) :
    parsed.formula.evaluate? (.ofModel (parsed.table.names.map values)) =
      some (parsed.formula.eval fun atom => values (parsed.table.nameAt atom)) := by
  have size_eq : (parsed.table.names.map values).size = parsed.table.count := Array.size_map
  rw [Formula.evaluate?_ofModel (by rw [size_eq]; exact sound.within)]
  refine congrArg some (Formula.eval_congr ?_ sound.within)
  intro atom inside
  have in_names : atom < parsed.table.names.size := inside
  simp [Assignment.ofModel, AtomTable.nameAt, in_names]

theorem eval_reading (values : String → Bool) :
    ((reading nameOf formula).formula.eval fun atom =>
        values ((reading nameOf formula).table.nameAt atom)) =
      formula.eval fun atom => values (nameOf atom) := by
  rw [reading, Formula.eval_rename]
  apply Formula.eval_congr_of_atoms
  intro atom member
  exact congrArg values (nameAt_reading member)

/-- What is read of an expression has the value of its formula. -/
theorem IsExpression.evaluate?_reading (is_expression : IsExpression nameOf formula text)
    (fits : (reading nameOf formula).table.Fits) (values : String → Bool) :
    (reading nameOf formula).formula.evaluate?
        (.ofModel ((reading nameOf formula).table.names.map values)) =
      some (formula.eval fun atom => values (nameOf atom)) := by
  rw [(sound_of_parse? (is_expression.parse?_eq fits)).evaluate?_names values, eval_reading]

/-- A formula that was read speaks about every atom of its table. -/
theorem mem_atoms_of_parse? {parsed : Parsed} (parse_eq : parse? text = some (.ok parsed))
    {atom : Nat} (inside : atom < parsed.table.count) : atom ∈ parsed.formula.atoms := by
  obtain ⟨expression, _, _, rfl⟩ := parse?_eq_ok_iff.mp parse_eq
  rw [AtomTable.count_eq] at inside
  have listed : atom < (names expression.tokens).eraseDups.length := inside
  have member := List.mem_eraseDups.mp (List.getElem_mem listed)
  have numbered : (names expression.tokens).eraseDups.idxOf
      (names expression.tokens).eraseDups[atom] = atom :=
    (nodup_eraseDups _).idxOf_getElem atom listed
  change atom ∈ (expression.formula (atomIn (vocabulary expression.tokens))).atoms
  rw [Expression.atoms_formula]
  exact List.mem_map.mpr ⟨_, member, numbered⟩

end Reading
end Grammar
end PropSat
