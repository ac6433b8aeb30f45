import Mathlib.Data.List.Basic
import PropSat.Proofs.Grammar.Recognition

/-!
# Reading printed formulas

A canonical form has an evident derivation, in which every binary formula is an expression of two
operands in parentheses.  Reading it gives the formula back, over the names of its atoms in the
order in which they first occur, if there are as many atoms.  So what has been read is printed and
read again without a change, and formulas over one table of source names that are printed alike are
the same.
-/

namespace PropSat
namespace Grammar

/-- The derivation of a canonical form. -/
def derivation (nameOf : Nat → String) : Formula → Operand
  | .var atom => .name (nameOf atom)
  | .neg inner => .not (derivation nameOf inner)
  | .bin connective left right =>
      .group (.chain (.operand (derivation nameOf left)) connective (derivation nameOf right))

section Derivation

variable {nameOf : Nat → String}

/-- The derivation of a formula is one of its canonical form, whatever tokens come after it. -/
theorem spells_canonical {formula : Formula}
    (source : ∀ atom ∈ formula.atoms, SourceName (nameOf atom)) {rest : List Char}
    {tokens : List Token} (breaks : Breaks rest) (spells : Spells rest tokens) :
    Spells ((formula.canonical nameOf).toList ++ rest)
      ((derivation nameOf formula).tokens ++ tokens) := by
  induction formula generalizing rest tokens with
  | var atom =>
      exact @Spells.token (.name (nameOf atom)) _ _ ⟨source atom List.mem_cons_self, breaks⟩ spells
  | neg inner induction =>
      rw [Formula.toList_canonical_neg]
      exact @Spells.token .not _ _ trivial (induction source breaks spells)
  | bin connective left right left_induction right_induction =>
      obtain ⟨left_source, right_source⟩ := List.forall_mem_append.mp source
      have closed : Spells (')' :: rest) (.rightParen :: tokens) :=
        @Spells.token .rightParen _ _ trivial spells
      have right_spells := right_induction right_source (breaks_cons rfl) closed
      have operator_spells := @Spells.token (.connective connective) _ _ trivial right_spells
      have left_spells :=
        left_induction left_source (connective.symbol_breaks _) operator_spells
      have opened := @Spells.token .leftParen _ _ trivial left_spells
      rw [Formula.toList_canonical_bin]
      simpa [derivation, Operand.tokens, Expression.tokens, Token.text] using opened

theorem formula_derivation (atomOf : String → Nat) (formula : Formula) :
    (derivation nameOf formula).formula atomOf =
      formula.rename fun atom => atomOf (nameOf atom) := by
  induction formula with
  | var atom => rfl
  | neg inner induction => exact congrArg Formula.neg induction
  | bin connective left right left_induction right_induction =>
      rw [derivation, Operand.formula, Expression.formula, Expression.formula, left_induction,
        right_induction, Formula.rename]

theorem names_derivation (formula : Formula) :
    names (derivation nameOf formula).tokens = formula.atoms.map nameOf := by
  induction formula with
  | var atom => rfl
  | neg inner induction => exact induction
  | bin connective left right left_induction right_induction =>
      rw [derivation, Operand.names_group, Expression.names_chain, Expression.tokens,
        left_induction, right_induction, Formula.atoms, List.map_append]

/-- A text whose derivation has a formula over named atoms, and names its atoms in their order, is
read as the formula over the distinct names. -/
theorem parse?_eq_of_derives {formula : Formula} {expression : Expression} {text : String}
    (derives : expression.Derives text)
    (formula_eq : ∀ atomOf : String → Nat,
      expression.formula atomOf = formula.rename fun atom => atomOf (nameOf atom))
    (names_eq : names expression.tokens = formula.atoms.map nameOf)
    (fits : (formula.atoms.map nameOf).eraseDups.length ≤ atomLimit) :
    parse? text =
      some (.ok
        { formula := formula.rename fun atom =>
            (formula.atoms.map nameOf).eraseDups.idxOf (nameOf atom)
          table := .ofNames (formula.atoms.map nameOf).eraseDups }) := by
  rw [← names_eq] at fits
  refine parse?_eq_ok_iff.mpr ⟨expression, derives, fits, ?_⟩
  rw [formula_eq, vocabulary, names_eq]
  rfl

theorem derives_canonical {formula : Formula}
    (source : ∀ atom ∈ formula.atoms, SourceName (nameOf atom)) :
    (Expression.operand (derivation nameOf formula)).Derives (formula.canonical nameOf) := by
  have spells := spells_canonical source breaks_nil .nil
  rw [List.append_nil, List.append_nil] at spells
  exact spells

/-- Reading a canonical form gives the formula over the distinct names of its atoms. -/
theorem parse?_canonical_eq {formula : Formula}
    (source : ∀ atom ∈ formula.atoms, SourceName (nameOf atom))
    (fits : (formula.atoms.map nameOf).eraseDups.length ≤ atomLimit) :
    parse? (formula.canonical nameOf) =
      some (.ok
        { formula := formula.rename fun atom =>
            (formula.atoms.map nameOf).eraseDups.idxOf (nameOf atom)
          table := .ofNames (formula.atoms.map nameOf).eraseDups }) :=
  parse?_eq_of_derives (derives_canonical source) (formula_derivation · formula)
    (names_derivation formula) fits

end Derivation

theorem canonical?_eq {table : AtomTable} {formula : Formula}
    (inside : ∀ atom ∈ formula.atoms, atom < table.count) :
    formula.canonical? table = some (formula.canonical table.nameAt) := by
  rw [Formula.canonical?, if_pos (Formula.within_iff.mpr inside)]

/-- Atoms of a table have no more names than the table. -/
theorem length_names_le {table : AtomTable} {atoms : List Nat}
    (inside : ∀ atom ∈ atoms, atom < table.count) :
    (atoms.map table.nameAt).eraseDups.length ≤ table.count := by
  have subset : (atoms.map table.nameAt).eraseDups ⊆ table.names.toList := by
    intro name member
    obtain ⟨atom, listed, rfl⟩ := List.mem_map.mp (List.mem_eraseDups.mp member)
    exact AtomTable.nameAt_mem (inside atom listed)
  rw [AtomTable.count_eq]
  exact (List.subperm_of_subset (nodup_eraseDups _) subset).length_le

/-- Over names of source variables, reading a canonical form numbers the atoms by first occurrence
and keeps their names. -/
theorem parse?_canonical_of_plainOn {table : AtomTable} {formula : Formula}
    (plain : table.PlainOn formula.atoms) (fits : table.Fits) :
    parse? (formula.canonical table.nameAt) =
      some (.ok { formula := formula.renumbered, table := table.restrict formula }) := by
  rw [parse?_canonical_eq plain.source (Nat.le_trans (length_names_le plain.inside) fits),
    Formula.rename_idxOf_names plain.apart, eraseDups_map plain.apart]
  rfl

/-- The atom of a name of a text bears the name. -/
theorem nameAt_vocabulary {tokens : List Token} {name : String} (member : name ∈ names tokens) :
    (vocabulary tokens).nameAt (atomIn (vocabulary tokens) name) = name :=
  AtomTable.nameAt_ofNames (List.mem_eraseDups.mpr member)

/-- What has been read is printed and read again without a change. -/
theorem parse?_canonical_of_parse? {text : String} {parsed : Parsed}
    (parse_eq : parse? text = some (.ok parsed)) :
    parse? (parsed.formula.canonical parsed.table.nameAt) = some (.ok parsed) := by
  have source := (sound_of_parse? parse_eq).plainOn.source
  obtain ⟨expression, _, fits, rfl⟩ := parse?_eq_ok_iff.mp parse_eq
  -- The atoms bear the names of the text in their order, so they are numbered as before.
  have atoms_eq : (expression.formula (atomIn (vocabulary expression.tokens))).atoms =
      (names expression.tokens).map (atomIn (vocabulary expression.tokens)) :=
    Expression.atoms_formula expression
  have names_eq : (expression.formula (atomIn (vocabulary expression.tokens))).atoms.map
      (vocabulary expression.tokens).nameAt = names expression.tokens := by
    rw [atoms_eq, List.map_map]
    exact (List.map_congr_left fun name member => nameAt_vocabulary member).trans (List.map_id' _)
  have fixed : ∀ atom ∈ (expression.formula (atomIn (vocabulary expression.tokens))).atoms,
      (names expression.tokens).eraseDups.idxOf ((vocabulary expression.tokens).nameAt atom) =
        atom := by
    intro atom member
    rw [atoms_eq] at member
    obtain ⟨name, listed, rfl⟩ := List.mem_map.mp member
    rw [nameAt_vocabulary listed]
    rfl
  rw [parse?_canonical_eq source (by rw [names_eq]; exact fits), names_eq,
    Formula.rename_eq_self fixed]
  rfl

/-- Formulas over one table of source names that are printed alike are the same. -/
theorem eq_of_canonical_eq {table : AtomTable} {left right : Formula}
    (plain : table.PlainOn (left.atoms ++ right.atoms))
    (same : left.canonical table.nameAt = right.canonical table.nameAt) : left = right := by
  have left_derives := derives_canonical (plain.mono (List.subset_append_left _ _)).source
  have right_derives := derives_canonical (plain.mono (List.subset_append_right _ _)).source
  rw [same] at left_derives
  have derivations_eq := Expression.operand.inj (left_derives.unique right_derives)
  have formulas_eq := congrArg
    (Operand.formula ((left.atoms ++ right.atoms).map table.nameAt).idxOf) derivations_eq
  rw [formula_derivation, formula_derivation] at formulas_eq
  refine Formula.rename_inj ?_ formulas_eq
  intro first first_mem second second_mem atoms_same
  have listed : table.nameAt first ∈ (left.atoms ++ right.atoms).map table.nameAt :=
    List.mem_map_of_mem (List.mem_append_left _ first_mem)
  exact plain.apart first (List.mem_append_left _ first_mem) second
    (List.mem_append_right _ second_mem) ((List.idxOf_inj listed).mp atoms_same)

theorem canonical?_inj {table : AtomTable} {left right : Formula}
    (plain : table.PlainOn (left.atoms ++ right.atoms))
    (same : left.canonical? table = right.canonical? table) : left = right := by
  obtain ⟨left_inside, right_inside⟩ := List.forall_mem_append.mp plain.inside
  rw [canonical?_eq left_inside, canonical?_eq right_inside] at same
  exact eq_of_canonical_eq plain (Option.some.inj same)

end Grammar

/-- Over source names, distinct formulas have distinct canonical forms. -/
theorem Formula.canonical_inj {table : AtomTable} (plain : table.Plain) {left right : Formula}
    (left_within : left.within table.count = true) (right_within : right.within table.count = true)
    (same : left.canonical table.nameAt = right.canonical table.nameAt) : left = right := by
  apply Grammar.eq_of_canonical_eq (plain.plainOn ?_) same
  exact List.forall_mem_append.mpr
    ⟨Formula.within_iff.mp left_within, Formula.within_iff.mp right_within⟩

/-- Printing and reading a formula over a table that has no more atoms than there are numbers its
atoms by first occurrence and keeps their names.  What was itself read comes back unchanged, and
distinct formulas over one table of source names are printed differently. -/
theorem Formula.canonical?_read :
    (∀ (table : AtomTable) (formula : Formula), table.count ≤ atomLimit →
      table.PlainOn formula.atoms → ∃ printed, formula.canonical? table = some printed ∧
        Grammar.parse? printed =
          some (.ok { formula := formula.renumbered, table := table.restrict formula })) ∧
    (∀ text parsed, Grammar.parse? text = some (.ok parsed) →
      (∃ printed, parsed.formula.canonical? parsed.table = some printed ∧
        Grammar.parse? printed = some (.ok parsed)) ∧
      ∀ left right : Formula, left.within parsed.table.count = true →
        right.within parsed.table.count = true → left ≠ right →
          left.canonical? parsed.table ≠ right.canonical? parsed.table) ∧
    ∀ (table : AtomTable) (left right : Formula), table.PlainOn (left.atoms ++ right.atoms) →
      left ≠ right → left.canonical? table ≠ right.canonical? table := by
  refine ⟨?_, ?_, ?_⟩
  · intro table formula fits plain
    exact ⟨_, Grammar.canonical?_eq plain.inside, Grammar.parse?_canonical_of_plainOn plain fits⟩
  · intro text parsed parse_eq
    have sound := Grammar.sound_of_parse? parse_eq
    refine ⟨⟨_, Grammar.canonical?_eq sound.plainOn.inside,
      Grammar.parse?_canonical_of_parse? parse_eq⟩, ?_⟩
    intro left right left_within right_within apart same
    refine apart (Grammar.canonical?_inj (sound.plain.plainOn ?_) same)
    exact List.forall_mem_append.mpr
      ⟨Formula.within_iff.mp left_within, Formula.within_iff.mp right_within⟩
  · intro table left right plain apart same
    exact apart (Grammar.canonical?_inj plain same)

/-- A formula over two atoms of a table of three, whose other name is not that of a source
variable. -/
theorem Formula.canonical?_read_disjunction :
    (∃ printed,
      (bin .or (var 2) (neg (bin .iff (var 1) (var 2)))).canonical? (.ofNames ["!x", "b", "a"]) =
        some printed ∧
      Grammar.parse? printed =
        some (.ok
          { formula := bin .or (var 0) (neg (bin .iff (var 1) (var 0)))
            table := .ofNames ["a", "b"] }) ∧
      ∃ again,
        (bin .or (var 0) (neg (bin .iff (var 1) (var 0)))).canonical? (.ofNames ["a", "b"]) =
          some again ∧
        Grammar.parse? again =
          some (.ok
            { formula := bin .or (var 0) (neg (bin .iff (var 1) (var 0)))
              table := .ofNames ["a", "b"] })) ∧
    (var 1).canonical? (.ofNames ["a", "b"]) ≠ (neg (var 1)).canonical? (.ofNames ["a", "b"]) ∧
    (var 1).canonical? (.ofNames ["!x", "b", "a"]) ≠
      (neg (var 2)).canonical? (.ofNames ["!x", "b", "a"]) := by
  have plain : (AtomTable.ofNames ["!x", "b", "a"]).PlainOn [2, 1, 2] :=
    { inside := by decide
      source := by
        intro atom member
        simp only [List.mem_cons, List.not_mem_nil, or_false] at member
        rcases member with rfl | rfl | rfl <;> exact ⟨by decide, List.all_eq_true.mp rfl⟩
      apart := by decide }
  obtain ⟨printed, printed_eq, read⟩ := canonical?_read.1 _
    (bin .or (var 2) (neg (bin .iff (var 1) (var 2)))) (by decide) plain
  obtain ⟨again, apart⟩ := canonical?_read.2.1 _ _ read
  refine ⟨⟨printed, printed_eq, read, again⟩, ?_, ?_⟩
  · exact apart (var 1) (neg (var 1)) rfl rfl (by decide)
  · exact canonical?_read.2.2 _ (var 1) (neg (var 2)) (plain.mono (by decide)) (by decide)

end PropSat
