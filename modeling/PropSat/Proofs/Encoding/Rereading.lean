import PropSat.Proofs.Encoding.Faithfulness
import PropSat.Proofs.Grammar.Chains

/-!
# Reading clauses back

Clauses are printed with the names of their atoms, and an auxiliary atom bears the canonical form of
the formula that it stands for.  What is printed is a formula again, in which such a name is no
longer an atom but the formula that it spells.  The clauses that define auxiliary atoms then say
nothing, and the last one says what the formula says.
-/

namespace PropSat

/-- The formula that a literal is, given one for each atom. -/
def Literal.formula (partOf : Nat → Formula) (literal : Literal) : Formula :=
  if literal.polarity then partOf literal.atom else .neg (partOf literal.atom)

/-- The formula that a clause is, given one for each atom. -/
def Clause.formula (partOf : Nat → Formula) (clause : Clause) : Formula :=
  .joined .or (clause.map (Literal.formula partOf))

/-- The formula that clauses are, given one for each atom. -/
def Cnf.formula (partOf : Nat → Formula) (cnf : Cnf) : Formula :=
  .joined .and (cnf.clauses.map (Clause.formula partOf))

section Values

variable {partOf : Nat → Formula} {assignment : Assignment}

theorem Literal.eval_formula (literal : Literal) :
    (literal.formula partOf).eval assignment =
      literal.value fun atom => (partOf atom).eval assignment := by
  obtain ⟨atom, polarity⟩ := literal
  cases polarity with
  | true => exact (Literal.value_positive (fun atom => (partOf atom).eval assignment) atom).symm
  | false => exact (Literal.value_negative (fun atom => (partOf atom).eval assignment) atom).symm

theorem Literal.atoms_formula (literal : Literal) :
    (literal.formula partOf).atoms = (partOf literal.atom).atoms := by
  obtain ⟨atom, polarity⟩ := literal
  cases polarity <;> rfl

/-- A clause with formulas for its atoms holds if it does with the values of the formulas. -/
theorem Clause.eval_formula {clause : Clause} (clause_ne : clause ≠ []) :
    (clause.formula partOf).eval assignment = true ↔
      clause.Holds fun atom => (partOf atom).eval assignment := by
  rw [formula, Formula.eval_joined_or (by simpa using clause_ne), Holds]
  simp only [List.mem_map, exists_exists_and_eq_and, Literal.eval_formula,
    Literal.holds_iff_value]

/-- Clauses with formulas for their atoms hold if they do with the values of the formulas. -/
theorem Cnf.Occupied.eval_formula {cnf : Cnf} (occupied : cnf.Occupied) :
    (cnf.formula partOf).eval assignment = true ↔
      cnf.Holds fun atom => (partOf atom).eval assignment := by
  rw [formula, Formula.eval_joined_and (by simpa using occupied.clauses_ne), Cnf.Holds,
    List.forall_mem_map]
  exact forall₂_congr fun clause member => Clause.eval_formula (occupied.clause_ne clause member)

theorem Cnf.Occupied.mem_atoms_formula {cnf : Cnf} (occupied : cnf.Occupied) {atom : Nat} :
    atom ∈ (cnf.formula partOf).atoms ↔
      ∃ clause ∈ cnf.clauses, ∃ literal ∈ clause, atom ∈ (partOf literal.atom).atoms := by
  rw [formula, Formula.atoms_joined (by simpa using occupied.clauses_ne), List.flatMap_map,
    List.mem_flatMap]
  refine exists_congr fun clause => and_congr_right fun member => ?_
  have clause_ne : clause.map (Literal.formula partOf) ≠ [] := by
    simpa using occupied.clause_ne clause member
  rw [Clause.formula, Formula.atoms_joined clause_ne, List.flatMap_map, List.mem_flatMap]
  simp only [Literal.atoms_formula]

end Values

/-- Written form of a literal, given one for each atom. -/
def Literal.spelled (textOf : Nat → String) (literal : Literal) : String :=
  if literal.polarity then textOf literal.atom else "!" ++ textOf literal.atom

/-- Written form of a clause, given one for each atom. -/
def Clause.spelled (textOf : Nat → String) (clause : Clause) : String :=
  "(" ++ "|".intercalate (clause.map (Literal.spelled textOf)) ++ ")"

/-- Written form of clauses, given one for each atom. -/
def Cnf.spelled (textOf : Nat → String) (cnf : Cnf) : String :=
  "&".intercalate (cnf.clauses.map (Clause.spelled textOf))

section Spelled

variable {nameOf textOf : Nat → String} {partOf : Nat → Formula}

theorem Literal.isOperand_spelled {literal : Literal}
    (operand : Grammar.IsOperand nameOf (partOf literal.atom) (textOf literal.atom)) :
    Grammar.IsOperand nameOf (literal.formula partOf) (literal.spelled textOf) := by
  rw [formula, spelled]
  split
  · exact operand
  · exact operand.not

/-- If the forms of the atoms are operands, so is the form of a clause. -/
theorem Clause.isOperand_spelled {clause : Clause} (clause_ne : clause ≠ [])
    (operands : ∀ literal ∈ clause,
      Grammar.IsOperand nameOf (partOf literal.atom) (textOf literal.atom)) :
    Grammar.IsOperand nameOf (clause.formula partOf) (clause.spelled textOf) :=
  (Grammar.isExpression_joined .or clause_ne fun literal member =>
    Literal.isOperand_spelled (operands literal member)).group

/-- If the forms of the atoms are operands, the form of clauses is an expression. -/
theorem Cnf.Occupied.isExpression_spelled {cnf : Cnf} (occupied : cnf.Occupied)
    (operands : ∀ clause ∈ cnf.clauses, ∀ literal ∈ clause,
      Grammar.IsOperand nameOf (partOf literal.atom) (textOf literal.atom)) :
    Grammar.IsExpression nameOf (cnf.formula partOf) (cnf.spelled textOf) :=
  Grammar.isExpression_joined .and occupied.clauses_ne fun clause member =>
    Clause.isOperand_spelled (occupied.clause_ne clause member) (operands clause member)

end Spelled

/-- Whether every atom of a table bears the canonical form of a formula over source names. -/
structure AtomTable.StandsFor (table source : AtomTable) (partOf : Nat → Formula) : Prop where
  /-- The formulas are over the source atoms. -/
  within : ∀ atom < table.count, (partOf atom).within source.count = true
  /-- Their forms are the names. -/
  nameAt_eq : ∀ atom < table.count, table.nameAt atom = (partOf atom).canonical source.nameAt

namespace AtomTable

variable {table source : AtomTable} {partOf : Nat → Formula}

theorem standsFor_self (source : AtomTable) : source.StandsFor source .var where
  within := by simp [Formula.within]
  nameAt_eq := fun _ _ => rfl

/-- After a transformation, every atom bears the form of a source atom or of a compound part. -/
theorem exists_standsFor_grow {formula : Formula} (within : formula.within source.count = true) :
    ∃ partOf, (source.grow formula).StandsFor source partOf := by
  -- An atom that was there stands for itself, and one that was added for the part that it names.
  have each : ∀ atom, ∃ part : Formula, atom < (source.grow formula).count →
      part.within source.count = true ∧
        (source.grow formula).nameAt atom = part.canonical source.nameAt := by
    intro atom
    by_cases inside : atom < (source.grow formula).count
    · rcases mem_names_includingAll.mp (nameAt_mem inside) with given | added
      · obtain ⟨origin, named⟩ := exists_name?_of_mem given
        have origin_inside := name?_lt_count named
        rw [name?_eq_nameAt origin_inside] at named
        refine ⟨.var origin, fun _ => ⟨by simpa [Formula.within] using origin_inside, ?_⟩⟩
        exact (Option.some.inj named).symm
      · obtain ⟨part, member, spelled⟩ := List.mem_map.mp added
        exact ⟨part, fun _ => ⟨Formula.within_of_mem_compounds within member, spelled.symm⟩⟩
    · exact ⟨.var 0, fun bounded => absurd bounded inside⟩
  obtain ⟨partOf, described⟩ := Classical.axiomOfChoice each
  exact ⟨partOf, fun atom inside => (described atom inside).1,
    fun atom inside => (described atom inside).2⟩

namespace StandsFor

/-- An atom that bears the form of a formula stands for that formula. -/
theorem partOf_eq (stands : table.StandsFor source partOf) (plain : source.Plain) {atom : Nat}
    {part : Formula} (named : table.name? atom = some (part.canonical source.nameAt))
    (within : part.within source.count = true) : partOf atom = part := by
  have inside := name?_lt_count named
  rw [name?_eq_nameAt inside, stands.nameAt_eq atom inside] at named
  exact Formula.canonical_inj plain (stands.within atom inside) within (Option.some.inj named)

variable {clause : Clause} {cnf : Cnf}

theorem isOperand_nameAt (stands : table.StandsFor source partOf) (plain : source.Plain) {atom : Nat}
    (inside : atom < table.count) :
    Grammar.IsOperand source.nameAt (partOf atom) (table.nameAt atom) := by
  rw [stands.nameAt_eq atom inside]
  apply Grammar.isOperand_canonical
  exact (plain.plainOn (Formula.within_iff.mp (stands.within atom inside))).source

/-- A printed clause is an operand, with the formulas that its atoms stand for. -/
theorem isOperand_named (stands : table.StandsFor source partOf) (plain : source.Plain)
    (clause_ne : clause ≠ []) (inside : ∀ literal ∈ clause, literal.atom < table.count) :
    Grammar.IsOperand source.nameAt (clause.formula partOf) (clause.named table) :=
  Clause.isOperand_spelled clause_ne fun literal member =>
    stands.isOperand_nameAt plain (inside literal member)

/-- Printed clauses are an expression, with the formulas that their atoms stand for. -/
theorem isExpression_named (stands : table.StandsFor source partOf) (plain : source.Plain)
    (occupied : cnf.Occupied)
    (inside : ∀ clause ∈ cnf.clauses, ∀ literal ∈ clause, literal.atom < table.count) :
    Grammar.IsExpression source.nameAt (cnf.formula partOf) (cnf.named table) :=
  occupied.isExpression_spelled fun clause member literal occurs =>
    stands.isOperand_nameAt plain (inside clause member literal occurs)

end StandsFor
end AtomTable

namespace Encoding

variable {source : AtomTable} {formula : Formula}

/-- Whether clauses over a table say what a formula says, once every atom is read as the formula
that it stands for. -/
structure Restates (source : AtomTable) (formula : Formula) (table : AtomTable) (cnf : Cnf)
    (partOf : Nat → Formula) : Prop where
  /-- The atoms of the table stand for formulas over the source atoms. -/
  stands : table.StandsFor source partOf
  /-- The clauses can be printed. -/
  occupied : cnf.Occupied
  /-- They are about the atoms of the table. -/
  inside : ∀ clause ∈ cnf.clauses, ∀ literal ∈ clause, literal.atom < table.count
  /-- They say what the formula says. -/
  holds_iff (assignment : Assignment) :
    (cnf.Holds fun atom => (partOf atom).eval assignment) ↔ formula.eval assignment = true
  /-- They are about every atom of the formula. -/
  covers : ∀ atom ∈ formula.atoms, ∃ clause ∈ cnf.clauses, ∃ literal ∈ clause,
    atom ∈ (partOf literal.atom).atoms

/-- The clauses that a formula is read as restate it, with the atoms standing for themselves. -/
theorem restates_of_asCnf {cnf : Cnf} (read : asCnf source formula = .ok cnf) :
    Restates source formula source cnf .var := by
  obtain ⟨count_eq, in_range, equivalent⟩ := asCnf_sound read
  obtain ⟨_, _, rfl⟩ := asCnf_eq_ok_iff.mp read
  refine ⟨AtomTable.standsFor_self source, Formula.occupied_clauses, in_range, equivalent, ?_⟩
  intro atom occurs
  rw [← formula.map_atom_literals, ← formula.flatten_clauses] at occurs
  obtain ⟨literal, listed, rfl⟩ := List.mem_map.mp occurs
  obtain ⟨clause, member, literal_mem⟩ := List.mem_flatten.mp listed
  exact ⟨clause, member, literal, literal_mem, List.mem_singleton_self _⟩

section Transformed

variable {partOf : Nat → Formula} {assignment : Assignment}

theorem Gate.clause_ne_nil (template : IffTemplate) (gate : Gate) :
    ∀ clause ∈ gate.clauses template, clause ≠ [] := by
  cases gate with
  | negation input output => simp [Gate.clauses]
  | binary connective left right output =>
      cases connective <;> cases template <;> simp [Gate.clauses, conjunction, equivalence]

/-- After a transformation, every source atom stands for itself. -/
theorem partOf_source (plain : source.Plain)
    (stands : (source.grow formula).StandsFor source partOf) :
    ∀ atom < source.count, partOf atom = .var atom := by
  intro atom inside
  exact stands.partOf_eq plain
    ((source.below_grow formula).name? (AtomTable.name?_eq_nameAt inside))
    (by simpa [Formula.within] using inside)

/-- After a transformation, the atom of a compound part stands for it. -/
theorem partOf_representative (plain : source.Plain)
    (within : formula.within source.count = true)
    (stands : (source.grow formula).StandsFor source partOf) :
    ∀ part ∈ formula.compounds, partOf ((source.grow formula).representative part) = part := by
  intro part member
  have part_within := Formula.within_of_mem_compounds within member
  have named := plain.distinct.name?_representative_grow within member
  rw [(source.below_grow formula).canonical_eq part_within] at named
  exact stands.partOf_eq plain named part_within

/-- After a transformation, the atom of the whole formula stands for it. -/
theorem partOf_whole (plain : source.Plain) (within : formula.within source.count = true)
    (stands : (source.grow formula).StandsFor source partOf) :
    partOf ((source.grow formula).representative formula) = formula := by
  cases formula with
  | var atom =>
      have inside : atom < source.count := by simpa [Formula.within] using within
      have still_inside := Nat.lt_of_lt_of_le inside (source.below_grow (.var atom)).count_le
      rw [representative_grow_var plain.distinct (.var atom) atom still_inside]
      exact partOf_source plain stands atom inside
  | neg inner =>
      exact partOf_representative plain within stands _ (Formula.mem_compounds_self rfl)
  | bin connective left right =>
      exact partOf_representative plain within stands _ (Formula.mem_compounds_self rfl)

/-- With the values of the formulas that the atoms stand for, every compound part has its value at
its atom, and the formula has the value that it has with the values of the source atoms. -/
theorem values_of_standsFor (plain : source.Plain) (within : formula.within source.count = true)
    (stands : (source.grow formula).StandsFor source partOf) :
    (formula.eval fun atom => (partOf atom).eval assignment) = formula.eval assignment ∧
      ∀ part ∈ formula.compounds,
        (partOf ((source.grow formula).representative part)).eval assignment =
          part.eval fun atom => (partOf atom).eval assignment := by
  have agree : ∀ atom < source.count, (partOf atom).eval assignment = assignment atom := by
    intro atom inside
    rw [partOf_source plain stands atom inside]
    rfl
  refine ⟨Formula.eval_congr agree within, ?_⟩
  intro part member
  rw [partOf_representative plain within stands part member,
    Formula.eval_congr agree (Formula.within_of_mem_compounds within member)]

/-- The clauses of a transformation restate the formula. -/
theorem restates_transformed (plain : source.Plain) (within : formula.within source.count = true)
    (stands : (source.grow formula).StandsFor source partOf) :
    Restates source formula (source.grow formula) (transformed .direct source formula) partOf where
  stands := stands
  occupied :=
    { clauses_ne := List.append_ne_nil_of_right_ne_nil _ (List.cons_ne_nil _ _)
      clause_ne := by
        refine List.forall_mem_append.mpr ⟨?_, by simp⟩
        exact GateSet.forall_mem_clauses_iff.mpr fun gate _ => gate.clause_ne_nil .direct }
  inside := transformed_inRange plain.distinct within .direct
  holds_iff := by
    intro assignment
    obtain ⟨whole, parts⟩ := values_of_standsFor plain within stands
    rw [transformed_holds_iff plain.distinct within, whole, and_iff_left parts]
  covers := by
    intro atom occurs
    refine ⟨_, List.mem_append_right _ (List.mem_singleton_self _), _,
      List.mem_singleton_self _, ?_⟩
    rw [Literal.positive, partOf_whole plain within stands]
    exact occurs

/-- All clauses of a transformation but the last hold with the values of the formulas that the atoms
stand for, whether or not the formula holds. -/
theorem holds_of_mem_dropLast (plain : source.Plain) (within : formula.within source.count = true)
    (stands : (source.grow formula).StandsFor source partOf) :
    ∀ clause ∈ (transformed .direct source formula).clauses.dropLast,
      clause.Holds fun atom => (partOf atom).eval assignment := by
  have final_within := Formula.within_mono (source.below_grow formula).count_le within
  rw [transformed, List.dropLast_concat, GateSet.forall_mem_clauses_iff]
  simp only [GateSet.mem_gates_insertAll_empty_iff, Gate.clauses_hold_iff,
    Formula.gates_hold_iff (representative_grow_var plain.distinct formula) final_within]
  exact (values_of_standsFor plain within stands).2

end Transformed

section Printed

variable {table : AtomTable} {cnf : Cnf} {clause : Clause} {partOf : Nat → Formula}

theorem clause_named?_eq (inside : ∀ literal ∈ clause, literal.atom < table.count) :
    clause.named? table = some (clause.named table) := by
  have within : clause.within table.count = true := by simpa [Clause.within] using inside
  rw [Clause.named?, if_pos within]

theorem cnf_named?_eq
    (inside : ∀ clause ∈ cnf.clauses, ∀ literal ∈ clause, literal.atom < table.count) :
    cnf.named? table = some (cnf.named table) := by
  have within : cnf.clauses.all (Clause.within table.count) = true := by
    simpa [Clause.within] using inside
  rw [Cnf.named?, if_pos within]

theorem Restates.eval_formula (restates : Restates source formula table cnf partOf)
    (assignment : Assignment) :
    (cnf.formula partOf).eval assignment = formula.eval assignment := by
  rw [Bool.eq_iff_iff, restates.occupied.eval_formula, restates.holds_iff]

/-- Every atom of a clause being read as the formula that it stands for, the clause is about source
atoms. -/
theorem Restates.within_clause (restates : Restates source formula table cnf partOf)
    (member : clause ∈ cnf.clauses) : (clause.formula partOf).within source.count = true := by
  rw [Formula.within_iff, Clause.formula,
    Formula.atoms_joined (by simpa using restates.occupied.clause_ne clause member),
    List.flatMap_map]
  intro atom occurs
  obtain ⟨literal, literal_mem, part_occurs⟩ := List.mem_flatMap.mp occurs
  rw [Literal.atoms_formula] at part_occurs
  have part_within := restates.stands.within literal.atom (restates.inside clause member _ literal_mem)
  exact Formula.within_iff.mp part_within atom part_occurs

theorem Restates.within_formula (restates : Restates source formula table cnf partOf) :
    (cnf.formula partOf).within source.count = true := by
  rw [Formula.within_iff, Cnf.formula,
    Formula.atoms_joined (by simpa using restates.occupied.clauses_ne), List.flatMap_map]
  intro atom occurs
  obtain ⟨clause, member, clause_occurs⟩ := List.mem_flatMap.mp occurs
  exact Formula.within_iff.mp (restates.within_clause member) atom clause_occurs

/-- Clauses that restate a formula with all source atoms are about the source atoms, once every atom
is read as the formula that it stands for. -/
theorem Restates.mem_atoms_iff (restates : Restates source formula table cnf partOf)
    (complete : ∀ atom < source.count, atom ∈ formula.atoms) {atom : Nat} :
    atom ∈ (cnf.formula partOf).atoms ↔ atom < source.count := by
  constructor
  · exact fun occurs => Formula.within_iff.mp restates.within_formula atom occurs
  · exact fun inside =>
      restates.occupied.mem_atoms_formula.mpr (restates.covers atom (complete atom inside))

/-- Whether printed clauses are read as a formula over the same names that has the same value
whatever the values of the names are. -/
def Rereads (parsed : Grammar.Parsed) (table : AtomTable) (cnf : Cnf) : Prop :=
  ∃ printed read, cnf.named? table = some printed ∧
    Grammar.parse? printed = some (.ok read) ∧
    read.table.names.toList.Perm parsed.table.names.toList ∧
    ∀ values : String → Bool, ∃ answer,
      read.formula.evaluate? (.ofModel (read.table.names.map values)) = some answer ∧
      parsed.formula.evaluate? (.ofModel (parsed.table.names.map values)) = some answer

theorem Restates.rereads {parsed : Grammar.Parsed} {text : String}
    (restates : Restates parsed.table parsed.formula table cnf partOf)
    (parse_eq : Grammar.parse? text = some (.ok parsed)) : Rereads parsed table cnf := by
  have sound := Grammar.sound_of_parse? parse_eq
  have fits := Grammar.fits_reading (Grammar.fits_of_parse? parse_eq) restates.within_formula
  have is_expression :=
    restates.stands.isExpression_named sound.plain restates.occupied restates.inside
  refine ⟨_, _, cnf_named?_eq restates.inside, is_expression.parse?_eq fits, ?_, ?_⟩
  · refine (List.perm_ext_iff_of_nodup (nodup_eraseDups _) sound.plain.distinct).mpr fun name => ?_
    have complete : ∀ atom < parsed.table.count, atom ∈ parsed.formula.atoms :=
      fun _ inside => Grammar.mem_atoms_of_parse? parse_eq inside
    rw [List.mem_eraseDups, List.mem_map]
    simp only [restates.mem_atoms_iff complete]
    constructor
    · rintro ⟨atom, inside, rfl⟩
      exact AtomTable.nameAt_mem inside
    · intro listed
      obtain ⟨atom, named⟩ := AtomTable.exists_name?_of_mem listed
      have inside := AtomTable.name?_lt_count named
      rw [AtomTable.name?_eq_nameAt inside] at named
      exact ⟨atom, inside, Option.some.inj named⟩
  · intro values
    refine ⟨_, is_expression.evaluate?_reading fits values, ?_⟩
    rw [sound.evaluate?_names values, restates.eval_formula]

/-- Whether a printed clause is read as a formula that is true whatever the values of the names
are. -/
def RereadsTrue (table : AtomTable) (clause : Clause) : Prop :=
  ∃ line again, clause.named? table = some line ∧ Grammar.parse? line = some (.ok again) ∧
    ∀ values : String → Bool,
      again.formula.evaluate? (.ofModel (again.table.names.map values)) = some true

/-- A clause that defines an auxiliary atom says nothing once it is printed. -/
theorem rereadsTrue_defining (plain : source.Plain) (fits : source.Fits)
    (within : formula.within source.count = true)
    (stands : (source.grow formula).StandsFor source partOf) :
    ∀ clause ∈ (transformed .direct source formula).clauses.dropLast,
      RereadsTrue (source.grow formula) clause := by
  intro clause defining
  have restates := restates_transformed plain within stands
  have listed := List.dropLast_subset _ defining
  have clause_ne := restates.occupied.clause_ne clause listed
  have is_expression :=
    (stands.isOperand_named plain clause_ne (restates.inside clause listed)).isExpression
  have clause_fits := Grammar.fits_reading fits (restates.within_clause listed)
  refine ⟨_, _, clause_named?_eq (restates.inside clause listed),
    is_expression.parse?_eq clause_fits, ?_⟩
  intro values
  rw [is_expression.evaluate?_reading clause_fits values]
  exact congrArg some ((Clause.eval_formula clause_ne).mpr
    (holds_of_mem_dropLast plain within stands clause defining))

end Printed

/-- The clauses of a text are printed by their names as a text that is read again, as a formula over
the same names that has the same value whatever the values of the names are.  Of a transformation,
every clause that defines an auxiliary atom is read as a formula that is true whatever they are. -/
theorem clausify?_reread {text : String} {parsed : Grammar.Parsed}
    (parse_eq : Grammar.parse? text = some (.ok parsed)) {settings : Settings}
    (direct : settings.iffTemplate.value = .direct) :
    Compiles settings parsed fun compiled =>
      Rereads parsed compiled.table compiled.cnf ∧
      (compiled.method = .tseitin →
        ∀ clause ∈ compiled.cnf.clauses.dropLast, RereadsTrue compiled.table clause) := by
  have ⟨plain, within⟩ := Grammar.sound_of_parse? parse_eq
  apply compiles_of_parse? parse_eq
  · exact fun cnf as_read => ⟨(restates_of_asCnf as_read).rereads parse_eq, by simp⟩
  · rw [direct]
    obtain ⟨partOf, stands⟩ := AtomTable.exists_standsFor_grow within
    exact ⟨(restates_transformed plain within stands).rereads parse_eq,
      fun _ => rereadsTrue_defining plain (Grammar.fits_of_parse? parse_eq) within stands⟩

theorem clausify?_reread_of_negated_equivalence :
    Grammar.parse? "!(a<->b)" = some
        (.ok { formula := .neg (.bin .iff (.var 0) (.var 1)), table := .ofNames ["a", "b"] }) ∧
      ({} : Settings).iffTemplate.value = .direct ∧
      ∃ compiled,
        clausify? {} (.ofNames ["a", "b"]) (.neg (.bin .iff (.var 0) (.var 1))) =
            some (.ok compiled) ∧
          Rereads
            { formula := .neg (.bin .iff (.var 0) (.var 1)), table := .ofNames ["a", "b"] }
            compiled.table compiled.cnf ∧
          (compiled.method = .tseitin →
            ∀ clause ∈ compiled.cnf.clauses.dropLast, RereadsTrue compiled.table clause) := by
  have parse_eq : Grammar.parse? "!(a<->b)" = some
      (.ok { formula := .neg (.bin .iff (.var 0) (.var 1)), table := .ofNames ["a", "b"] }) := by
    with_unfolding_all rfl
  have direct : ({} : Settings).iffTemplate.value = .direct := rfl
  exact ⟨parse_eq, direct, (clausify?_reread parse_eq direct).exists_clausify? (by decide)⟩

end Encoding
end PropSat
