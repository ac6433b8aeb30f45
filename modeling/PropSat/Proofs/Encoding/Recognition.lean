import PropSat.Encoding.Clausal
import PropSat.Proofs.Formula.Renaming

/-!
# Recognition of clausal form

A literal is a variable or a negated variable, a disjunction is a literal or joins disjunctions, and
a conjunction is a disjunction or joins conjunctions.  Just the conjunctions are read as clauses,
one for each of the disjunctions that they join, with its literals from left to right, and the
clauses hold where the conjunction does.
-/

namespace PropSat

/-- Whether there are clauses, and none of them is empty. -/
structure Cnf.Occupied (cnf : Cnf) : Prop where
  /-- There are clauses. -/
  clauses_ne : cnf.clauses ≠ []
  /-- No clause is empty. -/
  clause_ne : ∀ clause ∈ cnf.clauses, clause ≠ []

namespace Formula

/-- A variable or a negated variable. -/
inductive IsLiteral : Formula → Prop
  | var (atom : Nat) : IsLiteral (.var atom)
  | neg (atom : Nat) : IsLiteral (.neg (.var atom))

/-- A literal, or two disjunctions joined. -/
inductive IsDisjunction : Formula → Prop
  | literal {formula : Formula} (is_literal : formula.IsLiteral) : IsDisjunction formula
  | or {left right : Formula} (of_left : IsDisjunction left) (of_right : IsDisjunction right) :
      IsDisjunction (.bin .or left right)

/-- A disjunction, or two conjunctions joined. -/
inductive IsConjunction : Formula → Prop
  | disjunction {formula : Formula} (is_disjunction : formula.IsDisjunction) :
      IsConjunction formula
  | and {left right : Formula} (of_left : IsConjunction left) (of_right : IsConjunction right) :
      IsConjunction (.bin .and left right)

/-- The parts that a formula joins by nested uses of a connective, from left to right: the greatest
ones that are not joined by it themselves. -/
def operands (connective : Connective) : Formula → List Formula
  | bin outer left right =>
      if outer = connective then left.operands connective ++ right.operands connective
      else [bin outer left right]
  | other => [other]

/-- The variables of a formula from left to right, as literals that every negation around them
negates. -/
def literals : Formula → List Literal
  | var atom => [.positive atom]
  | neg inner => inner.literals.map Literal.negate
  | bin _ left right => left.literals ++ right.literals

theorem map_atom_literals (formula : Formula) :
    formula.literals.map Literal.atom = formula.atoms := by
  induction formula with
  | var atom => rfl
  | neg inner induction =>
      rw [literals, List.map_map, atoms, ← induction]
      rfl
  | bin connective left right left_induction right_induction =>
      rw [literals, List.map_append, atoms, left_induction, right_induction]

theorem literals_ne_nil (formula : Formula) : formula.literals ≠ [] := by
  induction formula with
  | var atom => exact List.cons_ne_nil _ _
  | neg inner induction => simpa [literals] using induction
  | bin connective left right left_induction _ =>
      exact List.append_ne_nil_of_left_ne_nil left_induction _

theorem operands_eq_singleton {connective : Connective} {formula : Formula}
    (other : ∀ left right, formula ≠ .bin connective left right) :
    formula.operands connective = [formula] := by
  cases formula with
  | var atom => rfl
  | neg inner => rfl
  | bin outer left right =>
      rw [operands, if_neg]
      rintro rfl
      exact other left right rfl

section Shapes

variable {formula left right : Formula} {assignment : Assignment}

theorem IsLiteral.exists_literals_eq (is_literal : formula.IsLiteral) :
    ∃ literal, formula.literals = [literal] := by
  cases is_literal with
  | var atom => exact ⟨_, rfl⟩
  | neg atom => exact ⟨_, rfl⟩

theorem isDisjunction_or_iff :
    (bin .or left right).IsDisjunction ↔ left.IsDisjunction ∧ right.IsDisjunction := by
  constructor
  · intro joined
    cases joined with
    | literal is_literal => cases is_literal
    | or of_left of_right => exact ⟨of_left, of_right⟩
  · exact fun both => .or both.1 both.2

theorem isDisjunction_iff_isLiteral (other : ∀ left right, formula ≠ .bin .or left right) :
    formula.IsDisjunction ↔ formula.IsLiteral := by
  refine ⟨fun disjunction => ?_, .literal⟩
  cases disjunction with
  | literal is_literal => exact is_literal
  | or _ _ => exact (other _ _ rfl).elim

theorem isConjunction_and_iff :
    (bin .and left right).IsConjunction ↔ left.IsConjunction ∧ right.IsConjunction := by
  constructor
  · intro joined
    cases joined with
    | disjunction is_disjunction =>
        cases is_disjunction with
        | literal is_literal => cases is_literal
    | and of_left of_right => exact ⟨of_left, of_right⟩
  · exact fun both => .and both.1 both.2

theorem isConjunction_iff_isDisjunction (other : ∀ left right, formula ≠ .bin .and left right) :
    formula.IsConjunction ↔ formula.IsDisjunction := by
  refine ⟨fun conjunction => ?_, .disjunction⟩
  cases conjunction with
  | disjunction is_disjunction => exact is_disjunction
  | and _ _ => exact (other _ _ rfl).elim

theorem IsDisjunction.ne_and (disjunction : formula.IsDisjunction) :
    ∀ left right, formula ≠ .bin .and left right := by
  rintro left right rfl
  cases disjunction with
  | literal is_literal => cases is_literal

/-- The literals of a disjunction, as a clause, hold where it does. -/
theorem IsDisjunction.holds_literals_iff (disjunction : formula.IsDisjunction) :
    Clause.Holds assignment formula.literals ↔ formula.eval assignment = true := by
  induction disjunction with
  | literal is_literal =>
      cases is_literal with
      | var atom => simp [Clause.Holds, Literal.Holds, literals, eval, Literal.positive]
      | neg atom =>
          simp [Clause.Holds, Literal.Holds, literals, eval, Literal.positive, Literal.negate]
  | or _ _ left_induction right_induction =>
      rw [eval, Connective.eval, Bool.or_eq_true, ← left_induction, ← right_induction]
      simp only [Clause.Holds, literals, List.mem_append, or_and_right, exists_or]

end Shapes

/-- The clauses of a formula: the literals of each part that it joins by conjunctions, from left to
right. -/
def clauses (formula : Formula) : List Clause := (formula.operands .and).map literals

section Clauses

variable {count : Nat} {formula : Formula} {assignment : Assignment}

theorem clauses_and (left right : Formula) :
    (bin .and left right).clauses = left.clauses ++ right.clauses := by
  rw [clauses, operands, if_pos rfl, List.map_append]
  rfl

theorem clauses_eq_singleton (other : ∀ left right, formula ≠ .bin .and left right) :
    formula.clauses = [formula.literals] := by
  rw [clauses, operands_eq_singleton other, List.map_singleton]

theorem flatten_clauses (formula : Formula) : formula.clauses.flatten = formula.literals := by
  induction formula with
  | var atom => simp [clauses, operands]
  | neg inner => simp [clauses, operands]
  | bin connective left right left_induction right_induction =>
      by_cases same : connective = .and
      · rw [same, clauses_and, List.flatten_append, left_induction, right_induction]
        rfl
      · rw [clauses_eq_singleton (by simp [same])]
        exact List.flatten_singleton

theorem occupied_clauses : { atomCount := count, clauses := formula.clauses : Cnf }.Occupied where
  clauses_ne := by
    intro none_listed
    have unlisted : formula.clauses.flatten = [] := congrArg List.flatten none_listed
    exact formula.literals_ne_nil (flatten_clauses formula ▸ unlisted)
  clause_ne := List.forall_mem_map.mpr fun operand _ => operand.literals_ne_nil

/-- The clauses are about the atoms of the formula. -/
theorem inRange_clauses (within : formula.within count = true) :
    { atomCount := count, clauses := formula.clauses : Cnf }.InRange := by
  intro clause member literal occurs
  have listed : literal ∈ formula.clauses.flatten := List.mem_flatten_of_mem member occurs
  rw [flatten_clauses] at listed
  have occurs_atom : literal.atom ∈ formula.atoms := by
    rw [← map_atom_literals]
    exact List.mem_map_of_mem listed
  exact within_iff.mp within literal.atom occurs_atom

/-- The clauses of a conjunction hold where it does. -/
theorem IsConjunction.clauses_hold_iff (conjunction : formula.IsConjunction) :
    (∀ clause ∈ formula.clauses, clause.Holds assignment) ↔ formula.eval assignment = true := by
  induction conjunction with
  | disjunction is_disjunction =>
      rw [clauses_eq_singleton is_disjunction.ne_and, List.forall_mem_singleton]
      exact is_disjunction.holds_literals_iff
  | and _ _ left_induction right_induction =>
      rw [clauses_and, List.forall_mem_append, left_induction, right_induction, eval,
        Connective.eval, Bool.and_eq_true]

end Clauses
end Formula

namespace Encoding

section Reading

variable {count : Nat} {formula : Formula} {table : AtomTable}

theorem map_eq_ok_iff {α β : Type} {next : α → β} {outcome : Except Refusal α} {result : β} :
    outcome.map next = .ok result ↔ ∃ value, outcome = .ok value ∧ result = next value := by
  cases outcome with
  | error refusal => simp [Except.map]
  | ok value => simp [Except.map, eq_comm]

theorem asLiteral_eq_ok_iff {literal : Literal} :
    asLiteral count formula = .ok literal ↔
      formula.IsLiteral ∧ formula.within count = true ∧ formula.literals = [literal] := by
  unfold asLiteral
  split
  · rename_i atom
    have is_literal : (Formula.var atom).IsLiteral := .var atom
    by_cases inside : atom < count <;> simp [is_literal, Formula.within, Formula.literals, inside]
  · rename_i atom
    have is_literal : (Formula.neg (.var atom)).IsLiteral := .neg atom
    have negated : (Literal.positive atom).negate = .negative atom := rfl
    by_cases inside : atom < count <;>
      simp [is_literal, Formula.within, Formula.literals, negated, inside]
  · rename_i not_var not_neg
    have no_literal : ¬ formula.IsLiteral := by
      intro is_literal
      cases is_literal with
      | var atom => exact not_var atom rfl
      | neg atom => exact not_neg atom rfl
    simp [no_literal]

/-- Just the disjunctions are read as clauses, of which each lists its literals. -/
theorem readClause_eq_ok_iff {clause result : Clause} :
    readClause count formula clause = .ok result ↔
      formula.IsDisjunction ∧ formula.within count = true ∧
        result = clause ++ formula.literals := by
  fun_induction readClause count formula clause generalizing result with
  | case1 left right clause longer read left_induction right_induction =>
      obtain ⟨of_left, left_within, rfl⟩ := left_induction.mp read
      rw [right_induction, Formula.isDisjunction_or_iff, Formula.within, Formula.literals,
        left_within, Bool.true_and, List.append_assoc, and_iff_right of_left]
  | case2 left right clause refusal refused left_induction =>
      rw [Formula.isDisjunction_or_iff, Formula.within, Bool.and_eq_true]
      refine iff_of_false (by simp) ?_
      rintro ⟨⟨of_left, _⟩, ⟨left_within, _⟩, _⟩
      cases refused.symm.trans (left_induction.mpr ⟨of_left, left_within, rfl⟩)
  | case3 formula clause other =>
      rw [Formula.isDisjunction_iff_isLiteral other, map_eq_ok_iff]
      simp only [asLiteral_eq_ok_iff]
      constructor
      · rintro ⟨literal, ⟨is_literal, within, literals_eq⟩, rfl⟩
        exact ⟨is_literal, within, by rw [literals_eq]⟩
      · rintro ⟨is_literal, within, rfl⟩
        obtain ⟨literal, literals_eq⟩ := is_literal.exists_literals_eq
        exact ⟨literal, ⟨is_literal, within, literals_eq⟩, by rw [literals_eq]⟩

/-- Just the conjunctions are read as clauses, one for each disjunction that they join. -/
theorem readCnf_eq_ok_iff {cnf result : Cnf} :
    readCnf count formula cnf = .ok result ↔
      formula.IsConjunction ∧ formula.within count = true ∧
        result = { cnf with clauses := cnf.clauses ++ formula.clauses } := by
  fun_induction readCnf count formula cnf generalizing result with
  | case1 left right cnf longer read left_induction right_induction =>
      obtain ⟨of_left, left_within, rfl⟩ := left_induction.mp read
      rw [right_induction, Formula.isConjunction_and_iff, Formula.within, Formula.clauses_and,
        left_within, Bool.true_and, List.append_assoc, and_iff_right of_left]
  | case2 left right cnf refusal refused left_induction =>
      rw [Formula.isConjunction_and_iff, Formula.within, Bool.and_eq_true]
      refine iff_of_false (by simp) ?_
      rintro ⟨⟨of_left, _⟩, ⟨left_within, _⟩, _⟩
      cases refused.symm.trans (left_induction.mpr ⟨of_left, left_within, rfl⟩)
  | case3 formula cnf other =>
      rw [Formula.isConjunction_iff_isDisjunction other, Formula.clauses_eq_singleton other,
        map_eq_ok_iff]
      simp only [readClause_eq_ok_iff, List.nil_append]
      constructor
      · rintro ⟨clause, ⟨is_disjunction, within, rfl⟩, rfl⟩
        exact ⟨is_disjunction, within, rfl⟩
      · rintro ⟨is_disjunction, within, rfl⟩
        exact ⟨_, ⟨is_disjunction, within, rfl⟩, rfl⟩

/-- Just the conjunctions over the atoms of a table are read, as their clauses. -/
theorem asCnf_eq_ok_iff {cnf : Cnf} :
    asCnf table formula = .ok cnf ↔
      formula.IsConjunction ∧ formula.within table.count = true ∧
        cnf = { atomCount := table.count, clauses := formula.clauses } := by
  rw [asCnf, readCnf_eq_ok_iff, List.nil_append]

/-- A refusal to read part of a formula whose atoms are known is never for a missing one. -/
theorem readClause_ne_unknownAtom (within : formula.within count = true) (clause : Clause) :
    readClause count formula clause ≠ .error .unknownAtom := by
  fun_induction readClause count formula clause with
  | case1 left right clause longer read left_induction right_induction =>
      rw [Formula.within, Bool.and_eq_true] at within
      exact right_induction within.2
  | case2 left right clause refusal refused left_induction =>
      rw [Formula.within, Bool.and_eq_true] at within
      exact refused ▸ left_induction within.1
  | case3 formula clause other =>
      unfold asLiteral
      split
      · rename_i atom
        have inside : atom < count := by simpa [Formula.within] using within
        simp [inside, Except.map]
      · rename_i atom
        have inside : atom < count := by simpa [Formula.within] using within
        simp [inside, Except.map]
      · simp [Except.map]

theorem readCnf_ne_unknownAtom (within : formula.within count = true) (cnf : Cnf) :
    readCnf count formula cnf ≠ .error .unknownAtom := by
  fun_induction readCnf count formula cnf with
  | case1 left right cnf longer read left_induction right_induction =>
      rw [Formula.within, Bool.and_eq_true] at within
      exact right_induction within.2
  | case2 left right cnf refusal refused left_induction =>
      rw [Formula.within, Bool.and_eq_true] at within
      exact refused ▸ left_induction within.1
  | case3 formula cnf other =>
      have known := readClause_ne_unknownAtom within []
      cases read : readClause count formula [] with
      | ok clause => simp [Except.map]
      | error refusal =>
          simpa [read, Except.map] using known

/-- Over the atoms of a table, no atom is found missing. -/
theorem asCnf_ne_unknownAtom (within : formula.within table.count = true) :
    asCnf table formula ≠ .error .unknownAtom :=
  readCnf_ne_unknownAtom within _

/-- The clauses that a formula is read as are equivalent to it. -/
theorem asCnf_sound {cnf : Cnf} (read : asCnf table formula = .ok cnf) :
    cnf.atomCount = table.count ∧ cnf.InRange ∧
      ∀ assignment, cnf.Holds assignment ↔ formula.eval assignment = true := by
  obtain ⟨conjunction, within, rfl⟩ := asCnf_eq_ok_iff.mp read
  exact ⟨rfl, Formula.inRange_clauses within, fun _ => conjunction.clauses_hold_iff⟩

end Reading

/-- Whether clauses are those of a formula as it is written, over the atoms of a table. -/
structure Transcribes (table : AtomTable) (formula : Formula) (cnf : Cnf) : Prop extends
    cnf.Occupied where
  /-- No atom is added. -/
  count_eq : cnf.atomCount = table.count
  /-- There is a clause for each part joined by conjunctions, in order, with its literals. -/
  clauses_eq : cnf.clauses = (formula.operands .and).map Formula.literals
  /-- Together the clauses list the literals of the formula. -/
  flatten_eq : cnf.clauses.flatten = formula.literals
  /-- On every model of the atoms, the clauses and the formula have the same value. -/
  same_value (model : Array Bool) : model.size = table.count →
    ∃ value, cnf.holdsIn? model = some value ∧ formula.evaluate? (.ofModel model) = some value

theorem transcribes_of_asCnf {table : AtomTable} {formula : Formula} {cnf : Cnf}
    (read : asCnf table formula = .ok cnf) : Transcribes table formula cnf := by
  obtain ⟨count_eq, in_range, equivalent⟩ := asCnf_sound read
  obtain ⟨_, within, rfl⟩ := asCnf_eq_ok_iff.mp read
  refine ⟨Formula.occupied_clauses, rfl, rfl, formula.flatten_clauses, fun model size_eq => ?_⟩
  obtain ⟨value, value_eq, holds_iff⟩ := Cnf.holdsIn?_eq in_range size_eq
  refine ⟨value, value_eq, ?_⟩
  rw [Formula.evaluate?_ofModel (size_eq ▸ within), Option.some.injEq, Bool.eq_iff_iff,
    ← equivalent, holds_iff]

/-- Over a table that holds its atoms, a formula is read as clauses just if it is a conjunction of
disjunctions of literals, and is refused for its shape otherwise.  The clauses are then those that
are written, and say what the formula says. -/
theorem asCnf_recognises {table : AtomTable} {formula : Formula}
    (within : formula.within table.count = true) :
    ((∃ cnf, asCnf table formula = .ok cnf) ↔ formula.IsConjunction) ∧
      (¬ formula.IsConjunction → asCnf table formula = .error .notClausal) ∧
      ∀ cnf, asCnf table formula = .ok cnf → Transcribes table formula cnf := by
  refine ⟨?_, ?_, fun _ => transcribes_of_asCnf⟩
  · constructor
    · rintro ⟨cnf, read⟩
      exact (asCnf_eq_ok_iff.mp read).1
    · exact fun conjunction => ⟨_, asCnf_eq_ok_iff.mpr ⟨conjunction, within, rfl⟩⟩
  · intro other
    cases read : asCnf table formula with
    | ok cnf => exact (other (asCnf_eq_ok_iff.mp read).1).elim
    | error refusal =>
        cases refusal with
        | notClausal => rfl
        | unknownAtom => exact (asCnf_ne_unknownAtom within read).elim

/-- The formula `(a|!b)&c`. -/
def joinedClauses : Formula := .bin .and (.bin .or (.var 0) (.neg (.var 1))) (.var 2)

theorem asCnf_recognises_joinedClauses :
    joinedClauses.within (AtomTable.ofNames ["a", "b", "c"]).count = true ∧
      ((∃ cnf, asCnf (.ofNames ["a", "b", "c"]) joinedClauses = .ok cnf) ↔
        joinedClauses.IsConjunction) ∧
      (¬ joinedClauses.IsConjunction →
        asCnf (.ofNames ["a", "b", "c"]) joinedClauses = .error .notClausal) ∧
      ∀ cnf, asCnf (.ofNames ["a", "b", "c"]) joinedClauses = .ok cnf →
        Transcribes (.ofNames ["a", "b", "c"]) joinedClauses cnf := by
  have within : joinedClauses.within (AtomTable.ofNames ["a", "b", "c"]).count = true := by rfl
  exact ⟨within, asCnf_recognises within⟩

example :
    asCnf (.ofNames ["a", "b", "c"]) joinedClauses =
      .ok { atomCount := 3, clauses := [[.positive 0, .negative 1], [.positive 2]] } := by
  rfl

example :
    asCnf (.ofNames ["a", "b", "c"]) (.bin .or (.var 0) (.bin .and (.var 1) (.var 2))) =
      .error .notClausal := by
  rfl

end Encoding
end PropSat
