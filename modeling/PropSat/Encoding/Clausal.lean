import PropSat.AtomTable
import PropSat.Cnf
import PropSat.Formula.Basic

/-!
# Formulas in clausal form

A conjunction, however nested, of disjunctions of literals is read as the clauses that it is made
of, from left to right.
-/

namespace PropSat
namespace Encoding

/-- Why a formula is not read as clauses. -/
inductive Refusal where
  /-- A part of it is no literal. -/
  | notClausal
  /-- A literal comes first whose atom is not in the table. -/
  | unknownAtom
  deriving DecidableEq

/-- Read a variable or a negated variable over the atoms below a count. -/
def asLiteral (count : Nat) : Formula → Except Refusal Literal
  | .var atom => if atom < count then .ok (.positive atom) else .error .unknownAtom
  | .neg (.var atom) => if atom < count then .ok (.negative atom) else .error .unknownAtom
  | _ => .error .notClausal

/-- Read a disjunction of literals over the atoms below a count, and append them to a clause. -/
def readClause (count : Nat) : Formula → Clause → Except Refusal Clause
  | .bin .or left right, clause =>
      match readClause count left clause with
      | .ok longer => readClause count right longer
      | .error refusal => .error refusal
  | formula, clause => (asLiteral count formula).map fun literal => clause ++ [literal]

/-- Read a conjunction of disjunctions over the atoms below a count, and append their clauses. -/
def readCnf (count : Nat) : Formula → Cnf → Except Refusal Cnf
  | .bin .and left right, cnf =>
      match readCnf count left cnf with
      | .ok longer => readCnf count right longer
      | .error refusal => .error refusal
  | formula, cnf => (readClause count formula []).map cnf.push

/-- Read a conjunction of disjunctions of literals over the atoms of a table. -/
def asCnf (table : AtomTable) (formula : Formula) : Except Refusal Cnf :=
  readCnf table.count formula { atomCount := table.count }

end Encoding
end PropSat
