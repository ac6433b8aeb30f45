import PropSat.Cnf
import PropSat.Formula.Text
import PropSat.Random.Source

/-!
# Random formulas

Formulas in conjunctive normal form within bounds on their size, and formulas of any shape within a
depth, drawn from a source of randomness.
-/

namespace PropSat
namespace Random

/-- Bounds on a random formula in conjunctive normal form. -/
structure Bounds where
  /-- One more than the greatest number of variables. -/
  atoms : Nat := 20
  /-- The greatest number of clauses. -/
  clauses : Nat := 5
  /-- The greatest number of literals in a clause. -/
  literals : Nat := 5

variable {σ : Type} [Source σ]

/-- A literal on one of some atoms. -/
def literal (atomCount : Nat) : Draw σ Literal := do
  let atom ← .number (.upTo 0 atomCount)
  let negated ← .toss .even
  return { atom, polarity := !negated }

/-- A clause of at least one literal on some atoms. -/
def clause (atomCount mostLiterals : Nat) : Draw σ Clause := do
  let literalCount ← .number (.through 1 mostLiterals)
  (literal atomCount).times literalCount

/-- A conjunction of at least one clause over at least two atoms. -/
def cnf (bounds : Bounds) : Draw σ Cnf := do
  let atomCount ← .number (.upTo 2 bounds.atoms)
  let clauseCount ← .number (.through 1 bounds.clauses)
  let clauses ← (clause atomCount bounds.literals).times clauseCount
  return { atomCount, clauses }

/-- The text of a random formula in conjunctive normal form, with numbers as names. -/
def cnfText (bounds : Bounds) : Draw σ String := return (← cnf bounds).text

/-- The connective of a kind drawn. -/
def connectiveOf : Nat → Connective
  | 1 => .and
  | 2 => .or
  | 3 => .implies
  | _ => .iff

/-- A variable on one of some atoms. -/
def leaf (atomCount : Nat) : Draw σ Formula := .var <$> .number (.upTo 0 atomCount)

/-- A formula on some atoms with at most the given number of nested connectives. -/
def formula (atomCount : Nat) : Nat → Draw σ Formula
  | 0 => leaf atomCount
  | depth + 1 => do
      if ← .toss .oneInFive then
        leaf atomCount
      else
        match ← .number (.upTo 0 5) with
        | 0 => .neg <$> formula atomCount depth
        | kind =>
            let left ← formula atomCount depth
            let right ← formula atomCount depth
            return .bin (connectiveOf kind) left right

/-- Name of an atom of a random formula. -/
def variableName (atom : Nat) : String := "x" ++ toString atom

/-- The text of a random formula. -/
def formulaText (atomCount depth : Nat) : Draw σ String :=
  return (← formula atomCount depth).canonical variableName

end Random
end PropSat
