import PropSat.AtomTable
import PropSat.Encoding.Gate
import PropSat.Formula.Text

/-!
# The Tseitin transformation

Each compound subformula gets an auxiliary atom that is named by the canonical form of the
subformula, so equal subformulas share one atom, also across several transformations with one
table.  Operands are represented before the formula that they belong to.  The result is made of the
clauses of the gates and a last clause that asserts the whole formula.  A transformation that needs
an atom when all are given out fails, and the table keeps what it got before.
-/

namespace PropSat
namespace Encoding

/-- The names and gates gathered so far. -/
structure Draft where
  /-- Atoms of the variables and of the subformulas seen. -/
  table : AtomTable
  /-- Definitions of the auxiliary atoms seen. -/
  gates : GateSet := {}

/-- How a subformula is referred to. -/
structure Handle where
  /-- Literal that stands for the subformula. -/
  literal : Literal
  /-- Canonical form of the subformula. -/
  name : String

/-- Represent a compound formula with a given name by the output of a gate. -/
def Draft.define (draft : Draft) (name : String) (gate : Literal → Gate) :
    Except Fault Handle × Draft :=
  match draft.table.intern name with
  | (.ok atom, table) =>
      let output := Literal.positive atom
      (.ok { literal := output, name }, { table, gates := draft.gates.insert (gate output) })
  | (.error fault, table) => (.error fault, { draft with table })

/-- Represent a formula, its operands first and the left one before the right; none if a variable is
not in the table when it is reached. -/
def encode? : Formula → Draft → Option (Except Fault Handle × Draft)
  | .var atom, draft =>
      (draft.table.name? atom).map fun name => (.ok { literal := .positive atom, name }, draft)
  | .neg inner, draft =>
      match encode? inner draft with
      | some (.ok input, draft) =>
          some (draft.define ("!" ++ input.name) (.negation input.literal))
      | other => other
  | .bin connective left right, draft =>
      match encode? left draft with
      | some (.ok first, draft) =>
          match encode? right draft with
          | some (.ok second, draft) =>
              some
                (draft.define ("(" ++ first.name ++ connective.symbol ++ second.name ++ ")")
                  (.binary connective first.literal second.literal))
          | other => other
      | other => other

/-- Clauses that define all subformulas of a formula and assert the formula, and the extended table;
none if the table lacks a variable of the formula. -/
def tseitin? (template : IffTemplate) (table : AtomTable) (formula : Formula) :
    Option (Except Fault Cnf × AtomTable) :=
  (encode? formula { table }).map fun (outcome, draft) =>
    (outcome.map fun root =>
      { atomCount := draft.table.count
        clauses := draft.gates.clauses template ++ [[root.literal]] },
      draft.table)

end Encoding
end PropSat
