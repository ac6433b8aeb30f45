import PropSat.Encoding.Clausal
import PropSat.Encoding.Tseitin

/-!
# From formulas to clauses

A formula that is made of clauses already is taken as it is, unless the settings forbid it, and any
other formula is transformed.
-/

namespace PropSat
namespace Encoding

/-- How clauses were obtained. -/
inductive Method where
  /-- The formula was in clausal form. -/
  | direct
  /-- The formula was transformed. -/
  | tseitin
  deriving DecidableEq

/-- Wording of a method. -/
def Method.text : Method → String
  | direct => "direct recognition"
  | tseitin => "Tseitin transformation"

/-- The clauses of a formula. -/
structure Clausified where
  /-- How the clauses were obtained. -/
  method : Method
  /-- The clauses, over the atoms of the table. -/
  cnf : Cnf
  /-- The table given, with an atom for each subformula that needed one. -/
  table : AtomTable

/-- Find clauses for a formula; none if an atom is reached that the table does not hold. -/
def clausify? (settings : Settings) (table : AtomTable) (formula : Formula) :
    Option (Except Fault Clausified) :=
  match settings.keepClausal.value, asCnf table formula with
  | true, .ok cnf => some (.ok { method := .direct, cnf, table })
  | true, .error .unknownAtom => none
  | _, _ =>
      (tseitin? settings.iffTemplate.value table formula).map fun (outcome, table) =>
        outcome.map fun cnf => { method := .tseitin, cnf, table }

end Encoding
end PropSat
