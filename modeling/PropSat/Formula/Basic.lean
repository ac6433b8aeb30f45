import PropSat.Valuation

/-!
# Formulas

Propositional formulas are trees of variables, negations and binary connectives.  A formula has a
truth value under a partial valuation exactly when each of its atoms has one.
-/

namespace PropSat

/-- Binary connectives. -/
inductive Connective where
  | and
  | or
  | implies
  | iff
  deriving DecidableEq

namespace Connective

/-- How the connective is written in a formula. -/
def symbol : Connective → String
  | and => "&"
  | or => "|"
  | implies => "->"
  | iff => "<->"

/-- How the connective is called in a parse tree. -/
def word : Connective → String
  | and => "AND"
  | or => "OR"
  | implies => "IMPLIES"
  | iff => "EQUIVALENT"

/-- Truth function of the connective. -/
def eval : Connective → Bool → Bool → Bool
  | and, left, right => left && right
  | or, left, right => left || right
  | implies, left, right => !left || right
  | iff, left, right => left == right

end Connective

/-- A propositional formula over numbered atoms. -/
inductive Formula where
  | var (atom : Nat)
  | neg (inner : Formula)
  | bin (connective : Connective) (left right : Formula)
  deriving DecidableEq

namespace Formula

/-- Number of nodes. -/
def size : Formula → Nat
  | var _ => 1
  | neg inner => inner.size + 1
  | bin _ left right => left.size + right.size + 1

/-- Whether all atoms are below a bound. -/
def within (bound : Nat) : Formula → Bool
  | var atom => atom < bound
  | neg inner => inner.within bound
  | bin _ left right => left.within bound && right.within bound

/-- Truth value under a partial valuation, if every atom has a value. -/
def evaluate? (valuation : Valuation) : Formula → Option Bool
  | var atom => valuation[atom]?.join
  | neg inner => (inner.evaluate? valuation).map not
  | bin connective left right =>
      match left.evaluate? valuation with
      | none => none
      | some leftValue => (right.evaluate? valuation).map (connective.eval leftValue)

end Formula
end PropSat
