import PropSat.Cnf
import PropSat.Formula.Basic
import PropSat.Settings

/-!
# Gates

A gate defines its output literal as the negation of one literal or as a connective applied to two.
It is written as clauses that hold exactly when the definition does; an equivalence may instead be
chained, which also ties its operands together.  Gates are kept in a set ordered by their keys.
-/

namespace PropSat
namespace Encoding

/-- The definition of an output literal. -/
inductive Gate where
  /-- The output is the negation of the input. -/
  | negation (input output : Literal)
  /-- The output is a connective applied to two literals. -/
  | binary (connective : Connective) (left right output : Literal)
  deriving DecidableEq

namespace Gate

/-- Digit that stands for a connective in a key. -/
def tag : Connective → String
  | .and => "0"
  | .or => "1"
  | .implies => "2"
  | .iff => "3"

/-- Text that identifies a gate.  A negation has its output in the place of a second operand. -/
def key : Gate → String
  | negation input output => input.text ++ ";" ++ output.text ++ ";" ++ output.text ++ ";!"
  | binary connective left right output =>
      left.text ++ ";" ++ right.text ++ ";" ++ output.text ++ ";" ++ tag connective

/-- Clauses that define the third literal as the conjunction of the first two. -/
def conjunction (left right output : Literal) : List Clause :=
  [[left.negate, right.negate, output], [left, output.negate], [right, output.negate]]

/-- Clauses that define the third literal as the equivalence of the first two. -/
def equivalence : IffTemplate → Literal → Literal → Literal → List Clause
  | .direct, left, right, output =>
      [[left.negate, right.negate, output], [left, right, output],
        [left, right.negate, output.negate], [left.negate, right, output.negate]]
  | .chained, left, right, output =>
      [[left.negate, right], [left, right.negate], [right.negate, output],
        [right, output.negate]]

/-- The clauses of a gate. -/
def clauses (template : IffTemplate) : Gate → List Clause
  | negation input output => [[input.negate, output.negate], [input, output]]
  | binary .and left right output => conjunction left right output
  | binary .or left right output => conjunction left.negate right.negate output.negate
  | binary .implies left right output => conjunction left right.negate output.negate
  | binary .iff left right output => equivalence template left right output

end Gate

/-- Gates by increasing key, each key once. -/
structure GateSet where
  /-- The gates with their keys. -/
  entries : List (String × Gate) := []

namespace GateSet

/-- Put a keyed gate into its place, unless the key is taken. -/
def insertEntry (key : String) (gate : Gate) : List (String × Gate) → List (String × Gate)
  | [] => [(key, gate)]
  | (head, first) :: rest =>
      if head < key then (head, first) :: insertEntry key gate rest
      else if head = key then (head, first) :: rest
      else (key, gate) :: (head, first) :: rest

/-- Add a gate, unless one with the same key is present. -/
def insert (gates : GateSet) (gate : Gate) : GateSet :=
  { entries := insertEntry gate.key gate gates.entries }

/-- The clauses of all gates, in the order of the keys. -/
def clauses (template : IffTemplate) (gates : GateSet) : List Clause :=
  gates.entries.flatMap fun (_, gate) => gate.clauses template

end GateSet
end Encoding
end PropSat
