import PropSat.Cnf
import PropSat.Search.Event

/-!
# Traces

A trace shows the moves of a search, one on a line.  Each decision and each flip indents the lines
after it, and each step back takes one level of indentation away.
-/

namespace PropSat
namespace CommandLine

open Search (Move Event)

/-- One line of a trace. -/
structure TraceLine where
  /-- Level of indentation. -/
  depth : Nat
  /-- What the line says. -/
  text : String
  deriving DecidableEq

/-- How a literal is shown as an assignment. -/
def assignmentText (literal : Literal) : String :=
  toString literal.atom ++ " <- " ++ if literal.polarity then "true" else "false"

/-- What is said about a move of a search over some clauses. -/
def moveText (cnf : Cnf) : Move → String
  | .decide literal => "Decide " ++ assignmentText literal
  | .redecide literal => "Re-decide " ++ assignmentText literal
  | .propagate literal clause =>
      "Propagate " ++ assignmentText literal ++ " " ++
        (cnf.clauses[clause]?.map Clause.text).getD ""
  | .backtrack conflict =>
      match conflict.bind fun clause => cnf.clauses[clause]? with
      | some clause => "Backtrack " ++ Clause.text clause
      | none => "Backtrack"

/-- Indentation after a move. -/
def depthAfter (depth : Nat) : Move → Nat
  | .decide _ | .redecide _ => depth + 1
  | .propagate _ _ => depth
  | .backtrack _ => depth - 1

/-- Lines of a trace that starts at some depth. -/
def traceFrom (cnf : Cnf) (depth : Nat) : List Move → List TraceLine
  | [] => []
  | move :: rest =>
      { depth, text := moveText cnf move } :: traceFrom cnf (depthAfter depth move) rest

/-- The moves among some events. -/
def movesOf (events : List Event) : List Move :=
  events.filterMap fun event =>
    match event with
    | .move move => some move
    | _ => none

/-- The trace of what was told about a search, as text. -/
def traceText (cnf : Cnf) (events : List Event) : String :=
  String.join ((traceFrom cnf 0 (movesOf events)).map fun line =>
    String.join (List.replicate line.depth "  ") ++ line.text ++ "\n")

end CommandLine
end PropSat
