import PropSat.Literal

/-!
# Events of a search

A search can be followed from outside through the moves it makes and, at its end, through its
counts and its verdict.  Counts are words of 64 bits and wrap around.
-/

namespace PropSat
namespace Search

/-- What came of a search. -/
inductive Verdict where
  | satisfiable
  | unsatisfiable
  /-- The search gave up at its time limit. -/
  | timeUp
  /-- The search gave up, or has not been made. -/
  | unknown
  deriving DecidableEq

/-- Wording of a verdict. -/
def Verdict.text : Verdict → String
  | satisfiable => "Satisfiable"
  | unsatisfiable => "Unsatisfiable"
  | timeUp => "Unknown (time up)"
  | unknown => "Unknown"

/-- Changes to a trail. -/
inductive Move where
  /-- The literal was decided on. -/
  | decide (literal : Literal)
  /-- The top decision was flipped to the literal. -/
  | redecide (literal : Literal)
  /-- The literal follows from the clause at the index. -/
  | propagate (literal : Literal) (clause : Nat)
  /-- What followed last is given up as the clause at the index is violated, or without one, the
  top decision is given up as it was flipped before. -/
  | backtrack (conflict : Option Nat)
  deriving DecidableEq

/-- A count of 64 bits, which goes on from zero after its greatest value. -/
abbrev Count := UInt64

/-- How often things happened in a search. -/
structure Counters where
  /-- Iterations begun. -/
  iterations : Count := 0
  /-- Decisions made, flips included. -/
  decisions : Count := 0
  /-- Literals that followed from unit clauses, even if they were given up. -/
  propagations : Count := 0
  /-- Iterations that met a violated clause. -/
  conflicts : Count := 0
  deriving DecidableEq

namespace Counters

/-- Count an iteration. -/
def addIteration (counters : Counters) : Counters :=
  { counters with iterations := counters.iterations + 1 }

/-- Count a decision or a flip. -/
def addDecision (counters : Counters) : Counters :=
  { counters with decisions := counters.decisions + 1 }

/-- Count literals that followed. -/
def addPropagations (counters : Counters) (count : Nat) : Counters :=
  { counters with propagations := counters.propagations + .ofNat count }

/-- Count a conflict. -/
def addConflict (counters : Counters) : Counters :=
  { counters with conflicts := counters.conflicts + 1 }

end Counters

/-- What an observer of a search is told. -/
inductive Event where
  | move (move : Move)
  | iterations (count : Count)
  | decisions (count : Count)
  | propagations (count : Count)
  | conflicts (count : Count)
  /-- The time was taken. -/
  | time
  | verdict (verdict : Verdict)
  /-- Nothing more will be told. -/
  | finish
  deriving DecidableEq

/-- What is told when a search has ended. -/
def closingEvents (counters : Counters) (verdict : Verdict) : List Event :=
  [.iterations counters.iterations, .decisions counters.decisions,
    .propagations counters.propagations, .conflicts counters.conflicts, .time, .verdict verdict,
    .finish]

end Search
end PropSat
