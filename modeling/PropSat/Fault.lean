/-!
# Faults

The ways in which reading, loading or solving can fail, and how each is worded.
-/

namespace PropSat

/-- What a reader needed to see next. -/
inductive Expectation where
  /-- The start of an expression. -/
  | expression
  /-- A binary connective. -/
  | connective
  /-- One particular character. -/
  | character (needed : Char)
  deriving DecidableEq

/-- Wording of an expectation. -/
def Expectation.text : Expectation → String
  | expression => "an expression"
  | connective => "a binary operator"
  | character needed => "'" ++ needed.toString ++ "'"

/-- A place at which a text stops being a formula, as an offset in bytes. -/
structure SyntaxFault where
  /-- Number of bytes before the place. -/
  position : Nat
  /-- What should have stood there. -/
  expected : Expectation
  deriving DecidableEq

/-- Wording of a syntax fault. -/
def SyntaxFault.message (fault : SyntaxFault) : String :=
  "Syntax error at position " ++ toString fault.position ++ ", expected " ++ fault.expected.text

/-- Causes of failure. -/
inductive Fault where
  /-- There are no further atoms to give out. -/
  | noAtomLeft
  /-- A clause of a formula to be solved has an atom that is not below the atom count. -/
  | strayAtom (clause : Nat)
  /-- A text is not a formula. -/
  | malformed (fault : SyntaxFault)
  /-- A clause is violated. -/
  | conflict (clause : Nat)
  /-- A solver was asked to solve for a second time. -/
  | alreadySolved
  /-- A model was asked for while none is known. -/
  | noModel
  /-- A solver found itself in a state that it cannot reach. -/
  | brokenState
  deriving DecidableEq

/-- Wording of a fault. -/
def Fault.message : Fault → String
  | noAtomLeft => "Atom database error: AtomsExhausted"
  | strayAtom clause => "CNF error: AtomOutOfRange(" ++ toString clause ++ ")"
  | malformed fault => fault.message
  | conflict clause => "Propagation error: Conflict(" ++ toString clause ++ ")"
  | alreadySolved => "State error: SolveMade"
  | noModel => "State error: NotSatisfiable"
  | brokenState => "Invalid state"

end PropSat
