import PropSat.AtomTable
import PropSat.Grammar.Token

/-!
# Reading formulas

A formula is read in one pass over its lexemes.  Connectives all bind alike and associate to the
left, and a negation takes the shortest operand.  What has been read so far is kept as the formula
in focus, if an operand is complete, and a stack of gaps that wait for one: the whole formula, the
operand of a negation, or the right operand of a connective.  Each gap is kept with the number of
parentheses that were open when it was left.  Reading breaks off without a result at a new variable
for which there is no atom left.
-/

namespace PropSat
namespace Grammar

/-- A place that waits for an operand. -/
inductive Gap where
  /-- The formula as a whole. -/
  | whole
  /-- The operand of a negation. -/
  | negand
  /-- The right operand of a connective whose left operand is known. -/
  | right (connective : Connective) (left : Formula)
  deriving DecidableEq

/-- The formula that results from putting an operand into a gap. -/
def Gap.fill : Gap → Formula → Formula
  | whole, operand => operand
  | negand, operand => .neg operand
  | right connective left, operand => .bin connective left operand

/-- A gap together with the parentheses around it. -/
structure Pending where
  /-- The place to fill. -/
  gap : Gap
  /-- Number of parentheses that were open when the gap was left. -/
  depth : Nat
  deriving DecidableEq

/-- Whether a gap is filled as soon as its operand is complete, whatever else that operand ends. -/
def Pending.immediate (pending : Pending) : Bool := pending.gap = .negand

/-- Put a complete operand into the gaps that it ends at a depth: those of negations and then at
most one other. -/
def settle (depth : Nat) (operand : Formula) : List Pending → Formula × List Pending
  | [] => (operand, [])
  | top :: rest =>
      if depth ≤ top.depth then
        if top.immediate then settle depth (top.gap.fill operand) rest
        else (top.gap.fill operand, rest)
      else
        (operand, top :: rest)

/-- What has been read of a formula. -/
structure State where
  /-- The operand read last, or none where an expression has to follow. -/
  focus : Option Formula := none
  /-- Gaps that wait for an operand, innermost first.  The whole formula has two: its first operand
  fills one, and the other stays at the bottom while connectives are read. -/
  pending : List Pending := [{ gap := .whole, depth := 0 }, { gap := .whole, depth := 0 }]
  /-- Number of open parentheses. -/
  depth : Nat := 0
  /-- The variables seen, in order of their first occurrence. -/
  table : AtomTable := {}

namespace State

/-- Bring a complete operand into focus at some depth. -/
def complete (state : State) (depth : Nat) (operand : Formula) : State :=
  let (focus, pending) := settle depth operand state.pending
  { state with focus := some focus, pending, depth }

/-- Read one lexeme; none at a new variable when all atoms are given out. -/
def accept? (state : State) (placed : Placed) : Option (Except SyntaxFault State) :=
  match state.focus, placed.lexeme with
  | none, .token (.name text) =>
      match state.table.intern text with
      | (.ok atom, table) => some (.ok ({ state with table }.complete state.depth (.var atom)))
      | (.error _, _) => none
  | none, .token .not =>
      some (.ok { state with pending := { gap := .negand, depth := state.depth } :: state.pending })
  | none, .token .leftParen => some (.ok { state with depth := state.depth + 1 })
  | none, _ => some (.error { position := placed.position, expected := .expression })
  | some operand, .token .rightParen =>
      match state.depth with
      | 0 => some (.error { position := placed.position - 1, expected := .character '(' })
      | depth + 1 => some (.ok (state.complete depth operand))
  | some operand, .token (.connective connective) =>
      some
        (.ok
          { state with
            focus := none
            pending :=
              { gap := .right connective operand, depth := state.depth } :: state.pending })
  | some _, .token _ => some (.error { position := placed.position, expected := .connective })
  | some _, .stray fault => some (.error fault)

/-- Read lexemes in turn, up to the first fault. -/
def read? (state : State) : List Placed → Option (Except SyntaxFault State)
  | [] => some (.ok state)
  | placed :: rest =>
      match state.accept? placed with
      | some (.ok next) => next.read? rest
      | other => other

end State

/-- A formula together with the names of its variables. -/
structure Parsed where
  /-- The formula. -/
  formula : Formula
  /-- Its variables, numbered by first occurrence. -/
  table : AtomTable

/-- What has been read at the end of a text of the given length in bytes. -/
def State.finish (length : Nat) (state : State) : Except SyntaxFault Parsed :=
  if state.depth ≠ 0 then
    .error { position := length, expected := .character ')' }
  else
    match state.focus with
    | none => .error { position := length, expected := .expression }
    | some formula => .ok { formula, table := state.table }

/-- Read a text as a formula; none if it has more variables than there are atoms. -/
def parse? (text : String) : Option (Except SyntaxFault Parsed) :=
  match ({} : State).read? (lex text) with
  | some (.ok state) => some (state.finish text.utf8ByteSize)
  | some (.error fault) => some (.error fault)
  | none => none

end Grammar
end PropSat
