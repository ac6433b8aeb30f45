import PropSat.Grammar.Reader

/-!
# Reading into an arena

The nodes of a formula are written to an arena in the order in which they are read, each into the
slot that waits for it: the root, the operand of a negation, or the right operand of a connective.
Records on a stack note the slots with the number of parentheses that were open when they were left.
No operation recurs on the formula, so none of them grows with the nesting of the text; where the
arena or the stack is not as an operation needs it, or a new variable is left without an atom, there
is no result at all.
-/

namespace PropSat
namespace Grammar

/-- A node of a formula, whose operands are noted once they are read. -/
inductive Node where
  | variable (atom : Nat)
  | negation (operand : Option Nat)
  | binary (connective : Connective) (left right : Option Nat)
  deriving DecidableEq

/-- A place where the index of a node can be noted. -/
inductive Slot where
  /-- The whole formula. -/
  | root
  /-- The operand of a negation. -/
  | negand (node : Nat)
  /-- The right operand of a connective. -/
  | right (node : Nat)
  deriving DecidableEq

/-- A slot to write to, with what decides when it is closed. -/
structure Record where
  /-- The slot. -/
  slot : Slot
  /-- Number of parentheses that were open when the record was made. -/
  depth : Nat
  /-- Whether the record is closed together with others. -/
  quick : Bool
  deriving DecidableEq

/-- Nodes by index, and the index of the outermost one. -/
structure Arena where
  /-- The nodes, in the order in which they were read. -/
  nodes : Array Node := #[]
  /-- The node of the whole formula. -/
  root : Option Nat := none

namespace Arena

/-- What is noted in a slot; none if no node has the slot. -/
def read? (arena : Arena) : Slot → Option (Option Nat)
  | .root => some arena.root
  | .negand node =>
      match arena.nodes[node]? with
      | some (.negation operand) => some operand
      | _ => none
  | .right node =>
      match arena.nodes[node]? with
      | some (.binary _ _ right) => some right
      | _ => none

/-- Note a node in a slot; none if no node has the slot. -/
def write? (arena : Arena) (slot : Slot) (index : Nat) : Option Arena :=
  match slot with
  | .root => some { arena with root := some index }
  | .negand node =>
      match arena.nodes[node]? with
      | some (.negation _) =>
          some { arena with nodes := arena.nodes.setIfInBounds node (.negation (some index)) }
      | _ => none
  | .right node =>
      match arena.nodes[node]? with
      | some (.binary connective left _) =>
          some
            { arena with
              nodes := arena.nodes.setIfInBounds node (.binary connective left (some index)) }
      | _ => none

/-- Add a node and note it in a slot. -/
def place? (arena : Arena) (slot : Slot) (node : Node) : Option Arena :=
  { arena with nodes := arena.nodes.push node }.write? slot arena.nodes.size

/-- A step of the walk that builds a formula. -/
inductive Visit where
  /-- Walk over a node and the ones below it. -/
  | enter (node : Nat)
  /-- Put a node on top of what was built from its operands. -/
  | leave (node : Nat)

/-- Put a node on top of the formulas built from its operands, latest first. -/
def assemble? : Node → List Formula → Option (List Formula)
  | .variable _, built => some built
  | .negation _, inner :: built => some (.neg inner :: built)
  | .binary connective _ _, right :: left :: built => some (.bin connective left right :: built)
  | _, _ => none

/-- Build formulas by a walk over the nodes, given how many are still to be entered; none if an
operand is missing, or if more are entered, so that the walk comes back to a node. -/
def build? (nodes : Array Node) (ahead : Nat) (visits : List Visit) (built : List Formula) :
    Option Formula :=
  match ahead, visits with
  | _, [] => built.head?
  | 0, .enter _ :: _ => none
  | ahead + 1, .enter node :: visits =>
      match nodes[node]? with
      | some (.variable atom) => build? nodes ahead visits (.var atom :: built)
      | some (.negation (some operand)) =>
          build? nodes ahead (.enter operand :: .leave node :: visits) built
      | some (.binary _ (some left) (some right)) =>
          build? nodes ahead (.enter left :: .enter right :: .leave node :: visits) built
      | _ => none
  | ahead, .leave node :: visits =>
      match nodes[node]?.bind fun entry => assemble? entry built with
      | some built => build? nodes ahead visits built
      | none => none
  termination_by (ahead, visits.length)

/-- The formula that the arena holds; none if an operand is missing. -/
def formula? (arena : Arena) : Option Formula :=
  match arena.root with
  | some root => build? arena.nodes arena.nodes.size [.enter root] []
  | none => none

end Arena

/-- Close the quick records on top that were made at a depth or deeper, and then at most one other;
none if no record is left to look at. -/
def closeAt? (depth : Nat) : List Record → Option (List Record)
  | [] => none
  | top :: rest =>
      if depth ≤ top.depth then
        if top.quick then closeAt? depth rest else some rest
      else
        some (top :: rest)

/-- The state of a reader that writes to an arena. -/
structure Machine where
  /-- The nodes read. -/
  arena : Arena := {}
  /-- The slots to write to, innermost first.  The root stands there twice, as its first record is
  closed with the first operand. -/
  records : List Record :=
    [{ slot := .root, depth := 0, quick := false }, { slot := .root, depth := 0, quick := false }]
  /-- Number of open parentheses. -/
  depth : Nat := 0
  /-- The variables seen, in order of their first occurrence. -/
  table : AtomTable := {}
  /-- Whether an expression has to follow. -/
  expecting : Bool := true

namespace Machine

/-- Close records at the present depth. -/
def close? (machine : Machine) : Option Machine :=
  (closeAt? machine.depth machine.records).map fun records => { machine with records }

/-- Write a node to the innermost slot. -/
def place? (machine : Machine) (node : Node) : Option Machine :=
  match machine.records with
  | [] => none
  | top :: _ => (machine.arena.place? top.slot node).map fun arena => { machine with arena }

/-- Note that a slot of the latest node is to be written to next. -/
def await (machine : Machine) (slot : Nat → Slot) (quick : Bool) : Machine :=
  { machine with
    records :=
      { slot := slot (machine.arena.nodes.size - 1), depth := machine.depth, quick } ::
        machine.records
    expecting := true }

/-- Write a variable and close what it completes; none also if there is no atom left for it. -/
def readName? (machine : Machine) (name : String) : Option Machine :=
  match machine.table.intern name with
  | (.ok atom, table) =>
      match { machine with table }.place? (.variable atom) with
      | some machine => { machine with expecting := false }.close?
      | none => none
  | (.error _, _) => none

/-- Put a connective on top of what the innermost slot holds. -/
def readConnective? (machine : Machine) (connective : Connective) : Option Machine :=
  match machine.records with
  | [] => none
  | top :: _ =>
      match machine.arena.read? top.slot with
      | some left =>
          (machine.place? (.binary connective left none)).map fun machine =>
            machine.await .right false
      | none => none

/-- Read one lexeme; the outer none where the arena or the stack is not as needed, or there is no atom
left for a variable. -/
def accept? (machine : Machine) (placed : Placed) : Option (Except SyntaxFault Machine) :=
  match machine.expecting, placed.lexeme with
  | true, .token (.name text) => (machine.readName? text).map .ok
  | true, .token .not =>
      (machine.place? (.negation none)).map fun machine => .ok (machine.await .negand true)
  | true, .token .leftParen => some (.ok { machine with depth := machine.depth + 1 })
  | true, _ => some (.error { position := placed.position, expected := .expression })
  | false, .token .rightParen =>
      match machine.depth with
      | 0 => some (.error { position := placed.position - 1, expected := .character '(' })
      | depth + 1 => ({ machine with depth }.close?).map .ok
  | false, .token (.connective connective) => (machine.readConnective? connective).map .ok
  | false, .token _ => some (.error { position := placed.position, expected := .connective })
  | false, .stray fault => some (.error fault)

/-- Read lexemes in turn, up to the first fault. -/
def read? (machine : Machine) : List Placed → Option (Except SyntaxFault Machine)
  | [] => some (.ok machine)
  | placed :: rest =>
      match machine.accept? placed with
      | some (.ok next) => next.read? rest
      | other => other

/-- What has been read at the end of a text of the given length in bytes. -/
def finish? (length : Nat) (machine : Machine) : Option (Except SyntaxFault Parsed) :=
  if machine.depth ≠ 0 then
    some (.error { position := length, expected := .character ')' })
  else if machine.expecting then
    some (.error { position := length, expected := .expression })
  else
    machine.arena.formula?.map fun formula => .ok { formula, table := machine.table }

/-- Read a text as a formula by way of an arena. -/
def parse? (text : String) : Option (Except SyntaxFault Parsed) :=
  match ({} : Machine).read? (lex text) with
  | some (.ok machine) => machine.finish? text.utf8ByteSize
  | some (.error fault) => some (.error fault)
  | none => none

end Machine
end Grammar
end PropSat
