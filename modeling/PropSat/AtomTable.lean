import PropSat.Fault
import PropSat.Literal

/-!
# Names of atoms

A table gives each atom a name, and atoms are numbered in the order in which they were added, up to
a limit.  A name may be given to several atoms; it then denotes the latest of them.  Names of source
variables are alphanumeric, so an atom whose name starts with another character stands for a
compound formula.
-/

namespace PropSat

/-- How many atoms there can be: every word of 32 bits but the greatest is one. -/
def atomLimit : Nat := UInt32.size - 1

/-- The atoms in use, each with its name. -/
structure AtomTable where
  /-- Names in the order of the atoms. -/
  names : Array String := #[]

namespace AtomTable

/-- Number of atoms in the table; the atoms are exactly the smaller numbers. -/
def count (table : AtomTable) : Nat := table.names.size

/-- Name of an atom of the table. -/
def name? (table : AtomTable) (atom : Nat) : Option String := table.names[atom]?

/-- Name of an atom, empty when the table does not hold the atom. -/
def nameAt (table : AtomTable) (atom : Nat) : String := table.names.getD atom ""

/-- The greatest atom below a bound that bears a name. -/
def latestBelow (table : AtomTable) (name : String) : Nat → Option Nat
  | 0 => none
  | bound + 1 =>
      if table.name? bound = some name then some bound else table.latestBelow name bound

/-- The atom that a name denotes: the latest one to bear it. -/
def find? (table : AtomTable) (name : String) : Option Nat :=
  table.latestBelow name table.count

/-- The table with one more atom, to which the name refers from now on. -/
def extend (table : AtomTable) (name : String) : AtomTable :=
  { names := table.names.push name }

/-- Add an atom under a name, in use or not, unless all atoms are given out. -/
def add (table : AtomTable) (name : String) : Except Fault Nat × AtomTable :=
  if table.count < atomLimit then
    (.ok table.count, table.extend name)
  else
    (.error .noAtomLeft, table)

/-- The atom that a name denotes, added if there is none. -/
def intern (table : AtomTable) (name : String) : Except Fault Nat × AtomTable :=
  match table.find? name with
  | some atom => (.ok atom, table)
  | none => table.add name

/-- Table in which the listed names were added in turn. -/
def ofNames (names : List String) : AtomTable := { names := names.toArray }

/-- The positive and the negative literal on an atom of the table. -/
def poles? (table : AtomTable) (atom : Nat) : Option (Literal × Literal) :=
  if atom < table.count then some (.positive atom, .negative atom) else none

/-- Name of the atom of a literal, after `!` for a negative literal. -/
def signedName (table : AtomTable) (literal : Literal) : String :=
  if literal.polarity then table.nameAt literal.atom else "!" ++ table.nameAt literal.atom

/-- Name of a literal whose atom the table holds. -/
def signedName? (table : AtomTable) (literal : Literal) : Option String :=
  if literal.atom < table.count then some (table.signedName literal) else none

/-- Whether a name is one that no source variable can bear. -/
def auxiliaryName (name : String) : Bool :=
  name.toList.head?.any fun first => !first.isAlphanum

/-- Whether an atom of the table stands for a compound formula. -/
def auxiliary? (table : AtomTable) (atom : Nat) : Option Bool :=
  (table.name? atom).map auxiliaryName

/-- All atoms with their names, in order. -/
def entries (table : AtomTable) : List (Nat × String) :=
  table.names.toList.zipIdx.map fun (name, atom) => (atom, name)

/-- One line for each atom, with its number and name. -/
def listing (table : AtomTable) : String :=
  String.join (table.entries.map fun (atom, name) => toString atom ++ ": " ++ name ++ "\n")

end AtomTable
end PropSat
