import PropSat.AtomTable

/-!
# Registry of atoms

A registry stores apart from each other the atoms that names denote, the names of atoms and the
literals on atoms.  It answers every call as the table of its names does, which searches the names
instead; `PropSat.Proofs.Registry` shows it.
-/

namespace PropSat

/-- Atoms by name, and the names and the literals by atom. -/
structure AtomRegistry where
  /-- Names with the atoms they denote, where the first entry for a name counts. -/
  denoted : List (String × Nat) := []
  /-- Names in the order of the atoms. -/
  names : Array String := #[]
  /-- The positive and the negative literal on each atom, in the order of the atoms. -/
  poles : Array (Literal × Literal) := #[]

namespace AtomRegistry

/-- Number of atoms in the registry. -/
def count (registry : AtomRegistry) : Nat := registry.names.size

/-- Name of an atom of the registry. -/
def name? (registry : AtomRegistry) (atom : Nat) : Option String := registry.names[atom]?

/-- The positive and the negative literal stored for an atom. -/
def poles? (registry : AtomRegistry) (atom : Nat) : Option (Literal × Literal) :=
  registry.poles[atom]?

/-- The atom that a name denotes. -/
def find? (registry : AtomRegistry) (name : String) : Option Nat := registry.denoted.lookup name

/-- The registry with one more atom, to which the name refers from now on. -/
def extend (registry : AtomRegistry) (name : String) : AtomRegistry where
  denoted := (name, registry.count) :: registry.denoted
  names := registry.names.push name
  poles := registry.poles.push (.positive registry.count, .negative registry.count)

/-- Add an atom under a name, in use or not, unless all atoms are given out. -/
def add (registry : AtomRegistry) (name : String) : Except Fault Nat × AtomRegistry :=
  if registry.count < atomLimit then
    (.ok registry.count, registry.extend name)
  else
    (.error .noAtomLeft, registry)

/-- The atom that a name denotes, added if there is none. -/
def intern (registry : AtomRegistry) (name : String) : Except Fault Nat × AtomRegistry :=
  match registry.find? name with
  | some atom => (.ok atom, registry)
  | none => registry.add name

/-- The table of the same names. -/
def table (registry : AtomRegistry) : AtomTable := { names := registry.names }

end AtomRegistry
end PropSat
