/-!
# Atoms and literals

Atoms are natural numbers and a literal is an atom with a polarity.  The two literals on one atom
are exchanged by `negate`.  Literals are ordered by `rank`, which puts the negative literal of an
atom just before the positive one, so distinct literals never tie.
-/

namespace PropSat

/-- An atom together with the truth value under which the literal holds. -/
structure Literal where
  /-- The atom that the literal speaks about. -/
  atom : Nat
  /-- The value of the atom that makes the literal true. -/
  polarity : Bool
  deriving DecidableEq

namespace Literal

/-- The literal that holds when the atom is true. -/
def positive (atom : Nat) : Literal := { atom, polarity := true }

/-- The literal that holds when the atom is false. -/
def negative (atom : Nat) : Literal := { atom, polarity := false }

/-- The other literal on the same atom. -/
def negate (literal : Literal) : Literal :=
  { literal with polarity := !literal.polarity }

@[simp]
theorem negate_atom (literal : Literal) : literal.negate.atom = literal.atom := rfl

@[simp]
theorem negate_negate (literal : Literal) : literal.negate.negate = literal := by
  simp [negate]

/-- Position in the order of literals: by atom, and on one atom the negative literal first. -/
def rank (literal : Literal) : Nat :=
  2 * literal.atom + if literal.polarity then 1 else 0

theorem rank_inj {left right : Literal} : left.rank = right.rank ↔ left = right := by
  obtain ⟨leftAtom, leftPolarity⟩ := left
  obtain ⟨rightAtom, rightPolarity⟩ := right
  cases leftPolarity <;> cases rightPolarity <;> simp [rank] <;> omega

/-- Compare two literals by rank. -/
def order (left right : Literal) : Ordering := compare left.rank right.rank

/-- Arrange literals in increasing order. -/
def sort (literals : List Literal) : List Literal :=
  literals.mergeSort fun left right => left.rank ≤ right.rank

/-- Written form: the atom in decimal, after `!` for a negative literal. -/
def text (literal : Literal) : String :=
  if literal.polarity then toString literal.atom else "!" ++ toString literal.atom

/-- Signed number of a literal, counting atoms from one so that zero is free to end a clause. -/
def dimacs (literal : Literal) : String :=
  if literal.polarity then toString (literal.atom + 1) else "-" ++ toString (literal.atom + 1)

end Literal
end PropSat
