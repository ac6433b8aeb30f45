import PropSat.Formula.Text
import PropSat.Proofs.Formula.Value
import PropSat.Proofs.Names

/-!
# Canonical forms

A canonical form is a name, or begins with a character that no name has, so over a table of source
names no compound formula is printed as a variable.  It only depends on the names of the atoms that
occur.
-/

namespace PropSat

theorem Connective.symbol_breaks (connective : Connective) (rest : List Char) :
    Breaks (connective.symbol.toList ++ rest) := by
  cases connective <;> exact breaks_cons rfl

namespace AtomTable

variable {table : AtomTable}

theorem name?_eq_nameAt {atom : Nat} (inside : atom < table.count) :
    table.name? atom = some (table.nameAt atom) := by
  rw [nameAt, Array.getD_eq_getD_getElem?, name?, Array.getElem?_eq_getElem inside,
    Option.getD_some]

theorem nameAt_mem {atom : Nat} (inside : atom < table.count) :
    table.nameAt atom ∈ table.names.toList := by
  have named := name?_eq_nameAt inside
  rw [name?_eq] at named
  exact List.mem_of_getElem? named

theorem Plain.nameAt_inj (plain : table.Plain) {left right : Nat} (left_inside : left < table.count)
    (right_inside : right < table.count) (same : table.nameAt left = table.nameAt right) :
    left = right := by
  apply plain.distinct.atom_eq (name?_eq_nameAt left_inside)
  rw [name?_eq_nameAt right_inside, same]

end AtomTable

namespace Formula

section Spelled

variable {nameOf : Nat → String}

theorem toList_canonical_neg (inner : Formula) :
    ((neg inner).canonical nameOf).toList = '!' :: (inner.canonical nameOf).toList := by
  simp [canonical]

theorem toList_canonical_bin (connective : Connective) (left right : Formula) :
    ((bin connective left right).canonical nameOf).toList =
      '(' :: ((left.canonical nameOf).toList ++ (connective.symbol.toList ++
        ((right.canonical nameOf).toList ++ [')']))) := by
  simp [canonical]

/-- A compound canonical form begins with a character that no name has. -/
theorem breaks_canonical (nameOf : Nat → String) {formula : Formula}
    (compound : formula.isCompound = true) (rest : List Char) :
    Breaks ((formula.canonical nameOf).toList ++ rest) := by
  cases formula with
  | var atom => cases compound
  | neg inner =>
      rw [toList_canonical_neg]
      exact breaks_cons rfl
  | bin connective left right =>
      rw [toList_canonical_bin]
      exact breaks_cons rfl

/-- The form of a compound formula is the name of an auxiliary atom. -/
theorem auxiliaryName_canonical (nameOf : Nat → String) {formula : Formula}
    (compound : formula.isCompound = true) :
    AtomTable.auxiliaryName (formula.canonical nameOf) = true := by
  cases formula with
  | var atom => cases compound
  | neg inner =>
      rw [AtomTable.auxiliaryName, toList_canonical_neg]
      rfl
  | bin connective left right =>
      rw [AtomTable.auxiliaryName, toList_canonical_bin]
      rfl

/-- A compound canonical form is no name of a source variable. -/
theorem canonical_ne_of_isCompound {formula : Formula} (compound : formula.isCompound = true)
    {name : String} (source : SourceName name) : formula.canonical nameOf ≠ name := by
  intro same
  have breaks := breaks_canonical nameOf compound []
  rw [List.append_nil, same] at breaks
  obtain ⟨first, rest, spelled⟩ := List.exists_cons_of_ne_nil source.1
  have alphanumeric := source.2 first (by rw [spelled]; exact List.mem_cons_self)
  rw [breaks first (by rw [spelled]; rfl)] at alphanumeric
  cases alphanumeric

end Spelled

/-- A canonical form only depends on the names of the atoms that occur. -/
theorem canonical_congr {bound : Nat} {nameOf other : Nat → String}
    (agree : ∀ atom < bound, nameOf atom = other atom) {formula : Formula}
    (within : formula.within bound = true) :
    formula.canonical nameOf = formula.canonical other := by
  induction formula with
  | var atom => exact agree atom (by simpa [Formula.within] using within)
  | neg inner induction => rw [canonical, canonical, induction within]
  | bin connective left right left_induction right_induction =>
      rw [Formula.within, Bool.and_eq_true] at within
      rw [canonical, canonical, left_induction within.1, right_induction within.2]

end Formula
end PropSat
