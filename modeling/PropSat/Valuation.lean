import PropSat.Literal

/-!
# Partial valuations

A valuation holds a fixed number of atoms and gives each of them a truth value or none.
-/

namespace PropSat

/-- For each atom its truth value, or none while it is undecided. -/
abbrev Valuation := Array (Option Bool)

namespace Valuation

/-- Valuation of the given number of atoms that decides none of them. -/
def blank (count : Nat) : Valuation := Array.replicate count none

/-- Valuation that gives every atom the value it has in a model. -/
def ofModel (model : Array Bool) : Valuation := model.map some

/-- Truth value of a literal: none outside the valuation, and `some none` on an undecided atom. -/
def truth? (valuation : Valuation) (literal : Literal) : Option (Option Bool) :=
  valuation[literal.atom]?.map fun value => value.map fun value => value == literal.polarity

/-- Make a literal true. -/
def assign (valuation : Valuation) (literal : Literal) : Valuation :=
  valuation.setIfInBounds literal.atom (some literal.polarity)

/-- Make several literals true, one after the other. -/
def assignAll (valuation : Valuation) (literals : List Literal) : Valuation :=
  literals.foldl assign valuation

/-- Take the value of an atom away. -/
def clear (valuation : Valuation) (atom : Nat) : Valuation :=
  valuation.setIfInBounds atom none

/-- Take the values of the atoms of some literals away. -/
def clearAll (valuation : Valuation) (literals : List Literal) : Valuation :=
  literals.foldl (fun valuation literal => valuation.clear literal.atom) valuation

/-- Number of atoms without a value. -/
def openCount (valuation : Valuation) : Nat := valuation.count none

/-- Total values, where an undecided atom counts as true. -/
def toModel (valuation : Valuation) : Array Bool := valuation.map fun value => value.getD true

theorem getElem?_assign (valuation : Valuation) (literal : Literal) (atom : Nat) :
    (valuation.assign literal)[atom]? =
      if literal.atom = atom then valuation[atom]?.map fun _ => some literal.polarity
      else valuation[atom]? := by
  rw [assign, Array.getElem?_setIfInBounds]
  split
  · rename_i same
    subst same
    by_cases inside : literal.atom < valuation.size <;> simp [inside]
  · rfl

theorem getElem?_clear (valuation : Valuation) (cleared atom : Nat) :
    (valuation.clear cleared)[atom]? =
      if cleared = atom then valuation[atom]?.map fun _ => none else valuation[atom]? := by
  rw [clear, Array.getElem?_setIfInBounds]
  split
  · rename_i same
    subst same
    by_cases inside : cleared < valuation.size <;> simp [inside]
  · rfl

theorem getElem?_clearAll (valuation : Valuation) (literals : List Literal) (atom : Nat) :
    (valuation.clearAll literals)[atom]? =
      if atom ∈ literals.map Literal.atom then valuation[atom]?.map fun _ => none
      else valuation[atom]? := by
  induction literals generalizing valuation with
  | nil => simp [clearAll]
  | cons literal literals induction =>
      have unfolded : valuation.clearAll (literal :: literals) =
          (valuation.clear literal.atom).clearAll literals := rfl
      rw [unfolded, induction, getElem?_clear]
      grind

/-- Taking the value of an open atom away again restores the valuation. -/
theorem clear_assign {valuation : Valuation} {literal : Literal}
    (literal_open : valuation[literal.atom]? = some none) :
    (valuation.assign literal).clear literal.atom = valuation := by
  apply Array.ext_getElem?
  intro atom
  rw [getElem?_clear, getElem?_assign]
  by_cases same : literal.atom = atom
  · subst same
    simp [literal_open]
  · simp [same]

theorem clearAll_clear (valuation : Valuation) (cleared : Nat) (literals : List Literal) :
    (valuation.clear cleared).clearAll literals = (valuation.clearAll literals).clear cleared := by
  apply Array.ext_getElem?
  intro atom
  rw [getElem?_clearAll, getElem?_clear, getElem?_clear, getElem?_clearAll]
  by_cases same : cleared = atom
  · rw [if_pos same, if_pos same]
    split
    · rw [Option.map_map]
    · rfl
  · simp only [same, if_false]

/-- Deciding an open atom leaves one open atom less. -/
theorem openCount_assign {valuation : Valuation} {literal : Literal}
    (open_atom : valuation[literal.atom]? = some none) :
    (valuation.assign literal).openCount + 1 = valuation.openCount := by
  obtain ⟨inside, value_eq⟩ := Array.getElem?_eq_some_iff.mp open_atom
  have assign_eq : valuation.assign literal =
      valuation.set literal.atom (some literal.polarity) inside := by
    simp [assign, Array.setIfInBounds, inside]
  have positive := Array.boole_getElem_le_count (a := none) inside
  rw [assign_eq, openCount, openCount, Array.count_set inside]
  simp only [value_eq, beq_self_eq_true, if_true] at positive ⊢
  simp
  omega

end Valuation
end PropSat
