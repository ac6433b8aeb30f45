import PropSat.AtomTable
import PropSat.Formula.Basic

/-!
# Written forms of formulas

The canonical form puts every binary formula in parentheses and nothing else, so it shows the whole
structure on one line.  The tree form puts each node on a line of its own, indented by its depth,
with a binary connective between the lines of its operands.
-/

namespace PropSat
namespace Formula

/-- Fully parenthesised form without blanks, with the given names of atoms. -/
def canonical (nameOf : Nat → String) : Formula → String
  | var atom => nameOf atom
  | neg inner => "!" ++ inner.canonical nameOf
  | bin connective left right =>
      "(" ++ left.canonical nameOf ++ connective.symbol ++ right.canonical nameOf ++ ")"

/-- Two blanks for each level of depth. -/
def indent (depth : Nat) : String := String.join (List.replicate depth "  ")

theorem toList_indent (depth : Nat) : (indent depth).toList = List.replicate (2 * depth) ' ' := by
  induction depth with
  | zero => rfl
  | succ depth induction =>
      rw [indent, List.replicate_succ, String.join_cons, String.toList_append, ← indent, induction,
        Nat.mul_succ]
      rfl

/-- Lines of the tree form at some depth, each ending in a newline. -/
def treeAt (nameOf : Nat → String) (depth : Nat) : Formula → String
  | var atom => indent depth ++ nameOf atom ++ "\n"
  | neg inner => indent depth ++ "NOT\n" ++ inner.treeAt nameOf (depth + 1)
  | bin connective left right =>
      left.treeAt nameOf (depth + 1) ++ indent depth ++ connective.word ++ "\n" ++
        right.treeAt nameOf (depth + 1)

/-- The tree form of a whole formula. -/
def tree (nameOf : Nat → String) (formula : Formula) : String := formula.treeAt nameOf 0

/-- Canonical form with the names of a table that holds all atoms of the formula. -/
def canonical? (table : AtomTable) (formula : Formula) : Option String :=
  if formula.within table.count then some (formula.canonical table.nameAt) else none

/-- Tree form with the names of a table that holds all atoms of the formula. -/
def tree? (table : AtomTable) (formula : Formula) : Option String :=
  if formula.within table.count then some (formula.tree table.nameAt) else none

end Formula
end PropSat
