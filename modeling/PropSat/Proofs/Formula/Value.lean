import PropSat.Formula.Basic
import PropSat.Proofs.Satisfaction

/-!
# Values of formulas

Under an assignment every formula has a value, which depends on its atoms only and which is the one
found on a model that holds all of them.  The compound parts of a formula are listed with the parts
of each before it, and the left ones before the right ones.
-/

namespace PropSat
namespace Formula

/-- Truth value under an assignment. -/
def eval (assignment : Assignment) : Formula → Bool
  | var atom => assignment atom
  | neg inner => !inner.eval assignment
  | bin connective left right =>
      connective.eval (left.eval assignment) (right.eval assignment)

/-- Compound parts, those inside each one before it. -/
def compounds : Formula → List Formula
  | var _ => []
  | neg inner => inner.compounds ++ [neg inner]
  | bin connective left right =>
      left.compounds ++ right.compounds ++ [bin connective left right]

/-- Formulas that the outermost operator of a formula is applied to. -/
def children : Formula → List Formula
  | var _ => []
  | neg inner => [inner]
  | bin _ left right => [left, right]

/-- All parts, the variables and the formula itself among them, those inside each one before it. -/
def subformulas : Formula → List Formula
  | var atom => [var atom]
  | neg inner => inner.subformulas ++ [neg inner]
  | bin connective left right =>
      left.subformulas ++ right.subformulas ++ [bin connective left right]

/-- Whether a formula is no variable. -/
def isCompound : Formula → Bool
  | var _ => false
  | neg _ | bin _ _ _ => true

theorem eval_congr {bound : Nat} {left right : Assignment}
    (agree : ∀ atom < bound, left atom = right atom) {formula : Formula}
    (within : formula.within bound = true) : formula.eval left = formula.eval right := by
  induction formula with
  | var atom => exact agree atom (by simpa [Formula.within] using within)
  | neg inner induction => rw [eval, eval, induction within]
  | bin connective first second first_induction second_induction =>
      rw [Formula.within, Bool.and_eq_true] at within
      rw [eval, eval, first_induction within.1, second_induction within.2]

/-- On a model that holds all atoms, a formula has the value it has under the assignment that the
model stands for. -/
theorem evaluate?_ofModel {model : Array Bool} {formula : Formula}
    (within : formula.within model.size = true) :
    formula.evaluate? (.ofModel model) = some (formula.eval (.ofModel model)) := by
  induction formula with
  | var atom =>
      have inside : atom < model.size := by simpa [Formula.within] using within
      simp [evaluate?, eval, Valuation.ofModel, Assignment.ofModel, inside]
  | neg inner induction =>
      rw [evaluate?, induction within]
      rfl
  | bin connective left right left_induction right_induction =>
      rw [Formula.within, Bool.and_eq_true] at within
      rw [evaluate?, left_induction within.1, right_induction within.2]
      rfl

theorem within_mono {low high : Nat} (ordered : low ≤ high) {formula : Formula}
    (within : formula.within low = true) : formula.within high = true := by
  induction formula with
  | var atom =>
      rw [Formula.within, decide_eq_true_eq] at within ⊢
      omega
  | neg inner induction => exact induction within
  | bin connective left right left_induction right_induction =>
      rw [Formula.within, Bool.and_eq_true] at within ⊢
      exact ⟨left_induction within.1, right_induction within.2⟩

theorem mem_compounds_self {formula : Formula} (compound : formula.isCompound = true) :
    formula ∈ formula.compounds := by
  cases formula with
  | var atom => cases compound
  | neg inner => simp [compounds]
  | bin connective left right => simp [compounds]

theorem isCompound_of_mem_compounds {part formula : Formula} (member : part ∈ formula.compounds) :
    part.isCompound = true := by
  induction formula with
  | var atom => cases member
  | neg inner induction =>
      rcases List.mem_append.mp member with inside | whole
      · exact induction inside
      · rw [List.mem_singleton.mp whole]
        rfl
  | bin connective left right left_induction right_induction =>
      rcases List.mem_append.mp member with inside | whole
      · exact (List.mem_append.mp inside).elim left_induction right_induction
      · rw [List.mem_singleton.mp whole]
        rfl

theorem within_of_mem_compounds {bound : Nat} {part formula : Formula}
    (within : formula.within bound = true) (member : part ∈ formula.compounds) :
    part.within bound = true := by
  induction formula with
  | var atom => cases member
  | neg inner induction =>
      rcases List.mem_append.mp member with inside | whole
      · exact induction within inside
      · rw [List.mem_singleton.mp whole]
        exact within
  | bin connective left right left_induction right_induction =>
      rcases List.mem_append.mp member with inside | whole
      · rw [Formula.within, Bool.and_eq_true] at within
        exact (List.mem_append.mp inside).elim (left_induction within.1) (right_induction within.2)
      · rw [List.mem_singleton.mp whole]
        exact within

theorem within_of_mem_children {bound : Nat} {child formula : Formula}
    (within : formula.within bound = true) (member : child ∈ formula.children) :
    child.within bound = true := by
  cases formula with
  | var atom => cases member
  | neg inner =>
      rw [List.mem_singleton.mp member]
      exact within
  | bin connective left right =>
      rw [Formula.within, Bool.and_eq_true] at within
      have either : child = left ∨ child = right := by simpa [children] using member
      rcases either with rfl | rfl
      · exact within.1
      · exact within.2

theorem size_lt_of_mem_children {child formula : Formula} (member : child ∈ formula.children) :
    child.size < formula.size := by
  cases formula with
  | var atom => cases member
  | neg inner =>
      rw [List.mem_singleton.mp member, size]
      omega
  | bin connective left right =>
      have either : child = left ∨ child = right := by simpa [children] using member
      rw [size]
      rcases either with rfl | rfl <;> omega

/-- A part is the whole formula or one of a child. -/
theorem exists_child_of_mem_subformulas {part formula : Formula}
    (member : part ∈ formula.subformulas) :
    part = formula ∨ ∃ child ∈ formula.children, part ∈ child.subformulas := by
  cases formula with
  | var atom => exact .inl (List.mem_singleton.mp member)
  | neg inner =>
      rcases List.mem_append.mp member with inside | whole
      · exact .inr ⟨inner, List.mem_singleton_self inner, inside⟩
      · exact .inl (List.mem_singleton.mp whole)
  | bin connective left right =>
      rcases List.mem_append.mp member with inside | whole
      · rcases List.mem_append.mp inside with in_left | in_right
        · exact .inr ⟨left, by simp [children], in_left⟩
        · exact .inr ⟨right, by simp [children], in_right⟩
      · exact .inl (List.mem_singleton.mp whole)

end Formula
end PropSat
