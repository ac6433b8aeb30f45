import PropSat.Proofs.Formula.Value

/-!
# Chained equivalences

A formula is read here as clauses read it that chain its equivalences: both operands of each one
have to agree, and the equivalence itself has their common value.  Such a reading may be true of a
false formula, as an equivalence of two falsehoods counts as false.  If all equivalences stand
positively, under an even number of negations, this does not happen.
-/

namespace PropSat

/-- Truth function of a connective, where an equivalence has the value of its second operand. -/
def Connective.chainedEval : Connective → Bool → Bool → Bool
  | iff, _, right => right
  | connective, left, right => connective.eval left right

theorem Connective.chainedEval_eq {connective : Connective} (other : connective ≠ .iff) :
    connective.chainedEval = connective.eval := by
  cases connective with
  | and | or | implies => rfl
  | iff => exact (other rfl).elim

/-- The sign at which the left operand of a connective stands. -/
def Connective.leftSign (sign : Bool) : Connective → Bool
  | implies => !sign
  | and | or | iff => sign

/-- Operands that keep the values of their signs let a connective keep its own, provided that an
equivalence stands positively and has operands that agree. -/
theorem Connective.eval_of_chainedEval {connective : Connective}
    {sign left right leftRead rightRead : Bool}
    (linked : connective = .iff → sign = true ∧ leftRead = rightRead)
    (left_kept : leftRead = connective.leftSign sign → left = connective.leftSign sign)
    (right_kept : rightRead = sign → right = sign)
    (read : connective.chainedEval leftRead rightRead = sign) :
    connective.eval left right = sign := by
  cases connective with
  | iff =>
      obtain ⟨rfl, rfl⟩ := linked rfl
      rw [left_kept read, right_kept read]
      rfl
  | and | or | implies => cases sign <;> grind [chainedEval, eval, leftSign]

namespace Formula

/-- Truth value where every equivalence has the value of its second operand. -/
def chainedEval (assignment : Assignment) : Formula → Bool
  | var atom => assignment atom
  | neg inner => !inner.chainedEval assignment
  | bin connective left right =>
      connective.chainedEval (left.chainedEval assignment) (right.chainedEval assignment)

/-- Whether the operands of every equivalence in a formula agree. -/
def Linked (assignment : Assignment) (formula : Formula) : Prop :=
  ∀ left right, bin .iff left right ∈ formula.compounds →
    left.chainedEval assignment = right.chainedEval assignment

/-- Whether equivalences stand only where the sign is positive.  The sign changes under a negation
and on the left of an implication. -/
def iffPositive (sign : Bool) : Formula → Bool
  | var _ => true
  | neg inner => inner.iffPositive !sign
  | bin connective left right =>
      (connective ≠ .iff || sign) && left.iffPositive (connective.leftSign sign) &&
        right.iffPositive sign

section Values

variable {assignment : Assignment} {formula : Formula}

theorem chainedEval_congr {bound : Nat} {other : Assignment}
    (agree : ∀ atom < bound, assignment atom = other atom)
    (within : formula.within bound = true) :
    formula.chainedEval assignment = formula.chainedEval other := by
  induction formula with
  | var atom => exact agree atom (by simpa [Formula.within] using within)
  | neg inner induction => rw [chainedEval, chainedEval, induction within]
  | bin connective left right left_induction right_induction =>
      rw [Formula.within, Bool.and_eq_true] at within
      rw [chainedEval, chainedEval, left_induction within.1, right_induction within.2]

theorem Linked.mono {part : Formula} (linked : formula.Linked assignment)
    (inside : part.compounds ⊆ formula.compounds) : part.Linked assignment :=
  fun left right member => linked left right (inside member)

theorem Linked.congr {bound : Nat} {other : Assignment}
    (agree : ∀ atom < bound, assignment atom = other atom)
    (within : formula.within bound = true) (linked : formula.Linked assignment) :
    formula.Linked other := by
  intro left right member
  have part_within := within_of_mem_compounds within member
  rw [Formula.within, Bool.and_eq_true] at part_within
  rw [← chainedEval_congr agree part_within.1, ← chainedEval_congr agree part_within.2]
  exact linked left right member

/-- Where equivalences stand only positively, a formula with linked equivalences that is read as
true is true, and one that is read as false under a negation is false. -/
theorem eval_of_chainedEval {sign : Bool} (linked : formula.Linked assignment)
    (positive : formula.iffPositive sign = true)
    (read : formula.chainedEval assignment = sign) : formula.eval assignment = sign := by
  induction formula generalizing sign with
  | var atom => exact read
  | neg inner induction =>
      have inner_read : inner.chainedEval assignment = !sign := by
        rw [← read, chainedEval, Bool.not_not]
      have inner_linked := linked.mono (List.subset_append_left _ _)
      rw [eval, induction inner_linked positive inner_read, Bool.not_not]
  | bin connective left right left_induction right_induction =>
      have left_linked : left.Linked assignment := linked.mono fun part member =>
        List.mem_append_left _ (List.mem_append_left _ member)
      have right_linked : right.Linked assignment := linked.mono fun part member =>
        List.mem_append_left _ (List.mem_append_right _ member)
      rw [iffPositive, Bool.and_eq_true, Bool.and_eq_true] at positive
      obtain ⟨⟨placed, left_positive⟩, right_positive⟩ := positive
      rw [eval]
      apply Connective.eval_of_chainedEval _ (left_induction left_linked left_positive)
        (right_induction right_linked right_positive) read
      rintro rfl
      exact ⟨by simpa using placed, linked left right (mem_compounds_self rfl)⟩

end Values
end Formula
end PropSat
