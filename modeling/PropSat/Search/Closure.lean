import PropSat.Cnf

/-!
# Unit closure

From a partial valuation, the literal of the first unit clause is made true, again and again, until
no clause is unit or some clause is violated.  Each step decides an open atom, so there are at most
as many steps as open atoms.
-/

namespace PropSat
namespace Search

/-- A literal that a clause forces. -/
structure Forced where
  /-- The literal to make true. -/
  literal : Literal
  /-- Index of the clause that forces it. -/
  clause : Nat
  deriving DecidableEq

/-- How unit closure ends. -/
inductive Closure where
  /-- No clause is violated or unit under this valuation. -/
  | settled (valuation : Valuation)
  /-- The clause at this index is violated. -/
  | conflict (clause : Nat)
  deriving DecidableEq

/-- Follow unit clauses, with the literals forced in turn; none if a literal outside the valuation
is read. -/
def close? (cnf : Cnf) (valuation : Valuation) : Option (List Forced × Closure) :=
  match cnf.status? valuation with
  | none => none
  | some (.violated clause) => some ([], .conflict clause)
  | some _ =>
      match _ : cnf.firstForced? valuation with
      | none => none
      | some none => some ([], .settled valuation)
      | some (some (literal, clause)) =>
          (close? cnf (valuation.assign literal)).map fun (forced, closure) =>
            ({ literal, clause } :: forced, closure)
  termination_by valuation.openCount
  decreasing_by
    rename_i found
    have fewer := Valuation.openCount_assign (Cnf.open_of_firstForced? found)
    omega

theorem close?_of_violated {cnf : Cnf} {valuation : Valuation} {clause : Nat}
    (violated : cnf.status? valuation = some (.violated clause)) :
    close? cnf valuation = some ([], .conflict clause) := by
  rw [close?, violated]

theorem close?_of_not_forced {cnf : Cnf} {valuation : Valuation} {status : Cnf.Status}
    (status_eq : cnf.status? valuation = some status)
    (not_violated : ∀ clause, status ≠ .violated clause)
    (not_forced : cnf.firstForced? valuation = some none) :
    close? cnf valuation = some ([], .settled valuation) := by
  rw [close?, status_eq]
  cases status with
  | violated clause => exact absurd rfl (not_violated clause)
  | satisfied | undecided =>
      simp only
      split
      all_goals
        rename_i found
        cases not_forced.symm.trans found
      rfl

theorem close?_of_forced {cnf : Cnf} {valuation : Valuation} {status : Cnf.Status}
    {literal : Literal} {clause : Nat} (status_eq : cnf.status? valuation = some status)
    (not_violated : ∀ clause, status ≠ .violated clause)
    (forced : cnf.firstForced? valuation = some (some (literal, clause))) :
    close? cnf valuation = (close? cnf (valuation.assign literal)).map fun (later, closure) =>
      ({ literal, clause } :: later, closure) := by
  rw [close?, status_eq]
  cases status with
  | violated clause => exact absurd rfl (not_violated clause)
  | satisfied | undecided =>
      simp only
      split
      all_goals
        rename_i found
        cases forced.symm.trans found
      rfl

/-- Unit closure settles on the valuation that makes the literals it lists true. -/
theorem eq_assignAll_of_close? {cnf : Cnf} {valuation closed : Valuation} {forced : List Forced}
    (settled : close? cnf valuation = some (forced, .settled closed)) :
    closed = valuation.assignAll (forced.map Forced.literal) := by
  fun_induction close? cnf valuation generalizing forced with
  | case1 | case2 | case3 => simp at settled
  | case4 =>
      cases settled
      rfl
  | case5 valuation _ _ _ literal clause found induction =>
      obtain ⟨⟨later, outcome⟩, later_eq, result_eq⟩ := Option.map_eq_some_iff.mp settled
      simp only [Prod.mk.injEq] at result_eq
      obtain ⟨rfl, rfl⟩ := result_eq
      exact induction later_eq

/-- However unit closure ends, each literal that it lists was open when it was made true, so taking
all of them back gives the valuation that it started from. -/
theorem clearAll_assignAll_of_close? {cnf : Cnf} {valuation : Valuation} {forced : List Forced}
    {closure : Closure} (outcome : close? cnf valuation = some (forced, closure)) :
    (valuation.assignAll (forced.map Forced.literal)).clearAll (forced.map Forced.literal) =
      valuation := by
  fun_induction close? cnf valuation generalizing forced with
  | case1 | case3 => simp at outcome
  | case2 | case4 =>
      cases outcome
      rfl
  | case5 valuation _ _ _ literal clause found induction =>
      obtain ⟨⟨later, ending⟩, later_eq, result_eq⟩ := Option.map_eq_some_iff.mp outcome
      simp only [Prod.mk.injEq] at result_eq
      obtain ⟨rfl, rfl⟩ := result_eq
      have restored := induction later_eq
      change (((valuation.assign literal).assignAll (later.map Forced.literal)).clear
        literal.atom).clearAll (later.map Forced.literal) = valuation
      rw [Valuation.clearAll_clear, restored,
        Valuation.clear_assign (Cnf.open_of_firstForced? found)]

/-- When following unit clauses ends without a conflict, no clause is violated or unit. -/
theorem settled_of_close? {cnf : Cnf} {valuation closed : Valuation} {forced : List Forced}
    (closure : close? cnf valuation = some (forced, .settled closed)) :
    (∀ index, cnf.status? closed ≠ some (.violated index)) ∧
      cnf.firstForced? closed = some none := by
  fun_induction close? cnf valuation generalizing forced with
  | case1 | case2 | case3 => simp at closure
  | case4 valuation status not_violated status_eq none_forced =>
      simp only [Option.some.injEq, Prod.mk.injEq, Closure.settled.injEq] at closure
      obtain ⟨_, rfl⟩ := closure
      refine ⟨fun index violated => ?_, none_forced⟩
      rw [status_eq] at violated
      cases violated
      exact not_violated index rfl
  | case5 valuation _ _ _ literal clause found induction =>
      obtain ⟨⟨later, outcome⟩, later_eq, result_eq⟩ := Option.map_eq_some_iff.mp closure
      simp only [Prod.mk.injEq] at result_eq
      obtain ⟨_, rfl⟩ := result_eq
      exact induction later_eq

end Search
end PropSat
