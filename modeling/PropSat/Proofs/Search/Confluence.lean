import PropSat.Proofs.Search.Propagation

/-!
# Confluence of propagation

Clauses are similar if they are the same but for order and repetition, of clauses and of literals in
them.  A unit clause of one list forces a literal that every valuation above, on which the similar
list rests, makes true already.  So propagation stays below each such valuation: it meets no
conflict if there is one, and where it ends is the least of them, whichever unit clauses it has
followed.
-/

namespace PropSat

/-- Whether two clauses have the same literals, in any order and number. -/
def Clause.Similar (left right : Clause) : Prop := ∀ literal, literal ∈ left ↔ literal ∈ right

/-- Whether two lists of clauses have similar clauses, in any order and number. -/
structure Cnf.Similar (left right : Cnf) : Prop where
  /-- Each clause on the left is found on the right. -/
  forth : ∀ clause ∈ left.clauses, ∃ other ∈ right.clauses, clause.Similar other
  /-- Each clause on the right is found on the left. -/
  back : ∀ other ∈ right.clauses, ∃ clause ∈ left.clauses, clause.Similar other

namespace Clause

theorem Rests.of_similar {valuation : Valuation} {left right : Clause}
    (similar : left.Similar right) (rests : left.Rests valuation) : right.Rests valuation := by
  simpa only [Rests, similar _] using rests

end Clause

namespace Cnf

variable {left right : Cnf} {valuation : Valuation}

theorem Similar.symm (similar : left.Similar right) : right.Similar left where
  forth clause member := by
    obtain ⟨other, other_mem, same⟩ := similar.back clause member
    exact ⟨other, other_mem, fun literal => (same literal).symm⟩
  back clause member := by
    obtain ⟨other, other_mem, same⟩ := similar.forth clause member
    exact ⟨other, other_mem, fun literal => (same literal).symm⟩

theorem Rests.of_similar (similar : left.Similar right) (rests : left.Rests valuation) :
    right.Rests valuation := by
  intro other other_mem
  obtain ⟨clause, member, same⟩ := similar.back other other_mem
  exact (rests clause member).of_similar same

end Cnf

namespace Literal

/-- Literals find the same places in whichever order they are put into a list. -/
theorem insertInto_comm (first second : Literal) (literals : List Literal) :
    first.insertInto (second.insertInto literals) =
      second.insertInto (first.insertInto literals) := by
  induction literals with
  | nil =>
      have same_rank := @rank_inj first second
      simp only [insertInto]
      grind
  | cons literal rest induction =>
      have same_rank := @rank_inj first second
      simp only [insertInto]
      grind [insertInto]

end Literal

namespace Search

namespace Trail

theorem record_comm (trail : Trail) (first second : Literal) :
    (trail.record first).record second = (trail.record second).record first := by
  obtain ⟨root, frames⟩ := trail
  cases frames with
  | nil => simp [record, Level.record, Literal.insertInto_comm first second]
  | cons top rest =>
      simp [record, Frame.record, Level.record, Literal.insertInto_comm first second]

/-- It does not matter in which order literals are recorded. -/
theorem recordAll_perm (trail : Trail) {left right : List Literal} (rearranged : left.Perm right) :
    trail.recordAll left = trail.recordAll right :=
  rearranged.foldl_eq' (fun first _ second _ trail => record_comm trail first second) trail

end Trail

section Closure

variable {cnf other : Cnf} {valuation upper closed : Valuation} {forced otherForced : List Forced}

/-- Following unit clauses from below a valuation on which the clauses rest meets no conflict and
stays below it. -/
theorem extends_of_rests {closure : Closure} (rests : cnf.Rests upper)
    (extended : upper.Extends valuation)
    (closure_eq : close? cnf valuation = some (forced, closure)) :
    ∃ closed, closure = .settled closed ∧ upper.Extends closed := by
  fun_induction close? cnf valuation generalizing forced with
  | case1 | case3 => simp at closure_eq
  | case2 valuation index violated =>
      obtain ⟨clause, at_index, clause_violated⟩ := Cnf.violated_of_status? violated
      exact ((rests clause (List.mem_of_getElem? at_index)).not_violated extended
        clause_violated).elim
  | case4 valuation =>
      cases closure_eq
      exact ⟨valuation, rfl, extended⟩
  | case5 valuation _ _ _ literal index found induction =>
      obtain ⟨⟨later, outcome⟩, later_eq, result_eq⟩ := Option.map_eq_some_iff.mp closure_eq
      simp only [Prod.mk.injEq] at result_eq
      obtain ⟨_, rfl⟩ := result_eq
      obtain ⟨clause, at_index, unit⟩ := Cnf.unit_of_firstForced? found
      have true_above := (rests clause (List.mem_of_getElem? at_index)).true_of_unit extended unit
      exact induction (extended.assign true_above) later_eq

/-- Where unit clauses lead without a conflict, similar clauses lead as well. -/
theorem settled_of_similar {closure : Closure} (similar : cnf.Similar other)
    (settled : close? cnf valuation = some (forced, .settled closed))
    (other_eq : close? other valuation = some (otherForced, closure)) :
    closure = .settled closed := by
  have rests := rests_of_close? settled
  obtain ⟨otherClosed, rfl, above⟩ := extends_of_rests (rests.of_similar similar)
    (extends_of_close? settled) other_eq
  -- The other valuation is one on which the first clauses rest, too.
  obtain ⟨_, same, below⟩ := extends_of_rests ((rests_of_close? other_eq).of_similar similar.symm)
    (extends_of_close? other_eq) settled
  cases same
  rw [below.antisymm above]

/-- Where unit clauses lead without a conflict, the literals that were followed are the same for
similar clauses. -/
theorem forced_perm (settled : close? cnf valuation = some (forced, .settled closed))
    (other_settled : close? other valuation = some (otherForced, .settled closed)) :
    (forced.map Forced.literal).Perm (otherForced.map Forced.literal) := by
  rw [List.perm_ext_iff_of_nodup (nodup_forced settled) (nodup_forced other_settled)]
  intro literal
  rw [mem_forced_iff settled, mem_forced_iff other_settled]

end Closure

namespace Solver

variable {left right leftNext rightNext : Solver}

theorem Covers.of_similar (valuation_eq : left.valuation = right.valuation)
    (similar : left.cnf.Similar right.cnf) (covers : left.Covers) : right.Covers := by
  intro other other_mem literal occurs
  obtain ⟨clause, member, same⟩ := similar.back other other_mem
  exact valuation_eq ▸ covers clause member literal ((same literal).mpr occurs)

/-- If one solver meets no conflict, then a similar one meets none and ends at the same. -/
theorem propagate?_of_similar (valuation_eq : left.valuation = right.valuation)
    (trail_eq : left.trail = right.trail) (similar : left.cnf.Similar right.cnf)
    (settled : left.propagate? = some (none, leftNext)) {conflict : Option Nat}
    (outcome : right.propagate? = some (conflict, rightNext)) :
    conflict = none ∧ leftNext.valuation = rightNext.valuation ∧
      leftNext.trail = rightNext.trail := by
  rcases propagate?_cases settled with ⟨forced, closed, _, closure, rfl⟩ | ⟨_, _, impossible, _⟩
  · rcases propagate?_cases outcome with
      ⟨otherForced, otherClosed, rfl, other_eq, rfl⟩ | ⟨otherForced, clause, rfl, other_eq, rfl⟩
    · rw [← valuation_eq] at other_eq
      cases settled_of_similar similar closure other_eq
      refine ⟨rfl, rfl, ?_⟩
      change left.trail.recordAll _ = right.trail.recordAll _
      rw [trail_eq, Trail.recordAll_perm right.trail (forced_perm closure other_eq)]
    · rw [← valuation_eq] at other_eq
      cases settled_of_similar similar closure other_eq
  · cases impossible

/-- Two solvers with the same valuation and trail, whose clauses are the same but for order and
repetition of clauses and of literals, both meet a conflict or both meet none, and in the latter
case they end with the same valuation and the same trail.  Neither is stuck if the valuation holds
the atoms of the clauses. -/
theorem propagate?_confluent (valuation_eq : left.valuation = right.valuation)
    (trail_eq : left.trail = right.trail) (similar : left.cnf.Similar right.cnf) :
    (left.Covers → (∃ outcome, left.propagate? = some outcome) ∧
      ∃ outcome, right.propagate? = some outcome) ∧
    ∀ leftConflict leftNext rightConflict rightNext,
      left.propagate? = some (leftConflict, leftNext) →
      right.propagate? = some (rightConflict, rightNext) →
        (leftConflict = none ↔ rightConflict = none) ∧
        (leftConflict = none → leftNext.valuation = rightNext.valuation ∧
          leftNext.trail = rightNext.trail) := by
  refine ⟨fun covers => ⟨covers.exists_propagate?,
    (covers.of_similar valuation_eq similar).exists_propagate?⟩, ?_⟩
  intro leftConflict leftNext rightConflict rightNext left_outcome right_outcome
  refine ⟨⟨?_, ?_⟩, ?_⟩
  · rintro rfl
    exact (propagate?_of_similar valuation_eq trail_eq similar left_outcome right_outcome).1
  · rintro rfl
    exact (propagate?_of_similar valuation_eq.symm trail_eq.symm similar.symm right_outcome
      left_outcome).1
  · rintro rfl
    exact (propagate?_of_similar valuation_eq trail_eq similar left_outcome right_outcome).2

/-- Clauses that decide two atoms, one after the other. -/
def chain : Cnf where
  atomCount := 2
  clauses := [[.positive 0], [.negative 0, .positive 1]]

/-- The same clauses in another order and with repetitions. -/
def tangledChain : Cnf where
  atomCount := 2
  clauses := [[.positive 1, .negative 0, .positive 1], [.positive 0, .positive 0], [.positive 0]]

theorem propagate?_confluent_chain :
    chain.Similar tangledChain ∧
      (Covers { settings := {}, cnf := chain, valuation := #[none, none] } →
        (∃ outcome,
          propagate? { settings := {}, cnf := chain, valuation := #[none, none] } = some outcome) ∧
        ∃ outcome, propagate? { settings := {}, cnf := tangledChain, valuation := #[none, none] } =
          some outcome) ∧
      ∀ leftConflict leftNext rightConflict rightNext,
        propagate? { settings := {}, cnf := chain, valuation := #[none, none] } =
          some (leftConflict, leftNext) →
        propagate? { settings := {}, cnf := tangledChain, valuation := #[none, none] } =
          some (rightConflict, rightNext) →
        (leftConflict = none ↔ rightConflict = none) ∧
        (leftConflict = none → leftNext.valuation = rightNext.valuation ∧
          leftNext.trail = rightNext.trail) := by
  have similar : chain.Similar tangledChain := by
    constructor
    · simp [chain, tangledChain, Clause.Similar, or_comm]
    · simp only [chain, tangledChain, List.forall_mem_cons]
      simp [Clause.Similar, or_comm]
  exact ⟨similar, propagate?_confluent rfl rfl similar⟩

end Solver
end Search
end PropSat
