import PropSat.Proofs.Search.Passes

/-!
# Passes determine a search

As long as a search is in time, an iteration that can be a given pass is that pass.  So a run may be
put together from passes, and solving ends as the run does.
-/

namespace PropSat
namespace Search
namespace Solver

variable {solver : Solver}

theorem propagate?_of_settled {forced : List Forced} {closed : Valuation}
    (closure : close? solver.cnf solver.valuation = some (forced, .settled closed)) :
    ∃ followed, solver.begun.propagate? = some (none, followed) ∧
      followed = solver.moved 1 (forced.map Forced.move) closed
        (solver.trail.recordAll (forced.map Forced.literal)) ∧
      followed.counters.decisions = solver.counters.decisions := by
  have begun_closure : close? solver.begun.cnf solver.begun.valuation =
      some (forced, .settled closed) := closure
  obtain ⟨followed, propagated⟩ : ∃ followed, solver.begun.propagate? = some (none, followed) :=
    ⟨_, by rw [propagate?, begun_closure]; rfl⟩
  obtain ⟨_, _, same, followed_eq, decisions_eq⟩ := moved_of_settled propagated
  cases closure.symm.trans same
  exact ⟨followed, propagated, followed_eq, decisions_eq⟩

theorem propagate?_of_conflict {forced : List Forced} {clause : Nat}
    (closure : close? solver.cnf solver.valuation = some (forced, .conflict clause)) :
    ∃ followed, solver.begun.propagate? = some (some clause, followed) ∧
      followed.conflicted = solver.moved 1 (forced.map Forced.move ++ [.backtrack (some clause)])
        solver.valuation solver.trail := by
  have begun_closure : close? solver.begun.cnf solver.begun.valuation =
      some (forced, .conflict clause) := closure
  obtain ⟨followed, propagated⟩ :
      ∃ followed, solver.begun.propagate? = some (some clause, followed) :=
    ⟨_, by rw [propagate?, begun_closure]; rfl⟩
  obtain ⟨_, same, followed_eq⟩ := moved_of_conflict propagated
  cases closure.symm.trans same
  exact ⟨followed, propagated, followed_eq⟩

theorem backtrack?_of_retreat? {retreat : Retreat}
    (back : retreat? solver.valuation solver.trail.frames = some retreat) :
    solver.backtrack? =
      some (retreat.redecided, solver.moved 0 retreat.moves retreat.valuation
        { solver.trail with frames := retreat.frames }) := by
  obtain ⟨⟨flipped, next⟩, backtracked⟩ : ∃ outcome, solver.backtrack? = some outcome :=
    ⟨_, by rw [backtrack?, back]; rfl⟩
  obtain ⟨_, same, rfl, rfl⟩ := moved_of_backtrack? backtracked
  cases back.symm.trans same
  exact backtracked

theorem advance?_of_below {literal : Literal}
    (candidate : solver.cnf.firstCandidate? solver.valuation = some (some literal))
    (below : solver.counters.decisions.toNat < solver.settings.decisionLimit.value) :
    solver.advance? = some (.next (solver.assume literal)) := by
  rw [advance?, branch?, candidate]
  simp [Nat.not_le.mpr below]

theorem advance?_of_reached {literal : Literal}
    (candidate : solver.cnf.firstCandidate? solver.valuation = some (some literal))
    (reached : solver.settings.decisionLimit.value ≤ solver.counters.decisions.toNat) :
    solver.advance? = some (.halt (.ok .unknown) solver) := by
  rw [advance?, branch?, candidate]
  simp [reached]

theorem advance?_of_satisfied
    (all_satisfied : solver.cnf.status? solver.valuation = some .satisfied) :
    solver.advance? = some (.halt (.ok .satisfiable) solver) := by
  have none_found : solver.cnf.firstCandidate? solver.valuation = some none := by
    have each := Cnf.describes_of_statusFrom? all_satisfied
    rw [Cnf.firstCandidate?, Cnf.firstFrom?_of_satisfied each rfl]
    rfl
  rw [advance?, branch?, none_found]
  simp [all_satisfied]

theorem step?_of_conflict {elapsed : Duration} {followed : Solver} {clause : Nat}
    (in_time : elapsed ≤ solver.settings.timeLimit.value)
    (conflict : solver.begun.propagate? = some (some clause, followed)) :
    solver.step? elapsed = followed.retract? := by
  rw [begun] at conflict
  simp only [step?, in_time, if_true, conflict]

theorem step?_of_settled {elapsed : Duration} {followed : Solver}
    (in_time : elapsed ≤ solver.settings.timeLimit.value)
    (settled : solver.begun.propagate? = some (none, followed)) :
    solver.step? elapsed = followed.advance? := by
  rw [begun] at settled
  simp only [step?, in_time, if_true, settled]

/-- In time, an iteration that can be a pass is that pass. -/
theorem Pass.step?_eq {elapsed : Duration} {moves : List Move} {step : Step}
    (pass : Pass elapsed solver moves step)
    (in_time : elapsed ≤ solver.settings.timeLimit.value) : solver.step? elapsed = some step := by
  cases pass with
  | late exceeded => exact absurd in_time exceeded
  | @flipped _ _ retreat _ conflict back redecided
  | @exhausted _ _ retreat conflict back redecided =>
      obtain ⟨followed, propagated, conflicted_eq⟩ := propagate?_of_conflict conflict
      have moved_back : retreat? followed.conflicted.valuation followed.conflicted.trail.frames =
          some retreat := by
        rw [conflicted_eq]
        exact back
      have backtracked := backtrack?_of_retreat? moved_back
      rw [conflicted_eq, moved_moved, redecided] at backtracked
      rw [step?_of_conflict in_time propagated]
      change Option.map _ followed.conflicted.backtrack? = _
      rw [conflicted_eq, backtracked]
      rfl
  | decided settled candidate below =>
      obtain ⟨followed, propagated, rfl, decisions_eq⟩ := propagate?_of_settled settled
      rw [← decisions_eq] at below
      rw [step?_of_settled in_time propagated, advance?_of_below candidate below, assume_eq_moved,
        moved_moved]
      rfl
  | limited settled candidate reached =>
      obtain ⟨followed, propagated, rfl, decisions_eq⟩ := propagate?_of_settled settled
      rw [← decisions_eq] at reached
      rw [step?_of_settled in_time propagated]
      exact advance?_of_reached candidate reached
  | satisfied settled all_satisfied =>
      obtain ⟨followed, propagated, rfl, _⟩ := propagate?_of_settled settled
      rw [step?_of_settled in_time propagated]
      exact advance?_of_satisfied all_satisfied

/-- Solving begins in the way in which it can. -/
theorem Opens.opening_eq {opening : Opening} (opens : Opens solver opening) :
    solver.opening = opening := by
  cases opens with
  | refused again => rw [Solver.opening, if_neg again]
  | settled fresh empty =>
      rw [Solver.opening, if_pos fresh]
      exact if_pos empty
  | search fresh nonempty =>
      rw [Solver.opening, if_pos fresh]
      exact if_neg nonempty

/-- Solving ends as it is solved. -/
theorem Solves.solve?_eq {clock : Nat → Duration} {passes : List (List Move)} {verdict : Verdict}
    {final : Solver} (solves : Solves clock solver passes verdict final) :
    solver.solve? clock = some (.ok verdict, final) := by
  cases solves with
  | done opening => rw [solve?, opening]
  | searched opening run =>
      have searched := search?_eq_some_iff.mpr ⟨_, run⟩
      simp only [solve?, opening, searched]
      rfl

end Solver
end Search
end PropSat
