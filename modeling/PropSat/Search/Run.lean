import PropSat.Search.Potential
import PropSat.Search.Solver

/-!
# Running a search

An iteration follows unit clauses and then either goes back from a conflict or makes a decision.
Each iteration that does not end the search lowers its potential, so every search ends.
-/

namespace PropSat
namespace Search

/-- What comes of one iteration. -/
inductive Step where
  /-- The search goes on. -/
  | next (solver : Solver)
  /-- The search has ended. -/
  | halt (verdict : Except Fault Verdict) (solver : Solver)

namespace Solver

/-- Meet a conflict: go back, or find that the clauses are unsatisfiable. -/
def retract? (solver : Solver) : Option Step :=
  let solver := { solver with counters := solver.counters.addConflict }
  solver.backtrack?.map fun (flipped, solver) =>
    match flipped with
    | some _ => .next solver
    | none => .halt (.ok .unsatisfiable) solver

/-- Go on without a conflict: decide, or end the search. -/
def advance? (solver : Solver) : Option Step :=
  match solver.branch? with
  | none => none
  | some (.made _, solver) => some (.next solver)
  | some (.limited, solver) => some (.halt (.ok .unknown) solver)
  | some (.settled, solver) =>
      (solver.cnf.status? solver.valuation).map fun status =>
        match status with
        | .satisfied => .halt (.ok .satisfiable) solver
        -- The search would not get further, but propagation has ruled this out.
        | .violated _ => .next solver
        | .undecided => .halt (.error .brokenState) solver

/-- Make one iteration, given the time spent before it; none if a literal is read or taken back
that lies outside the valuation. -/
def step? (elapsed : Duration) (solver : Solver) : Option Step :=
  let solver := { solver with counters := solver.counters.addIteration }
  if elapsed ≤ solver.settings.timeLimit.value then
    match solver.propagate? with
    | none => none
    | some (some _, solver) => solver.retract?
    | some (none, solver) => solver.advance?
  else
    some (.halt (.ok .timeUp) solver)

/-- Bound on the iterations that are left. -/
def potential (solver : Solver) : Nat := Search.potential solver.valuation solver.trail.frames

theorem potential_of_propagate? {solver next : Solver} {conflict : Option Nat}
    (outcome : solver.propagate? = some (conflict, next)) : next.potential ≤ solver.potential := by
  rcases propagate?_cases outcome with ⟨forced, valuation, _, closure, rfl⟩ | ⟨_, _, _, _, rfl⟩
  · have fewer := treeSize_mono (openCount_le_of_close? closure)
    have kept := @reserve_recordAll _ _ solver.trail _ (clearAll_of_close? closure)
    change Search.potential valuation
        (solver.trail.recordAll (forced.map Forced.literal)).frames ≤
      Search.potential solver.valuation solver.trail.frames
    rw [Search.potential, Search.potential, kept]
    omega
  · exact Nat.le_refl _

theorem potential_of_branch? {solver next : Solver} {literal : Literal}
    (outcome : solver.branch? = some (.made literal, next)) :
    next.potential < solver.potential := by
  rcases branch?_cases outcome with
    ⟨impossible, _⟩ | ⟨_, impossible, _⟩ | ⟨decided, _, candidate, _, rfl⟩
  · cases impossible
  · cases impossible
  · exact potential_push (Cnf.open_of_firstCandidate? candidate)

theorem potential_of_backtrack? {solver next : Solver} {literal : Literal}
    (outcome : solver.backtrack? = some (some literal, next)) :
    next.potential < solver.potential := by
  obtain ⟨retreat, retreat_eq, redecided_eq, rfl⟩ := backtrack?_cases outcome
  have spent := potential_of_retreat? retreat_eq redecided_eq.symm
  have positive := treeSize_pos solver.valuation.openCount
  change Search.potential retreat.valuation retreat.frames <
    Search.potential solver.valuation solver.trail.frames
  rw [spent, Search.potential]
  omega

theorem potential_of_retract? {solver next : Solver}
    (outcome : solver.retract? = some (.next next)) : next.potential < solver.potential := by
  obtain ⟨⟨flipped, after⟩, backtracked, result_eq⟩ := Option.map_eq_some_iff.mp outcome
  cases flipped with
  | none => simp at result_eq
  | some literal =>
      cases result_eq
      have lower := potential_of_backtrack? backtracked
      exact lower

/-- Without a conflict no clause is violated or unit. -/
theorem settled_of_propagate? {solver next : Solver}
    (settled : solver.propagate? = some (none, next)) :
    (∀ index, next.cnf.status? next.valuation ≠ some (.violated index)) ∧
      next.cnf.firstForced? next.valuation = some none := by
  rcases propagate?_cases settled with ⟨forced, valuation, _, closure, rfl⟩ | ⟨_, _, impossible, _⟩
  · exact settled_of_close? closure
  · cases impossible

/-- A violated clause would have been found before, so a search never goes on as it is. -/
theorem potential_of_advance? {solver next : Solver}
    (not_violated : ∀ index, solver.cnf.status? solver.valuation ≠ some (.violated index))
    (outcome : solver.advance? = some (.next next)) : next.potential < solver.potential := by
  rw [advance?] at outcome
  split at outcome
  · cases outcome
  · rename_i branched
    cases outcome
    exact potential_of_branch? branched
  · cases outcome
  · rename_i branched
    obtain ⟨status, status_eq, result_eq⟩ := Option.map_eq_some_iff.mp outcome
    rcases branch?_cases branched with ⟨_, _, rfl⟩ | ⟨_, impossible, _⟩ | ⟨_, impossible, _⟩
    · split at result_eq
      · cases result_eq
      · exact (not_violated _ status_eq).elim
      · cases result_eq
    · cases impossible
    · cases impossible

/-- An iteration after which the search goes on lowers the potential. -/
theorem potential_of_step? {solver next : Solver} {elapsed : Duration}
    (outcome : solver.step? elapsed = some (.next next)) : next.potential < solver.potential := by
  simp only [step?] at outcome
  split at outcome
  · split at outcome
    · cases outcome
    · rename_i propagated
      have kept := potential_of_propagate? propagated
      exact Nat.lt_of_lt_of_le (potential_of_retract? outcome) kept
    · rename_i propagated
      have kept := potential_of_propagate? propagated
      have not_violated := (settled_of_propagate? propagated).1
      exact Nat.lt_of_lt_of_le (potential_of_advance? not_violated outcome) kept
  · cases outcome

/-- Iterate until the search ends.  The clock tells the time spent before an iteration, given the
count of earlier ones. -/
def search? (clock : Nat → Duration) (solver : Solver) : Option (Except Fault Verdict × Solver) :=
  match _ : solver.step? (clock solver.counters.iterations.toNat) with
  | none => none
  | some (.halt verdict solver) => some (verdict, solver)
  | some (.next solver) => solver.search? clock
  termination_by solver.potential
  decreasing_by
    rename_i stepped
    exact potential_of_step? stepped

/-- Record a verdict and tell the counts. -/
def conclude (solver : Solver) (verdict : Verdict) : Solver :=
  { solver with phase := solver.phase.after verdict }.tell
    (closingEvents solver.counters verdict)

/-- Record the end of a search. -/
def finish (solver : Solver) : Except Fault Verdict → Except Fault Verdict × Solver
  | .ok verdict => (.ok verdict, solver.conclude verdict)
  | .error fault => (.error fault, solver)

/-- What can be said about a solver before any search. -/
inductive Opening where
  /-- No search is needed, or none is allowed. -/
  | done (result : Except Fault Verdict) (solver : Solver)
  /-- The clauses have to be searched. -/
  | search (solver : Solver)

/-- Begin to solve, which can be done once.  An empty clause settles the matter without a search. -/
def opening (solver : Solver) : Opening :=
  if solver.phase = .input then
    let solver := { solver with phase := .solving }
    if solver.cnf.clauses.any List.isEmpty then
      .done (.ok .unsatisfiable) (solver.conclude .unsatisfiable)
    else
      .search solver
  else
    .done (.error .alreadySolved) solver

/-- Solve the clauses; none if a literal is read or taken back that lies outside the valuation. -/
def solve? (clock : Nat → Duration) (solver : Solver) : Option (Except Fault Verdict × Solver) :=
  match solver.opening with
  | .done result solver => some (result, solver)
  | .search solver =>
      (solver.search? clock).map fun (result, solver) => solver.finish result

end Solver
end Search
end PropSat
