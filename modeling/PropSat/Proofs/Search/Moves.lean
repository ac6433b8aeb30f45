import PropSat.Search.Run

/-!
# Iterations of a solver

An iteration goes in one of the listed ways, each given by the moves it is made of, and all later
facts about iterations are read off that list.  A search keeps whatever its iterations keep, and
solving begins with one unless an empty clause or an earlier run stands against it.
-/

namespace PropSat
namespace Search

/-- The solver that an iteration leaves. -/
def Step.solver : Step → Solver
  | .next solver => solver
  | .halt _ solver => solver

namespace Solver

variable {solver next : Solver}

/-- A solver whose next iteration has begun. -/
def begun (solver : Solver) : Solver := { solver with counters := solver.counters.addIteration }

/-- A solver that has counted a conflict. -/
def conflicted (solver : Solver) : Solver :=
  { solver with counters := solver.counters.addConflict }

/-- The ways in which an iteration can go. -/
inductive Iteration (elapsed : Duration) (solver : Solver) : Step → Prop where
  /-- The time limit is exceeded. -/
  | late (exceeded : ¬ elapsed ≤ solver.settings.timeLimit.value) :
      Iteration elapsed solver (.halt (.ok .timeUp) solver.begun)
  /-- A conflict is met and a decision is flipped. -/
  | flipped {clause : Nat} {literal : Literal} {followed next : Solver}
      (conflict : solver.begun.propagate? = some (some clause, followed))
      (back : followed.conflicted.backtrack? = some (some literal, next)) :
      Iteration elapsed solver (.next next)
  /-- A conflict is met and no decision is left. -/
  | exhausted {clause : Nat} {followed final : Solver}
      (conflict : solver.begun.propagate? = some (some clause, followed))
      (back : followed.conflicted.backtrack? = some (none, final)) :
      Iteration elapsed solver (.halt (.ok .unsatisfiable) final)
  /-- There is no conflict and a decision is made. -/
  | decided {literal : Literal} {followed next : Solver}
      (settled : solver.begun.propagate? = some (none, followed))
      (branched : followed.branch? = some (.made literal, next)) :
      Iteration elapsed solver (.next next)
  /-- There is no conflict, and a decision is needed but not allowed. -/
  | limited {followed final : Solver}
      (settled : solver.begun.propagate? = some (none, followed))
      (branched : followed.branch? = some (.limited, final)) :
      Iteration elapsed solver (.halt (.ok .unknown) final)
  /-- There is no conflict and no choice, and every clause is satisfied. -/
  | satisfied {followed final : Solver}
      (settled : solver.begun.propagate? = some (none, followed))
      (branched : followed.branch? = some (.settled, final))
      (all_satisfied : final.cnf.status? final.valuation = some .satisfied) :
      Iteration elapsed solver (.halt (.ok .satisfiable) final)
  /-- There is no conflict and no choice, but some clause is violated. -/
  | repeated {followed next : Solver} {index : Nat}
      (settled : solver.begun.propagate? = some (none, followed))
      (branched : followed.branch? = some (.settled, next))
      (violated : next.cnf.status? next.valuation = some (.violated index)) :
      Iteration elapsed solver (.next next)
  /-- There is no conflict and no choice, but some clause is undecided. -/
  | broken {followed final : Solver}
      (settled : solver.begun.propagate? = some (none, followed))
      (branched : followed.branch? = some (.settled, final))
      (undecided : final.cnf.status? final.valuation = some .undecided) :
      Iteration elapsed solver (.halt (.error .brokenState) final)

theorem iteration_of_step? {elapsed : Duration} {step : Step}
    (outcome : solver.step? elapsed = some step) : Iteration elapsed solver step := by
  simp only [step?] at outcome
  split at outcome
  · split at outcome
    · cases outcome
    · rename_i clause followed conflict
      obtain ⟨⟨flipped, after⟩, back, result_eq⟩ := Option.map_eq_some_iff.mp outcome
      cases flipped with
      | none =>
          cases result_eq
          exact .exhausted conflict back
      | some literal =>
          cases result_eq
          exact .flipped conflict back
    · rename_i followed settled
      rw [advance?] at outcome
      split at outcome
      · cases outcome
      · rename_i branched
        cases outcome
        exact .decided settled branched
      · rename_i branched
        cases outcome
        exact .limited settled branched
      · rename_i branched
        obtain ⟨status, status_eq, result_eq⟩ := Option.map_eq_some_iff.mp outcome
        split at result_eq
        · cases result_eq
          exact .satisfied settled branched status_eq
        · cases result_eq
          exact .repeated settled branched status_eq
        · cases result_eq
          exact .broken settled branched status_eq
  · rename_i exceeded
    cases outcome
    exact .late exceeded

/-- Whether two solvers have the same clauses and settings and are in the same phase. -/
structure SameProblem (left right : Solver) : Prop where
  cnf_eq : left.cnf = right.cnf
  settings_eq : left.settings = right.settings
  phase_eq : left.phase = right.phase

namespace SameProblem

theorem trans {left middle right : Solver} (first : left.SameProblem middle)
    (second : middle.SameProblem right) : left.SameProblem right :=
  ⟨first.cnf_eq.trans second.cnf_eq, first.settings_eq.trans second.settings_eq,
    first.phase_eq.trans second.phase_eq⟩

theorem of_propagate? {conflict : Option Nat}
    (outcome : solver.propagate? = some (conflict, next)) : next.SameProblem solver := by
  rcases propagate?_cases outcome with ⟨_, _, _, _, rfl⟩ | ⟨_, _, _, _, rfl⟩
  · exact ⟨rfl, rfl, rfl⟩
  · exact ⟨rfl, rfl, rfl⟩

theorem of_branch? {choice : Choice} (outcome : solver.branch? = some (choice, next)) :
    next.SameProblem solver := by
  rcases branch?_cases outcome with ⟨_, _, rfl⟩ | ⟨_, _, _, _, rfl⟩ | ⟨_, _, _, _, rfl⟩
  all_goals exact ⟨rfl, rfl, rfl⟩

theorem of_backtrack? {flipped : Option Literal}
    (outcome : solver.backtrack? = some (flipped, next)) : next.SameProblem solver := by
  obtain ⟨_, _, _, rfl⟩ := backtrack?_cases outcome
  exact ⟨rfl, rfl, rfl⟩

end SameProblem

theorem SameProblem.of_step? {elapsed : Duration} {step : Step}
    (outcome : solver.step? elapsed = some step) : step.solver.SameProblem solver := by
  have same_begun : solver.begun.SameProblem solver := ⟨rfl, rfl, rfl⟩
  cases iteration_of_step? outcome with
  | late _ => exact same_begun
  | flipped conflict back | exhausted conflict back =>
      have followed_same := (SameProblem.of_propagate? conflict).trans same_begun
      have same_conflicted : SameProblem (conflicted _) solver :=
        ⟨followed_same.cnf_eq, followed_same.settings_eq, followed_same.phase_eq⟩
      exact (SameProblem.of_backtrack? back).trans same_conflicted
  | decided settled branched | limited settled branched | satisfied settled branched _
  | repeated settled branched _ | broken settled branched _ =>
      have settled_same := (SameProblem.of_propagate? settled).trans same_begun
      exact (SameProblem.of_branch? branched).trans settled_same

/-- A search that starts in an invariant comes to an iteration that ends it, provided that no
iteration from the invariant is stuck and that each one after which the search goes on restores
it. -/
theorem exists_halt_of_invariant {Invariant : Solver → Prop} {clock : Nat → Duration}
    (progress : ∀ {solver : Solver} (elapsed : Duration), Invariant solver →
      ∃ step, solver.step? elapsed = some step)
    (restores : ∀ {solver next : Solver} {elapsed : Duration}, Invariant solver →
      solver.step? elapsed = some (.next next) → Invariant next)
    (start : Invariant solver) :
    ∃ last result final, Invariant last ∧
      last.step? (clock last.counters.iterations.toNat) = some (.halt result final) ∧
      solver.search? clock = some (result, final) := by
  fun_induction search? clock solver with
  | case1 solver stuck =>
      obtain ⟨step, step_eq⟩ := progress (clock solver.counters.iterations.toNat) start
      rw [stuck] at step_eq
      cases step_eq
  | case2 solver result final halted => exact ⟨solver, result, final, start, halted, rfl⟩
  | case3 solver next stepped induction => exact induction (restores start stepped)

/-- A solver whose search is about to begin. -/
def opened (solver : Solver) : Solver := { solver with phase := .solving }

/-- The ways in which solving can begin. -/
inductive Opens (solver : Solver) : Opening → Prop where
  /-- The solver was run before. -/
  | refused (again : solver.phase ≠ .input) :
      Opens solver (.done (.error .alreadySolved) solver)
  /-- Some clause is empty. -/
  | settled (fresh : solver.phase = .input) (empty : solver.cnf.clauses.any List.isEmpty = true) :
      Opens solver (.done (.ok .unsatisfiable) (solver.opened.conclude .unsatisfiable))
  /-- A search is begun. -/
  | search (fresh : solver.phase = .input)
      (nonempty : ¬ solver.cnf.clauses.any List.isEmpty = true) :
      Opens solver (.search solver.opened)

theorem opens_opening (solver : Solver) : Opens solver solver.opening := by
  rw [opening]
  split
  · rename_i fresh
    simp only
    split
    · rename_i empty
      exact .settled fresh empty
    · rename_i nonempty
      exact .search fresh nonempty
  · rename_i again
    exact .refused again

end Solver
end Search
end PropSat
