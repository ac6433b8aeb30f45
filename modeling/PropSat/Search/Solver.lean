import PropSat.Fault
import PropSat.Search.Closure
import PropSat.Search.Event
import PropSat.Search.Trail
import PropSat.Settings

/-!
# Solvers

A solver holds clauses, a partial valuation and the trail that explains it.  Three moves change the
two together: following unit clauses, deciding on a literal, and going back to the latest decision
that can be flipped.
-/

namespace PropSat
namespace Search

/-- How far a solver has come. -/
inductive Phase where
  | input
  | solving
  | satisfiable
  | unsatisfiable
  deriving DecidableEq

/-- The phase that a verdict leads to; without a definite one it stays. -/
def Phase.after (phase : Phase) : Verdict → Phase
  | .satisfiable => .satisfiable
  | .unsatisfiable => .unsatisfiable
  | .timeUp | .unknown => phase

/-- A search in progress. -/
structure Solver where
  /-- Limits of the search. -/
  settings : Settings
  /-- The clauses to satisfy. -/
  cnf : Cnf
  /-- The values of the atoms. -/
  valuation : Valuation
  /-- The decisions made and what followed from them. -/
  trail : Trail := {}
  /-- Counts of what has happened. -/
  counters : Counters := {}
  /-- Whether the solver was run, and what it found. -/
  phase : Phase := .input
  /-- What an observer was told, in order, or none while nobody listens. -/
  log : Option (Array Event) := none

/-- What is told about a literal that a clause forces. -/
def Forced.event (forced : Forced) : Event := .move (.propagate forced.literal forced.clause)

namespace Solver

/-- A solver for clauses whose atoms are all below the atom count. -/
def load (settings : Settings) (cnf : Cnf) : Except Fault Solver :=
  match cnf.outOfRange? with
  | some clause => .error (.strayAtom clause)
  | none => .ok { settings, cnf, valuation := .blank cnf.atomCount }

/-- Start to tell events to an observer. -/
def listen (solver : Solver) : Solver := { solver with log := some (solver.log.getD #[]) }

/-- Stop telling events. -/
def mute (solver : Solver) : Solver := { solver with log := none }

/-- Tell events in order, if somebody listens. -/
def tell (solver : Solver) (events : List Event) : Solver :=
  { solver with log := solver.log.map fun told => told ++ events }

/-- What is known about the clauses. -/
def verdict (solver : Solver) : Verdict :=
  match solver.phase with
  | .input | .solving => .unknown
  | .satisfiable => .satisfiable
  | .unsatisfiable => .unsatisfiable

/-- A model of the clauses, once they are known to be satisfiable. -/
def model (solver : Solver) : Except Fault (Array Bool) :=
  match solver.phase with
  | .satisfiable => .ok solver.valuation.toModel
  | _ => .error .noModel

/-- Follow unit clauses, with the violated clause if there is a conflict.  What was followed is
recorded at the top of the trail, or taken back one by one after a conflict. -/
def propagate? (solver : Solver) : Option (Option Nat × Solver) :=
  (close? solver.cnf solver.valuation).map fun (forced, closure) =>
    let literals := forced.map Forced.literal
    let counters := solver.counters.addPropagations forced.length
    let moves := forced.map Forced.event
    match closure with
    | .settled valuation =>
        let trail := solver.trail.recordAll literals
        (none, { solver with valuation, trail, counters }.tell moves)
    | .conflict clause =>
        let valuation := (solver.valuation.assignAll literals).clearAll literals
        (some clause,
          { solver with valuation, counters }.tell
            (moves ++ [Event.move (.backtrack (some clause))]))

/-- Following unit clauses either settles on a valuation or meets a conflict, which leaves the
valuation and the trail as they were. -/
theorem propagate?_cases {solver next : Solver} {conflict : Option Nat}
    (outcome : solver.propagate? = some (conflict, next)) :
    (∃ forced valuation, conflict = none ∧
      close? solver.cnf solver.valuation = some (forced, .settled valuation) ∧
      next =
        { solver with
          valuation
          trail := solver.trail.recordAll (forced.map Forced.literal)
          counters := solver.counters.addPropagations forced.length }.tell
            (forced.map Forced.event)) ∨
    ∃ forced clause, conflict = some clause ∧
      close? solver.cnf solver.valuation = some (forced, .conflict clause) ∧
      next =
        { solver with counters := solver.counters.addPropagations forced.length }.tell
          (forced.map Forced.event ++ [Event.move (.backtrack (some clause))]) := by
  obtain ⟨⟨forced, closure⟩, closure_eq, result_eq⟩ := Option.map_eq_some_iff.mp outcome
  cases closure with
  | settled valuation =>
      simp only [Prod.mk.injEq] at result_eq
      exact .inl ⟨forced, valuation, result_eq.1.symm, closure_eq, result_eq.2.symm⟩
  | conflict clause =>
      simp only [clearAll_assignAll_of_close? closure_eq, Prod.mk.injEq] at result_eq
      exact .inr ⟨forced, clause, result_eq.1.symm, closure_eq, result_eq.2.symm⟩

/-- What comes of looking for a decision. -/
inductive Choice where
  /-- A literal was decided on. -/
  | made (literal : Literal)
  /-- No clause leaves a choice. -/
  | settled
  /-- A decision is needed but the limit is reached. -/
  | limited
  deriving DecidableEq

/-- Decide on a literal. -/
def assume (solver : Solver) (literal : Literal) : Solver :=
  { solver with
    valuation := solver.valuation.assign literal
    trail := solver.trail.push literal
    counters := solver.counters.addDecision }.tell [.move (.decide literal)]

/-- Decide on the first open literal of the first clause that leaves a choice. -/
def branch? (solver : Solver) : Option (Choice × Solver) :=
  (solver.cnf.firstCandidate? solver.valuation).map fun candidate =>
    match candidate with
    | none => (.settled, solver)
    | some literal =>
        if solver.settings.decisionLimit.value ≤ solver.counters.decisions.toNat then
          (.limited, solver)
        else (.made literal, solver.assume literal)

/-- Looking for a decision finds none to make, or is stopped by the limit, or makes one. -/
theorem branch?_cases {solver next : Solver} {choice : Choice}
    (outcome : solver.branch? = some (choice, next)) :
    (choice = .settled ∧ solver.cnf.firstCandidate? solver.valuation = some none ∧
      next = solver) ∨
    (∃ literal, choice = .limited ∧
      solver.cnf.firstCandidate? solver.valuation = some (some literal) ∧
      solver.settings.decisionLimit.value ≤ solver.counters.decisions.toNat ∧ next = solver) ∨
    ∃ literal, choice = .made literal ∧
      solver.cnf.firstCandidate? solver.valuation = some (some literal) ∧
      solver.counters.decisions.toNat < solver.settings.decisionLimit.value ∧
      next = solver.assume literal := by
  obtain ⟨candidate, candidate_eq, result_eq⟩ := Option.map_eq_some_iff.mp outcome
  cases candidate with
  | none =>
      simp only [Prod.mk.injEq] at result_eq
      exact .inl ⟨result_eq.1.symm, candidate_eq, result_eq.2.symm⟩
  | some literal =>
      simp only at result_eq
      split at result_eq
      · rename_i reached
        simp only [Prod.mk.injEq] at result_eq
        exact .inr (.inl ⟨literal, result_eq.1.symm, candidate_eq, reached, result_eq.2.symm⟩)
      · rename_i below
        simp only [Prod.mk.injEq] at result_eq
        exact .inr (.inr
          ⟨literal, result_eq.1.symm, candidate_eq, Nat.lt_of_not_le below, result_eq.2.symm⟩)

/-- Go back to the latest decision that was not flipped, and flip it, with the literal that results
or none if no decision is left. -/
def backtrack? (solver : Solver) : Option (Option Literal × Solver) :=
  (retreat? solver.valuation solver.trail.frames).map fun retreat =>
    let trail := { solver.trail with frames := retreat.frames }
    let solver := { solver with valuation := retreat.valuation, trail }
    let drops := List.replicate retreat.dropped (Event.move (.backtrack none))
    match retreat.redecided with
    | none => (none, solver.tell drops)
    | some literal =>
        (some literal,
          { solver with counters := solver.counters.addDecision }.tell
            (drops ++ [Event.move (.redecide literal)]))

/-- Going back leaves what the retreat over the frames leaves. -/
theorem backtrack?_cases {solver next : Solver} {flipped : Option Literal}
    (outcome : solver.backtrack? = some (flipped, next)) :
    ∃ retreat, retreat? solver.valuation solver.trail.frames = some retreat ∧
      flipped = retreat.redecided ∧
      next =
        { solver with
          valuation := retreat.valuation
          trail := { solver.trail with frames := retreat.frames }
          counters :=
            if retreat.redecided.isSome then solver.counters.addDecision else solver.counters }.tell
          (List.replicate retreat.dropped (Event.move (.backtrack none)) ++
            retreat.redecided.toList.map fun literal => Event.move (.redecide literal)) := by
  obtain ⟨retreat, retreat_eq, result_eq⟩ := Option.map_eq_some_iff.mp outcome
  refine ⟨retreat, retreat_eq, ?_⟩
  cases redecided_eq : retreat.redecided with
  | none =>
      simp only [redecided_eq, Prod.mk.injEq] at result_eq
      exact ⟨result_eq.1.symm, by simp [← result_eq.2]⟩
  | some literal =>
      simp only [redecided_eq, Prod.mk.injEq] at result_eq
      exact ⟨result_eq.1.symm, by simp [← result_eq.2]⟩

end Solver
end Search
end PropSat
