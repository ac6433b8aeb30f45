import PropSat.Proofs.Search.Verdict

/-!
# Calls in any order

Whoever holds a solver may let it propagate, decide, go back and solve in any order, also after it
has met a conflict, reached its limit or found a verdict.  None of these calls is ever stuck, and
after all of them the valuation is the one that the trail explains: it decides the atoms of the
decisions and of what followed from them, each of which has one place on the trail.
-/

namespace PropSat
namespace Search

namespace Trail

/-- Whether a literal is a decision of the trail. -/
def Decides (trail : Trail) (literal : Literal) : Prop :=
  ∃ frame ∈ trail.frames, frame.decision = literal

/-- Whether a literal followed at some level of the trail. -/
def Propagates (trail : Trail) (literal : Literal) : Prop :=
  literal ∈ trail.root.propagations ∨ ∃ frame ∈ trail.frames, literal ∈ frame.propagations

theorem mem_literals_iff {trail : Trail} {literal : Literal} :
    literal ∈ trail.literals ↔ trail.Decides literal ∨ trail.Propagates literal := by
  simp only [literals, Decides, Propagates, Frame.literals, List.mem_append, List.mem_flatMap,
    List.mem_cons]
  grind

end Trail

namespace Solver

/-- The ways to call a solver. -/
inductive Call where
  | propagate
  | branch
  | backtrack
  | solve (clock : Nat → Duration)

/-- The solver after a call, whatever the call returns; none if a literal is read or taken back
that lies outside the valuation. -/
def call? (solver : Solver) : Call → Option Solver
  | .propagate => solver.propagate?.map Prod.snd
  | .branch => solver.branch?.map Prod.snd
  | .backtrack => solver.backtrack?.map Prod.snd
  | .solve clock => (solver.solve? clock).map Prod.snd

/-- The solver after calls in turn. -/
def callAll? (solver : Solver) : List Call → Option Solver
  | [] => some solver
  | call :: rest =>
      match solver.call? call with
      | none => none
      | some next => next.callAll? rest

/-- What every call keeps, given the calls that are still to come, holds after all of them, and none
is stuck. -/
theorem exists_callAll?_of_invariant (Invariant : Solver → List Call → Prop)
    (progress : ∀ solver call rest, Invariant solver (call :: rest) →
      ∃ next, solver.call? call = some next ∧ Invariant next rest)
    {solver : Solver} (calls : List Call) (start : Invariant solver calls) :
    ∃ final, solver.callAll? calls = some final ∧ Invariant final [] := by
  induction calls generalizing solver with
  | nil => exact ⟨solver, rfl, start⟩
  | cons call rest induction =>
      obtain ⟨next, next_eq, kept⟩ := progress solver call rest start
      obtain ⟨final, final_eq, holds⟩ := induction kept
      exact ⟨final, by rw [callAll?, next_eq]; exact final_eq, holds⟩

namespace Consistent

variable {solver : Solver}

theorem finish (consistent : solver.Consistent) (result : Except Fault Verdict) :
    (solver.finish result).2.Consistent := by
  cases result with
  | ok verdict => exact consistent.conclude verdict
  | error fault => exact consistent

/-- A search from a consistent solver ends in one, whatever its trail and its clauses. -/
theorem exists_search? (consistent : solver.Consistent) (clock : Nat → Duration) :
    ∃ result final, solver.search? clock = some (result, final) ∧ final.Consistent := by
  obtain ⟨last, result, final, last_consistent, halted, search_eq⟩ := exists_halt_of_invariant
    (fun elapsed consistent => consistent.exists_step? elapsed)
    (fun consistent stepped => consistent.of_step? stepped) consistent
  exact ⟨result, final, search_eq, last_consistent.of_step? halted⟩

theorem exists_solve? (consistent : solver.Consistent) (clock : Nat → Duration) :
    ∃ result final, solver.solve? clock = some (result, final) ∧ final.Consistent := by
  have opens := solver.opens_opening
  rw [solve?]
  generalize solver.opening = opening at opens
  cases opens with
  | refused again => exact ⟨_, _, rfl, consistent⟩
  | settled fresh empty => exact ⟨_, _, rfl, consistent.opened.conclude .unsatisfiable⟩
  | search fresh nonempty =>
      obtain ⟨result, final, search_eq, final_consistent⟩ := consistent.opened.exists_search? clock
      exact ⟨_, _, by simp only [search_eq]; rfl, final_consistent.finish result⟩

/-- No call of a consistent solver is stuck, and it leaves a consistent one. -/
theorem exists_call? (consistent : solver.Consistent) (call : Call) :
    ∃ next, solver.call? call = some next ∧ next.Consistent := by
  cases call with
  | propagate =>
      obtain ⟨conflict, next, outcome⟩ := consistent.exists_propagate?
      exact ⟨next, by rw [call?, outcome]; rfl, consistent.of_propagate? outcome⟩
  | branch =>
      obtain ⟨choice, next, outcome⟩ := consistent.exists_branch?
      exact ⟨next, by rw [call?, outcome]; rfl, consistent.of_branch? outcome⟩
  | backtrack =>
      obtain ⟨flipped, next, outcome⟩ := consistent.exists_backtrack?
      exact ⟨next, by rw [call?, outcome]; rfl, consistent.of_backtrack? outcome⟩
  | solve clock =>
      obtain ⟨result, next, outcome, next_consistent⟩ := consistent.exists_solve? clock
      exact ⟨next, by rw [call?, outcome]; rfl, next_consistent⟩

end Consistent

/-- After any calls of a loaded solver, the values of its atoms are the polarities of the literals
on its trail, decided or propagated, and no atom occurs on the trail twice.  The root, which by its
type has no decision while every frame has one, is not flipped. -/
theorem callAll?_agrees_of_load {settings : Settings} {cnf : Cnf} {solver : Solver}
    (loaded : load settings cnf = .ok solver) (log : Option (Array Event)) (calls : List Call) :
    ∃ final, { solver with log }.callAll? calls = some final ∧
      (∀ literal : Literal,
        final.valuation[literal.atom]? = some (some literal.polarity) ↔
          final.trail.Decides literal ∨ final.trail.Propagates literal) ∧
      (final.trail.literals.map Literal.atom).Nodup ∧
      final.trail.root.flipped = false := by
  obtain ⟨final, final_eq, consistent⟩ :=
    exists_callAll?_of_invariant (fun solver _ => solver.Consistent)
      (fun _ call _ consistent => Consistent.exists_call? consistent call) calls
      ((consistent_of_load loaded).listening log)
  refine ⟨final, final_eq, ?_, consistent.records.nodup, consistent.root_kept⟩
  intro literal
  rw [consistent.records.decided_iff, Trail.mem_literals_iff]

theorem callAll?_agrees_allSigns :
    load {} allSigns = .ok { settings := {}, cnf := allSigns, valuation := #[none, none] } ∧
      ∃ final,
        callAll? { settings := {}, cnf := allSigns, valuation := #[none, none], log := none }
            [.branch, .branch, .propagate, .backtrack, .solve fun _ => ⟨1⟩, .branch] =
          some final ∧
        (∀ literal : Literal,
          final.valuation[literal.atom]? = some (some literal.polarity) ↔
            final.trail.Decides literal ∨ final.trail.Propagates literal) ∧
        (final.trail.literals.map Literal.atom).Nodup ∧
        final.trail.root.flipped = false := by
  have loaded : load {} allSigns =
      .ok { settings := {}, cnf := allSigns, valuation := #[none, none] } := by rfl
  exact ⟨loaded, callAll?_agrees_of_load loaded none
    [.branch, .branch, .propagate, .backtrack, .solve fun _ => ⟨1⟩, .branch]⟩

end Solver
end Search
end PropSat
