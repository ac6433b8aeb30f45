import PropSat.Proofs.Search.Balance

/-!
# The course of a search

A search goes forward as long as it follows unit clauses and decides.  A conflict turns it back:
then it gives up flipped decisions, until it flips one and goes forward again.  Every iteration
begins going forward, and so does the next one, so the moves of a search keep to this order as a
whole.
-/

namespace PropSat
namespace Search

/-- The way in which a search goes. -/
inductive Course where
  /-- It follows unit clauses and decides. -/
  | forward
  /-- It looks for a decision to flip. -/
  | back
  deriving DecidableEq

/-- The moves that can be made on a course, with the course after them. -/
inductive Course.Turns : Course → Move → Course → Prop where
  | propagate {literal : Literal} {clause : Nat} :
      Turns .forward (.propagate literal clause) .forward
  | decide {literal : Literal} : Turns .forward (.decide literal) .forward
  | conflict {clause : Nat} : Turns .forward (.backtrack (some clause)) .back
  | drop : Turns .back (.backtrack none) .back
  | redecide {literal : Literal} : Turns .back (.redecide literal) .forward

/-- Moves made in turn, each one on the course that the moves before it lead to. -/
inductive Orderly : Course → List Move → Course → Prop where
  | nil {course : Course} : Orderly course [] course
  | cons {first middle last : Course} {move : Move} {moves : List Move}
      (turns : first.Turns move middle) (rest : Orderly middle moves last) :
      Orderly first (move :: moves) last

namespace Orderly

variable {first middle last : Course} {front back : List Move}

theorem append (start : Orderly first front middle) (rest : Orderly middle back last) :
    Orderly first (front ++ back) last := by
  induction start with
  | nil => exact rest
  | cons turns _ induction => exact .cons turns (induction rest)

theorem exists_of_append (orderly : Orderly first (front ++ back) last) :
    ∃ middle, Orderly first front middle ∧ Orderly middle back last := by
  induction front generalizing first with
  | nil => exact ⟨first, .nil, orderly⟩
  | cons move front induction =>
      cases orderly with
      | cons turns rest =>
          obtain ⟨middle, start, rest⟩ := induction rest
          exact ⟨middle, .cons turns start, rest⟩

theorem forced (forced : List Forced) :
    Orderly .forward (forced.map Forced.move) .forward := by
  induction forced with
  | nil => exact .nil
  | cons entry rest induction => exact .cons .propagate induction

/-- Going back ends with a flip, if there is a decision to flip. -/
theorem retreat (retreat : Retreat) :
    Orderly .back retreat.moves (if retreat.redecided.isSome then .forward else .back) := by
  have dropped : Orderly .back (.replicate retreat.dropped (.backtrack none)) .back := by
    induction retreat.dropped with
    | zero => exact .nil
    | succ count induction => exact .cons .drop induction
  refine dropped.append ?_
  cases retreat.redecided with
  | none => exact .nil
  | some literal => exact .cons .redecide .nil

end Orderly

theorem Replay.exists_of_append {cnf : Cnf} {first last : Standing} {front back : List Move}
    (replay : Replay cnf first (front ++ back) last) :
    ∃ middle, Replay cnf first front middle ∧ Replay cnf middle back last := by
  induction front generalizing first with
  | nil => exact ⟨first, .nil, replay⟩
  | cons move front induction =>
      cases replay with
      | cons justified rest =>
          obtain ⟨middle, start, rest⟩ := induction rest
          exact ⟨middle, .cons justified start, rest⟩

namespace Solver

variable {solver current final : Solver} {clock : Nat → Duration} {passes : List (List Move)}

/-- An iteration begins going forward, and ends so if the search goes on. -/
theorem Pass.orderly {elapsed : Duration} {moves : List Move} {step : Step}
    (pass : Pass elapsed solver moves step) :
    ∃ last, Orderly .forward moves last ∧ ∀ next, step = .next next → last = .forward := by
  cases pass with
  | late exceeded => exact ⟨.forward, .nil, fun _ _ => rfl⟩
  | @flipped forced clause retreat literal conflict back redecided =>
      have returned := Orderly.retreat retreat
      rw [redecided] at returned
      exact ⟨.forward, ((Orderly.forced forced).append (.cons .conflict .nil)).append returned,
        fun _ _ => rfl⟩
  | @exhausted forced clause retreat conflict back redecided =>
      have returned := Orderly.retreat retreat
      rw [redecided] at returned
      exact ⟨.back, ((Orderly.forced forced).append (.cons .conflict .nil)).append returned,
        by simp⟩
  | @decided forced closed literal settled candidate below =>
      exact ⟨.forward, (Orderly.forced forced).append (.cons .decide .nil), fun _ _ => rfl⟩
  | limited settled candidate reached => exact ⟨.forward, .forced _, fun _ _ => rfl⟩
  | satisfied settled all_satisfied => exact ⟨.forward, .forced _, fun _ _ => rfl⟩

/-- The solver after some iterations that do not end the search, with their moves. -/
inductive Reaches (clock : Nat → Duration) : Solver → List (List Move) → Solver → Prop where
  | refl {solver : Solver} : Reaches clock solver [] solver
  | next {solver next last : Solver} {moves : List Move} {passes : List (List Move)}
      (stepped : solver.step? (clock solver.counters.iterations.toNat) = some (.next next))
      (pass : Pass (clock solver.counters.iterations.toNat) solver moves (.next next))
      (rest : Reaches clock next passes last) :
      Reaches clock solver (moves :: passes) last

/-- Every iteration of a run begins with a solver that the earlier ones lead to, and the search goes
on after it unless it is the last one. -/
theorem Run.exists_reaches {before after : List (List Move)} {moves : List Move}
    {result : Except Fault Verdict}
    (run : Run clock solver (before ++ moves :: after) result final) :
    ∃ current step, Reaches clock solver before current ∧
      current.step? (clock current.counters.iterations.toNat) = some step ∧
      Pass (clock current.counters.iterations.toNat) current moves step ∧
      (after ≠ [] → ∃ next, step = .next next) := by
  induction before generalizing solver with
  | nil =>
      cases run with
      | halt stepped pass => exact ⟨solver, _, .refl, stepped, pass, by simp⟩
      | next stepped pass rest => exact ⟨solver, _, .refl, stepped, pass, fun _ => ⟨_, rfl⟩⟩
  | cons first before induction =>
      generalize passes_eq : first :: before ++ moves :: after = passes at run
      cases run with
      | halt stepped pass => simp at passes_eq
      | next stepped pass rest =>
          cases passes_eq
          obtain ⟨current, step, reaches, outcome⟩ := induction rest
          exact ⟨current, step, .next stepped pass reaches, outcome⟩

theorem Reaches.orderly (reaches : Reaches clock solver passes current) :
    Orderly .forward passes.flatten .forward := by
  induction reaches with
  | refl => exact .nil
  | next stepped pass rest induction =>
      obtain ⟨last, orderly, last_eq⟩ := pass.orderly
      obtain rfl := last_eq _ rfl
      exact orderly.append induction

/-- A solver that iterations lead to is where the replay of their moves leads. -/
theorem Reaches.replay (reaches : Reaches clock solver passes current)
    (consistent : solver.Consistent) (bare : solver.trail.top.propagations = []) :
    Replay solver.cnf solver.standing passes.flatten current.standing ∧ current.Consistent ∧
      current.trail.top.propagations = [] ∧ current.cnf = solver.cnf := by
  induction reaches with
  | refl => exact ⟨.nil, consistent, bare, rfl⟩
  | @next solver next last moves passes stepped pass rest induction =>
      obtain ⟨replay, bare_after⟩ := pass.replay consistent bare
      have same : next.cnf = solver.cnf := (SameProblem.of_step? stepped).cnf_eq
      obtain ⟨later, last_consistent, last_bare, last_same⟩ :=
        induction (consistent.of_step? stepped) (bare_after next rfl)
      rw [same] at later last_same
      exact ⟨replay.append later, last_consistent, last_bare, last_same⟩

end Solver
end Search
end PropSat
