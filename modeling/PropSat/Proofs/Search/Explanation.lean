import PropSat.Proofs.Search.Course

/-!
# What a trail says about models

At the start of every iteration of a search, the trail accounts for every model of the clauses.
What followed from a decision holds in all models that have the literals below and the decision,
and no model has the literals below and the other side of a flipped decision.  A model that does
not have all literals of the trail hence parts from it at a decision that is still to be flipped,
so that going back does not pass over it.
-/

namespace PropSat
namespace Search

section Frames

variable {cnf : Cnf} {base : List Literal} {frames above below : List Frame} {top : Frame}

/-- The lower frames of a justified trail are justified. -/
theorem Justified.of_append (justified : Justified cnf base (above ++ below)) :
    Justified cnf base below := by
  induction above with
  | nil => exact justified
  | cons frame above induction => exact induction justified.2.2

/-- A model either has all literals of justified frames, or has those of some lower ones but not the
decision above them, which was not flipped. -/
theorem Justified.parted (justified : Justified cnf base frames) {assignment : Assignment}
    (holds : cnf.Holds assignment) :
    (∀ literal ∈ frames.flatMap Frame.literals ++ base, literal.Holds assignment) ∨
      ∃ above top below, frames = above ++ top :: below ∧
        (∀ literal ∈ below.flatMap Frame.literals ++ base, literal.Holds assignment) ∧
        ¬ top.decision.Holds assignment ∧ top.flipped = false := by
  induction frames with
  | nil => exact .inl fun literal member => justified literal member assignment holds (by simp)
  | cons top rest induction =>
      obtain ⟨followed, flipped_refuted, rest_justified⟩ := justified
      rcases induction rest_justified with rest_hold | ⟨above, lower, below, rfl, parted⟩
      · by_cases decision_holds : top.decision.Holds assignment
        · refine .inl fun literal member => ?_
          have given := List.forall_mem_cons.mpr ⟨decision_holds, rest_hold⟩
          rw [List.flatMap_cons, List.append_assoc, List.mem_append] at member
          rcases member with here | lower
          · rcases List.mem_cons.mp here with rfl | follows
            · exact decision_holds
            · exact followed literal follows assignment holds given
          · exact rest_hold literal lower
        · refine .inr ⟨[], top, rest, rfl, rest_hold, decision_holds, ?_⟩
          -- Had it been flipped, its other side would have no model with the literals below.
          rw [← Bool.not_eq_true]
          intro flipped
          exact flipped_refuted flipped assignment holds
            (List.forall_mem_cons.mpr ⟨Literal.holds_negate.mpr decision_holds, rest_hold⟩)
      · exact .inr ⟨top :: above, lower, below, rfl, parted⟩

end Frames

namespace Trail

/-- The trail with some of its lower frames only. -/
def downTo (trail : Trail) (below : List Frame) : Trail := { trail with frames := below }

/-- Whether a trail accounts for all models of clauses. -/
structure Explains (cnf : Cnf) (trail : Trail) : Prop where
  /-- What followed without a decision holds in all models. -/
  root : ∀ literal ∈ trail.root.propagations, cnf.Entails [] literal
  /-- What followed from a decision holds in all models with the literals below and the decision. -/
  followed : ∀ above top below, trail.frames = above ++ top :: below →
    ∀ literal ∈ top.propagations,
      cnf.Entails (top.decision :: (trail.downTo below).literals) literal
  /-- No model has the literals below and the other side of a flipped decision. -/
  refuted : ∀ above top below, trail.frames = above ++ top :: below → top.flipped = true →
    cnf.Refutes (top.decision.negate :: (trail.downTo below).literals)
  /-- A model without all literals of the trail has those of some lower frames but not the decision
  above them, which was not flipped. -/
  parted : ∀ assignment, cnf.Holds assignment →
    (∀ literal ∈ trail.literals, literal.Holds assignment) ∨
      ∃ above top below, trail.frames = above ++ top :: below ∧
        (∀ literal ∈ (trail.downTo below).literals, literal.Holds assignment) ∧
        ¬ top.decision.Holds assignment ∧ top.flipped = false

theorem Justified.explains {cnf : Cnf} {trail : Trail} (justified : trail.Justified cnf) :
    trail.Explains cnf where
  root := by
    have lowest : Search.Justified cnf trail.root.propagations (trail.frames ++ []) := by
      rw [List.append_nil]
      exact justified
    exact lowest.of_append
  followed above top below frames_eq := by
    rw [Justified, frames_eq] at justified
    exact justified.of_append.1
  refuted above top below frames_eq := by
    rw [Justified, frames_eq] at justified
    exact justified.of_append.2.1
  parted assignment holds := Search.Justified.parted justified holds

end Trail

namespace Solver

variable {solver start current : Solver} {clock : Nat → Duration} {passes : List (List Move)}

/-- Iterations lead from justified trails to justified trails. -/
theorem Reaches.sound (reaches : Reaches clock solver passes current) (sound : solver.Sound) :
    current.Sound ∧ current.cnf = solver.cnf := by
  induction reaches with
  | refl => exact ⟨sound, rfl⟩
  | next stepped pass rest induction =>
      obtain ⟨last_sound, same⟩ := induction (sound.of_step? stepped)
      exact ⟨last_sound, same.trans (SameProblem.of_step? stepped).cnf_eq⟩

/-- At the start of every iteration of a search through loaded clauses, the trail accounts for all
models of the clauses. -/
theorem explains_of_load {settings : Settings} {cnf : Cnf}
    (loaded : load settings cnf = .ok solver) (log : Option (Array Event))
    (opening : { solver with log }.opening = .search start)
    (reaches : Reaches clock start passes current) : current.trail.Explains cnf := by
  have sound := (sound_of_load loaded).listening log
  obtain rfl := eq_opened_of_search opening
  obtain ⟨current_sound, same⟩ := reaches.sound sound.opened
  obtain ⟨_, rfl⟩ := load_eq_ok_iff.mp loaded
  have explains := Trail.Justified.explains current_sound.justified
  rw [same] at explains
  exact explains

/-- The solver after one iteration, if the search goes on. -/
def goOn? (elapsed : Duration) (solver : Solver) : Option Solver :=
  match solver.step? elapsed with
  | some (.next next) => some next
  | _ => none

theorem goOn?_eq_some_iff {elapsed : Duration} {next : Solver} :
    solver.goOn? elapsed = some next ↔ solver.step? elapsed = some (.next next) := by
  rw [goOn?]
  split
  · rename_i stepped
    rw [stepped]
    simp
  · rename_i not_stepped
    simp only [reduceCtorEq, false_iff]
    exact not_stepped next

/-- Clauses over two atoms with one model, which has the negation of their first literal. -/
def secondTry : Cnf where
  atomCount := 2
  clauses := [[.positive 0, .positive 1], [.negative 0, .positive 1], [.negative 0, .negative 1]]

theorem explains_of_load_secondTry :
    load {} secondTry = .ok { settings := {}, cnf := secondTry, valuation := #[none, none] } ∧
      opening { settings := {}, cnf := secondTry, valuation := #[none, none] } =
        .search (opened { settings := {}, cnf := secondTry, valuation := #[none, none] }) ∧
      ∃ passes current,
        Reaches (fun _ => ⟨1⟩)
          (opened { settings := {}, cnf := secondTry, valuation := #[none, none] }) passes current ∧
        current.trail.frames = [{ flipped := true, decision := .negative 0 }] ∧
        current.trail.Explains secondTry := by
  have loaded : load {} secondTry =
      .ok { settings := {}, cnf := secondTry, valuation := #[none, none] } := by rfl
  have opening_eq : opening { settings := {}, cnf := secondTry, valuation := #[none, none] } =
      .search (opened { settings := {}, cnf := secondTry, valuation := #[none, none] }) := by rfl
  -- The first iteration decides, and the second one meets a conflict and flips the decision.
  have twice :
      ((opened { settings := {}, cnf := secondTry, valuation := #[none, none] }).goOn? ⟨1⟩ >>=
        goOn? ⟨1⟩).map (fun current => current.trail.frames) =
      some [{ flipped := true, decision := .negative 0 }] := by decide +kernel
  obtain ⟨current, reached, frames_eq⟩ := Option.map_eq_some_iff.mp twice
  obtain ⟨decided, first, second⟩ := Option.bind_eq_some_iff.mp reached
  obtain ⟨firstMoves, firstPass⟩ := pass_of_step? (goOn?_eq_some_iff.mp first)
  obtain ⟨secondMoves, secondPass⟩ := pass_of_step? (goOn?_eq_some_iff.mp second)
  have reaches : Reaches (fun _ => ⟨1⟩)
      (opened { settings := {}, cnf := secondTry, valuation := #[none, none] })
      [firstMoves, secondMoves] current :=
    .next (goOn?_eq_some_iff.mp first) firstPass
      (.next (goOn?_eq_some_iff.mp second) secondPass .refl)
  exact ⟨loaded, opening_eq, _, current, reaches, frames_eq,
    explains_of_load loaded none opening_eq reaches⟩

end Solver
end Search
end PropSat
