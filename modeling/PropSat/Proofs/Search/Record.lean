import PropSat.Proofs.Search.Calls

/-!
# Recorded verdicts

Solving finds a true verdict after calls in any order, and a recorded verdict stays true through
further calls, as long as the solver only goes back from conflicts.  Going back without a conflict
flips a decision that nothing speaks against, so it may leave a model or make clauses that have one
look unsatisfiable.
-/

namespace PropSat
namespace Search
namespace Solver

/-- A sound solver for some clauses, of which the recorded verdict is true. -/
structure Truthful (cnf : Cnf) (solver : Solver) : Prop extends solver.Sound where
  /-- The solver is one for the clauses. -/
  cnf_eq : solver.cnf = cnf
  /-- Once they are called satisfiable, the valuation satisfies all of them. -/
  satisfied : solver.phase = .satisfiable → solver.Attests .satisfiable
  /-- Once they are called unsatisfiable, they have no model. -/
  refuted : solver.phase = .unsatisfiable → solver.Attests .unsatisfiable

/-- Whether a call is one that a search might make: going back is asked for only after a
conflict. -/
def Call.Warranted (solver : Solver) : Call → Prop
  | .backtrack => ∃ clause next, solver.propagate? = some (some clause, next)
  | .propagate | .branch | .solve _ => True

/-- Whether each of some calls is warranted when its turn comes. -/
def AllWarranted (solver : Solver) : List Call → Prop
  | [] => True
  | call :: rest =>
      call.Warranted solver ∧ ∀ next, solver.call? call = some next → next.AllWarranted rest

section Satisfied

variable {solver next : Solver} (satisfied : solver.Attests .satisfiable)
include satisfied

/-- Nothing follows from satisfied clauses. -/
theorem close?_of_satisfied :
    close? solver.cnf solver.valuation = some ([], .settled solver.valuation) := by
  have status_eq : solver.cnf.status? solver.valuation = some .satisfied :=
    Cnf.statusFrom?_of_satisfied satisfied 0
  have forced_eq : solver.cnf.firstForced? solver.valuation = some none :=
    Cnf.firstFrom?_of_satisfied satisfied rfl 0
  unfold close?
  split
  · rename_i stuck
    cases stuck.symm.trans status_eq
  · rename_i violated
    cases violated.symm.trans status_eq
  · split
    · rename_i stuck
      cases stuck.symm.trans forced_eq
    · rfl
    · rename_i found
      cases found.symm.trans forced_eq

theorem propagate?_of_satisfied {conflict : Option Nat}
    (outcome : solver.propagate? = some (conflict, next)) :
    conflict = none ∧ next.valuation = solver.valuation := by
  have closed := close?_of_satisfied satisfied
  rcases propagate?_cases outcome with
    ⟨forced, valuation, rfl, closure, rfl⟩ | ⟨forced, clause, _, closure, _⟩
  · cases closure.symm.trans closed
    exact ⟨rfl, rfl⟩
  · cases closure.symm.trans closed

/-- No decision is made on satisfied clauses. -/
theorem branch?_of_satisfied {choice : Choice} (outcome : solver.branch? = some (choice, next)) :
    next = solver := by
  have none_found : solver.cnf.firstCandidate? solver.valuation = some none := by
    rw [Cnf.firstCandidate?, Cnf.firstFrom?_of_satisfied satisfied rfl]
    rfl
  rcases branch?_cases outcome with ⟨_, _, rfl⟩ | ⟨_, _, _, _, rfl⟩ | ⟨_, _, candidate, _, _⟩
  · rfl
  · rfl
  · cases candidate.symm.trans none_found

end Satisfied

namespace Truthful

variable {cnf : Cnf} {solver next : Solver}

/-- A move that keeps a solver sound keeps its record, provided that it does not change a valuation
which satisfies every clause. -/
theorem of_move (truthful : solver.Truthful cnf) (sound : next.Sound)
    (same : next.SameProblem solver)
    (kept : solver.Attests .satisfiable → next.valuation = solver.valuation) :
    next.Truthful cnf where
  toSound := sound
  cnf_eq := same.cnf_eq.trans truthful.cnf_eq
  satisfied := by
    intro recorded
    have satisfied := truthful.satisfied (same.phase_eq.symm.trans recorded)
    rw [Attests, same.cnf_eq, kept satisfied]
    exact satisfied
  refuted := by
    intro recorded
    rw [Attests, same.cnf_eq]
    exact truthful.refuted (same.phase_eq.symm.trans recorded)

theorem of_propagate? (truthful : solver.Truthful cnf) {conflict : Option Nat}
    (outcome : solver.propagate? = some (conflict, next)) : next.Truthful cnf :=
  truthful.of_move (truthful.toSound.of_propagate? outcome) (.of_propagate? outcome)
    fun satisfied => (propagate?_of_satisfied satisfied outcome).2

theorem of_branch? (truthful : solver.Truthful cnf) {choice : Choice}
    (outcome : solver.branch? = some (choice, next)) : next.Truthful cnf :=
  truthful.of_move (truthful.toSound.of_branch? outcome) (.of_branch? outcome)
    fun satisfied => by rw [branch?_of_satisfied satisfied outcome]

/-- Going back from a conflict leaves no model behind, as satisfied clauses meet none. -/
theorem of_backtrack? (truthful : solver.Truthful cnf) {clause : Nat} {followed : Solver}
    (conflict : solver.propagate? = some (some clause, followed)) {flipped : Option Literal}
    (outcome : solver.backtrack? = some (flipped, next)) : next.Truthful cnf := by
  have refuted : solver.cnf.Refutes solver.trail.literals := by
    have followed_refuted := refutes_of_propagate? truthful.toConsistent conflict
    rcases propagate?_cases conflict with ⟨_, _, impossible, _, _⟩ | ⟨_, _, _, _, rfl⟩
    · cases impossible
    · exact followed_refuted
  refine truthful.of_move (truthful.toSound.of_backtrack? refuted outcome).1
    (.of_backtrack? outcome) ?_
  intro satisfied
  cases (propagate?_of_satisfied satisfied conflict).1

/-- Solving records a true verdict, or is refused and changes nothing. -/
theorem of_solve? (truthful : solver.Truthful cnf) {clock : Nat → Duration}
    {result : Except Fault Verdict} (outcome : solver.solve? clock = some (result, next)) :
    next.Truthful cnf := by
  by_cases fresh : solver.phase = .input
  · obtain ⟨verdict, final, solve_eq, attested, sound, phase_eq, cnf_eq, _⟩ :=
      truthful.toSound.exists_solve? fresh clock
    cases outcome.symm.trans solve_eq
    refine ⟨sound, cnf_eq.trans truthful.cnf_eq, ?_, ?_⟩
    · intro recorded
      rw [phase_eq] at recorded
      cases verdict with
      | satisfiable => exact attested
      | unsatisfiable | timeUp | unknown => cases recorded
    · intro recorded
      rw [phase_eq] at recorded
      cases verdict with
      | unsatisfiable => exact attested
      | satisfiable | timeUp | unknown => cases recorded
  · rw [solve?, opening, if_neg fresh] at outcome
    cases outcome
    exact truthful

/-- A warranted call of a truthful solver is not stuck and leaves a truthful one. -/
theorem exists_call? (truthful : solver.Truthful cnf) {call : Call}
    (warranted : call.Warranted solver) :
    ∃ next, solver.call? call = some next ∧ next.Truthful cnf := by
  obtain ⟨next, called, _⟩ := truthful.toConsistent.exists_call? call
  refine ⟨next, called, ?_⟩
  cases call with
  | propagate =>
      obtain ⟨⟨conflict, after⟩, outcome, rfl⟩ := Option.map_eq_some_iff.mp called
      exact truthful.of_propagate? outcome
  | branch =>
      obtain ⟨⟨choice, after⟩, outcome, rfl⟩ := Option.map_eq_some_iff.mp called
      exact truthful.of_branch? outcome
  | backtrack =>
      obtain ⟨⟨flipped, after⟩, outcome, rfl⟩ := Option.map_eq_some_iff.mp called
      obtain ⟨clause, followed, conflict⟩ := warranted
      exact truthful.of_backtrack? conflict outcome
  | solve clock =>
      obtain ⟨⟨result, after⟩, outcome, rfl⟩ := Option.map_eq_some_iff.mp called
      exact truthful.of_solve? outcome

/-- Warranted calls of a truthful solver are not stuck and leave a truthful one. -/
theorem exists_callAll? (truthful : solver.Truthful cnf) {calls : List Call}
    (warranted : solver.AllWarranted calls) :
    ∃ final, solver.callAll? calls = some final ∧ final.Truthful cnf := by
  have progress : ∀ (current : Solver) (call : Call) (rest : List Call),
      current.Truthful cnf ∧ current.AllWarranted (call :: rest) →
        ∃ next, current.call? call = some next ∧ next.Truthful cnf ∧ next.AllWarranted rest := by
    rintro current call rest ⟨current_truthful, call_warranted, rest_warranted⟩
    obtain ⟨next, called, next_truthful⟩ := current_truthful.exists_call? call_warranted
    exact ⟨next, called, next_truthful, rest_warranted next called⟩
  obtain ⟨final, final_eq, final_truthful, _⟩ :=
    exists_callAll?_of_invariant
      (fun current calls => current.Truthful cnf ∧ current.AllWarranted calls) progress calls
      ⟨truthful, warranted⟩
  exact ⟨final, final_eq, final_truthful⟩

end Truthful

/-- Of loaded clauses, a recorded verdict is true after any calls of which those to go back are made
at conflicts: the valuation satisfies every clause and gives a model, or there is no model. -/
theorem callAll?_truthful_of_load {settings : Settings} {cnf : Cnf} {solver : Solver}
    (loaded : load settings cnf = .ok solver) (log : Option (Array Event)) {calls : List Call}
    (warranted : { solver with log }.AllWarranted calls) :
    ∃ final, { solver with log }.callAll? calls = some final ∧
      (final.phase = .satisfiable → final.Settles settings cnf .satisfiable) ∧
      (final.phase = .unsatisfiable → final.Settles settings cnf .unsatisfiable) := by
  have sound := (sound_of_load loaded).listening log
  obtain ⟨_, rfl⟩ := load_eq_ok_iff.mp loaded
  have truthful : Truthful cnf { settings, cnf, valuation := .blank cnf.atomCount, log } :=
    ⟨sound, rfl, nofun, nofun⟩
  obtain ⟨final, final_eq, final_truthful⟩ := truthful.exists_callAll? warranted
  obtain ⟨final_sound, rfl, satisfied, refuted⟩ := final_truthful
  refine ⟨final, final_eq, ?_, ?_⟩
  · intro recorded
    have settled : final.Settles final.settings final.cnf .satisfiable :=
      settles_of_attests final_sound.in_range final_sound.size_eq recorded (by simp)
        (satisfied recorded)
    exact settled
  · intro recorded
    have settled : final.Settles final.settings final.cnf .unsatisfiable :=
      settles_of_attests final_sound.in_range final_sound.size_eq recorded (by simp)
        (refuted recorded)
    exact settled

theorem callAll?_truthful_allSigns :
    load {} allSigns = .ok { settings := {}, cnf := allSigns, valuation := #[none, none] } ∧
      AllWarranted { settings := {}, cnf := allSigns, valuation := #[none, none], log := none }
        [.branch, .propagate, .backtrack, .solve fun _ => ⟨1⟩, .propagate] ∧
      ∃ final,
        callAll? { settings := {}, cnf := allSigns, valuation := #[none, none], log := none }
            [.branch, .propagate, .backtrack, .solve fun _ => ⟨1⟩, .propagate] = some final ∧
          (final.phase = .satisfiable → final.Settles {} allSigns .satisfiable) ∧
          (final.phase = .unsatisfiable → final.Settles {} allSigns .unsatisfiable) := by
  have loaded : load {} allSigns =
      .ok { settings := {}, cnf := allSigns, valuation := #[none, none] } := by rfl
  have warranted : AllWarranted
      { settings := {}, cnf := allSigns, valuation := #[none, none], log := none }
      [.branch, .propagate, .backtrack, .solve fun _ => ⟨1⟩, .propagate] := by
    -- After the decision on the first atom, the second one would have to be true and false.
    have conflict : ((callAll?
        { settings := {}, cnf := allSigns, valuation := #[none, none], log := none }
        [.branch, .propagate]).bind propagate?).map Prod.fst = some (some 3) := by
      decide +kernel
    refine ⟨trivial, fun first branched => ⟨trivial, fun second propagated => ⟨?_, ?_⟩⟩⟩
    · have second_eq : callAll?
          { settings := {}, cnf := allSigns, valuation := #[none, none], log := none }
          [.branch, .propagate] = some second := by
        simp only [callAll?, branched, propagated]
      rw [second_eq, Option.bind_some] at conflict
      obtain ⟨⟨_, next⟩, outcome, rfl⟩ := Option.map_eq_some_iff.mp conflict
      exact ⟨3, next, outcome⟩
    · exact fun _ _ => ⟨trivial, fun _ _ => ⟨trivial, fun _ _ => trivial⟩⟩
  exact ⟨loaded, warranted, callAll?_truthful_of_load loaded none warranted⟩

/-- Two clauses that hold exactly if the first of two atoms is true. -/
def firstTrue : Cnf where
  atomCount := 2
  clauses := [[.positive 0, .positive 1], [.positive 0, .negative 1]]

/-- Going back without a conflict flips the decision of a model, which is still called one, and
makes clauses that have a model look unsatisfiable. -/
theorem callAll?_untruthful_firstTrue :
    load {} firstTrue = .ok { settings := {}, cnf := firstTrue, valuation := #[none, none] } ∧
      (∃ final,
        callAll? { settings := {}, cnf := firstTrue, valuation := #[none, none] }
            [.solve fun _ => ⟨1⟩, .backtrack] = some final ∧
          final.phase = .satisfiable ∧ final.model = .ok #[false, true] ∧
          firstTrue.holdsIn? #[false, true] = some false) ∧
      ∃ final,
        callAll? { settings := {}, cnf := firstTrue, valuation := #[none, none] }
            [.branch, .backtrack, .solve fun _ => ⟨1⟩] = some final ∧
          final.phase = .unsatisfiable ∧ firstTrue.holdsIn? #[true, true] = some true := by
  have flipped : (callAll? { settings := {}, cnf := firstTrue, valuation := #[none, none] }
      [.solve fun _ => ⟨1⟩, .backtrack]).map (fun final => (final.phase, final.valuation)) =
        some (.satisfiable, #[some false, none]) := by
    decide +kernel
  have refused : (callAll? { settings := {}, cnf := firstTrue, valuation := #[none, none] }
      [.branch, .backtrack, .solve fun _ => ⟨1⟩]).map (fun final => final.phase) =
        some .unsatisfiable := by
    decide +kernel
  obtain ⟨first, first_eq, first_state⟩ := Option.map_eq_some_iff.mp flipped
  obtain ⟨second, second_eq, second_phase⟩ := Option.map_eq_some_iff.mp refused
  obtain ⟨first_phase, first_valuation⟩ := Prod.mk.inj first_state
  refine ⟨rfl, ⟨first, first_eq, first_phase, ?_, by decide +kernel⟩, second, second_eq,
    second_phase, by decide +kernel⟩
  rw [model, first_phase, first_valuation]
  simp [Valuation.toModel]

end Solver
end Search
end PropSat
