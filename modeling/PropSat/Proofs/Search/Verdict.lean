import PropSat.Proofs.Search.Justification

/-!
# Verdicts

Every iteration of a search starts from a valuation that records a justified trail.  A search that
is in time therefore ends with a verdict, and the verdict is true: all clauses are satisfied by the
valuation, or they have no model, or a decision was needed at the limit.
-/

namespace PropSat
namespace Search
namespace Solver

/-- What holds of a solver at the start of every iteration of a search. -/
structure Sound (solver : Solver) : Prop extends solver.Consistent where
  /-- The trail is justified by the clauses. -/
  justified : solver.trail.Justified solver.cnf

/-- What a verdict says about a solver that has found it. -/
def Attests (solver : Solver) : Verdict → Prop
  | .satisfiable => ∀ clause ∈ solver.cnf.clauses, clause.status? solver.valuation = some .satisfied
  | .unsatisfiable => ∀ assignment, ¬ solver.cnf.Holds assignment
  | .timeUp => ∃ elapsed : Duration, ¬ elapsed ≤ solver.settings.timeLimit.value
  | .unknown =>
      (∃ clause ∈ solver.cnf.clauses, ∃ literal,
        clause.status? solver.valuation = some (.undecided literal)) ∧
        solver.settings.decisionLimit.value ≤ solver.counters.decisions.toNat

variable {solver next : Solver}

theorem sound_of_load {settings : Settings} {cnf : Cnf} (loaded : load settings cnf = .ok solver) :
    solver.Sound := by
  refine ⟨consistent_of_load loaded, ?_⟩
  obtain ⟨_, rfl⟩ := load_eq_ok_iff.mp loaded
  intro literal member
  cases member

/-- A conflict refutes the literals on the trail. -/
theorem refutes_of_propagate? (consistent : solver.Consistent) {clause : Nat}
    (conflict : solver.propagate? = some (some clause, next)) :
    next.cnf.Refutes next.trail.literals := by
  rcases propagate?_cases conflict with ⟨_, _, impossible, _, _⟩ | ⟨forced, index, _, closure, rfl⟩
  · cases impossible
  · intro assignment holds trail_holds
    exact not_holds_of_close? closure (consistent.records.admits_iff.mpr trail_holds) holds

/-- Without a conflict and a choice, every clause is satisfied. -/
theorem satisfied_of_settled {followed final : Solver}
    (settled : solver.propagate? = some (none, followed))
    (branched : followed.branch? = some (.settled, final)) {status : Cnf.Status}
    (status_eq : final.cnf.status? final.valuation = some status) : status = .satisfied := by
  obtain ⟨not_violated, none_forced⟩ := settled_of_propagate? settled
  rcases branch?_cases branched with
    ⟨_, no_candidate, rfl⟩ | ⟨_, impossible, _⟩ | ⟨_, impossible, _⟩
  · have none_found : Cnf.firstFrom? final.valuation Clause.Status.candidate? 0
        final.cnf.clauses = some none := by
      simpa [Cnf.firstCandidate?, Option.map_eq_some_iff] using no_candidate
    cases status with
    | satisfied => rfl
    | violated index => exact (not_violated index status_eq).elim
    | undecided =>
        obtain ⟨⟨clause, member, literal, choice⟩, _⟩ := Cnf.describes_of_statusFrom? status_eq
        rcases choice with unit | undecided
        · obtain ⟨_, unit_eq, picked⟩ := Cnf.pick_eq_none_of_firstFrom? none_forced clause member
          cases unit.symm.trans unit_eq
          simp [Clause.Status.forced?] at picked
        · obtain ⟨_, undecided_eq, picked⟩ :=
            Cnf.pick_eq_none_of_firstFrom? none_found clause member
          cases undecided.symm.trans undecided_eq
          simp [Clause.Status.candidate?] at picked
  · cases impossible
  · cases impossible

namespace Sound

theorem begun (sound : solver.Sound) : solver.begun.Sound :=
  ⟨sound.toConsistent.begun, sound.justified⟩

theorem conflicted (sound : solver.Sound) : solver.conflicted.Sound :=
  ⟨sound.toConsistent.conflicted, sound.justified⟩

theorem opened (sound : solver.Sound) : solver.opened.Sound :=
  ⟨sound.toConsistent.opened, sound.justified⟩

theorem conclude (sound : solver.Sound) (verdict : Verdict) : (solver.conclude verdict).Sound :=
  ⟨sound.toConsistent.conclude verdict, sound.justified⟩

theorem listening (sound : solver.Sound) (log : Option (Array Event)) :
    { solver with log }.Sound :=
  ⟨sound.toConsistent.listening log, sound.justified⟩

theorem of_propagate? (sound : solver.Sound) {conflict : Option Nat}
    (outcome : solver.propagate? = some (conflict, next)) : next.Sound := by
  refine ⟨sound.toConsistent.of_propagate? outcome, ?_⟩
  rcases propagate?_cases outcome with
    ⟨forced, valuation, _, closure, rfl⟩ | ⟨forced, clause, _, _, rfl⟩
  · apply Trail.justified_recordAll sound.justified
    intro literal member assignment holds trail_holds
    have admitted := sound.records.admits_iff.mpr trail_holds
    have closed_admits := admits_of_close? closure holds admitted
    have closed_records := records_of_close? closure sound.records
    exact closed_records.admits_iff.mp closed_admits literal (List.mem_append_left _ member)
  · exact sound.justified

theorem of_branch? (sound : solver.Sound) {choice : Choice}
    (outcome : solver.branch? = some (choice, next)) : next.Sound := by
  refine ⟨sound.toConsistent.of_branch? outcome, ?_⟩
  rcases branch?_cases outcome with
    ⟨_, _, rfl⟩ | ⟨literal, _, _, _, rfl⟩ | ⟨literal, _, _, _, rfl⟩
  · exact sound.justified
  · exact sound.justified
  · exact Trail.justified_push sound.justified literal

/-- Going back from a conflict leads to a justified trail, or to a refutation of the clauses. -/
theorem of_backtrack? (sound : solver.Sound) {flipped : Option Literal}
    (refuted : solver.cnf.Refutes solver.trail.literals)
    (outcome : solver.backtrack? = some (flipped, next)) :
    next.Sound ∧ (flipped = none → next.cnf.Refutes []) := by
  have next_consistent := sound.toConsistent.of_backtrack? outcome
  obtain ⟨retreat, retreat_eq, rfl, rfl⟩ := backtrack?_cases outcome
  obtain ⟨justified, exhausted⟩ := justified_of_retreat? sound.justified refuted retreat_eq
  exact ⟨⟨next_consistent, justified⟩, exhausted⟩

/-- An iteration leaves a justified trail, whether or not the search goes on. -/
theorem of_step? (sound : solver.Sound) {elapsed : Duration} {step : Step}
    (outcome : solver.step? elapsed = some step) : step.solver.Sound := by
  cases iteration_of_step? outcome with
  | late _ => exact sound.begun
  | flipped conflict back | exhausted conflict back =>
      have followed := (sound.begun.of_propagate? conflict).conflicted
      have refuted := refutes_of_propagate? sound.toConsistent.begun conflict
      exact (followed.of_backtrack? refuted back).1
  | decided settled branched | limited settled branched | satisfied settled branched _
  | repeated settled branched _ | broken settled branched _ =>
      exact (sound.begun.of_propagate? settled).of_branch? branched

/-- An iteration that ends a search gives a true verdict. -/
theorem attests_of_step? (sound : solver.Sound) {elapsed : Duration}
    {result : Except Fault Verdict} {final : Solver}
    (outcome : solver.step? elapsed = some (.halt result final)) :
    ∃ verdict, result = .ok verdict ∧ final.Attests verdict ∧
      (verdict = .timeUp → ¬ elapsed ≤ solver.settings.timeLimit.value) := by
  cases iteration_of_step? outcome with
  | late exceeded => exact ⟨_, rfl, ⟨elapsed, exceeded⟩, fun _ => exceeded⟩
  | exhausted conflict back =>
      have followed := (sound.begun.of_propagate? conflict).conflicted
      have refuted := refutes_of_propagate? sound.toConsistent.begun conflict
      refine ⟨_, rfl, ?_, by simp⟩
      intro assignment holds
      exact (followed.of_backtrack? refuted back).2 rfl assignment holds (by simp)
  | limited settled branched =>
      refine ⟨_, rfl, ?_, by simp⟩
      rcases branch?_cases branched with
        ⟨impossible, _⟩ | ⟨literal, _, candidate, reached, rfl⟩ | ⟨_, impossible, _⟩
      · cases impossible
      · obtain ⟨clause, member, undecided⟩ := Cnf.exists_undecided_of_firstCandidate? candidate
        exact ⟨⟨clause, member, literal, undecided⟩, reached⟩
      · cases impossible
  | satisfied settled branched all_satisfied =>
      exact ⟨_, rfl, Cnf.describes_of_statusFrom? all_satisfied, by simp⟩
  | broken settled branched undecided =>
      cases satisfied_of_settled settled branched undecided

/-- Every search ends with a true verdict, which is that time is up only if it is. -/
theorem exists_search? (sound : solver.Sound) (clock : Nat → Duration) :
    ∃ verdict final, solver.search? clock = some (.ok verdict, final) ∧ final.Attests verdict ∧
      final.Sound ∧ final.SameProblem solver ∧
      (verdict = .timeUp → ∃ count, ¬ clock count ≤ solver.settings.timeLimit.value) := by
  have restores : ∀ {current next : Solver} {elapsed : Duration},
      current.Sound ∧ current.SameProblem solver →
        current.step? elapsed = some (.next next) → next.Sound ∧ next.SameProblem solver := by
    rintro current next elapsed ⟨current_sound, current_same⟩ stepped
    exact ⟨current_sound.of_step? stepped, (SameProblem.of_step? stepped).trans current_same⟩
  obtain ⟨last, result, final, ⟨last_sound, last_same⟩, halted, search_eq⟩ :=
    exists_halt_of_invariant (fun elapsed current => current.1.exists_step? elapsed) restores
      ⟨sound, ⟨rfl, rfl, rfl⟩⟩
  obtain ⟨verdict, rfl, attested, late⟩ := last_sound.attests_of_step? halted
  refine ⟨verdict, final, search_eq, attested, last_sound.of_step? halted,
    (SameProblem.of_step? halted).trans last_same, ?_⟩
  intro time_up
  rw [← last_same.settings_eq]
  exact ⟨_, late time_up⟩

/-- Solving for the first time ends with a true verdict that is recorded when it is definite. -/
theorem exists_solve? (sound : solver.Sound) (fresh : solver.phase = .input)
    (clock : Nat → Duration) :
    ∃ verdict final, solver.solve? clock = some (.ok verdict, final) ∧ final.Attests verdict ∧
      final.Sound ∧ final.phase = Phase.after .solving verdict ∧ final.cnf = solver.cnf ∧
      final.settings = solver.settings ∧
      (verdict = .timeUp → ∃ count, ¬ clock count ≤ solver.settings.timeLimit.value) := by
  have opens := solver.opens_opening
  rw [solve?]
  generalize solver.opening = opening at opens
  cases opens with
  | refused again => exact (again fresh).elim
  | settled _ empty =>
      refine ⟨.unsatisfiable, _, rfl, ?_, sound.opened.conclude .unsatisfiable, rfl, rfl, rfl,
        by simp⟩
      -- An empty clause holds in no assignment.
      obtain ⟨clause, member, clause_empty⟩ := List.any_eq_true.mp empty
      intro assignment holds
      obtain ⟨literal, occurs, _⟩ := holds clause member
      simp [List.isEmpty_iff.mp clause_empty] at occurs
  | search _ nonempty =>
      obtain ⟨verdict, last, search_eq, attested, last_sound, same, late⟩ :=
        sound.opened.exists_search? clock
      refine ⟨verdict, last.conclude verdict, by simp only [search_eq]; rfl, ?_,
        last_sound.conclude verdict, ?_, same.cnf_eq, same.settings_eq, late⟩
      · cases verdict <;> exact attested
      · change last.phase.after verdict = _
        rw [same.phase_eq]
        rfl

end Sound

/-- Solving loaded clauses for the first time, in time, ends with a true verdict that is recorded
when it is definite. -/
theorem exists_solve?_of_load {settings : Settings} {cnf : Cnf}
    (loaded : load settings cnf = .ok solver) (log : Option (Array Event)) {clock : Nat → Duration}
    (in_time : ∀ count, clock count ≤ settings.timeLimit.value) :
    ∃ verdict final, { solver with log }.solve? clock = some (.ok verdict, final) ∧
      verdict ≠ .timeUp ∧ final.Attests verdict ∧ final.phase = Phase.after .solving verdict ∧
      final.cnf = cnf ∧ final.settings = settings ∧ final.valuation.size = cnf.atomCount := by
  have loaded_sound := (sound_of_load loaded).listening log
  obtain ⟨_, rfl⟩ := load_eq_ok_iff.mp loaded
  obtain ⟨verdict, final, solve_eq, attested, sound, phase_eq, cnf_eq, settings_eq, late⟩ :=
    loaded_sound.exists_solve? rfl clock
  refine ⟨verdict, final, solve_eq, ?_, attested, phase_eq, cnf_eq, settings_eq,
    sound.size_eq.trans (congrArg Cnf.atomCount cnf_eq)⟩
  intro time_up
  obtain ⟨count, exceeded⟩ := late time_up
  exact exceeded (in_time count)

/-- What a verdict on clauses means for their models, given the solver that it leaves. -/
def Settles (settings : Settings) (cnf : Cnf) (final : Solver) : Verdict → Prop
  | .satisfiable =>
      (∀ clause ∈ cnf.clauses, clause.status? final.valuation = some .satisfied) ∧
        (∀ model, final.valuation.CompletedBy model → cnf.holdsIn? model = some true) ∧
        ∃ model, final.model = .ok model ∧ final.valuation.CompletedBy model
  | .unsatisfiable =>
      ∀ model : Array Bool, model.size = cnf.atomCount → cnf.holdsIn? model = some false
  | .timeUp => False
  | .unknown =>
      (∃ clause ∈ cnf.clauses, ∃ literal,
        clause.status? final.valuation = some (.undecided literal)) ∧
        settings.decisionLimit.value ≤ final.counters.decisions.toNat

/-- A verdict that is true of assignments is true of models. -/
theorem settles_of_attests {final : Solver} {verdict : Verdict} (in_range : final.cnf.InRange)
    (size_eq : final.valuation.size = final.cnf.atomCount)
    (phase_eq : final.phase = Phase.after .solving verdict) (not_late : verdict ≠ .timeUp)
    (attested : final.Attests verdict) : final.Settles final.settings final.cnf verdict := by
  cases verdict with
  | timeUp => exact not_late rfl
  | unknown => exact attested
  | unsatisfiable =>
      intro model model_size
      obtain ⟨answer, answer_eq, answer_iff⟩ := Cnf.holdsIn?_eq in_range model_size
      cases answer with
      | false => exact answer_eq
      | true => exact (attested _ (answer_iff.mp rfl)).elim
  | satisfiable =>
      refine ⟨attested, ?_, final.valuation.toModel, ?_, final.valuation.completedBy_toModel⟩
      · rintro model ⟨model_size, admitted⟩
        obtain ⟨answer, answer_eq, answer_iff⟩ :=
          Cnf.holdsIn?_eq in_range (model_size.trans size_eq)
        have holds : final.cnf.Holds (.ofModel model) := fun clause member =>
          Clause.holds_of_satisfied (attested clause member) admitted
        rw [answer_eq, answer_iff.mpr holds]
      · rw [model, phase_eq]
        rfl

/-- The first time loaded clauses are solved, in time, there is a verdict and no fault.  If it is
definite then it is right about all models of the clauses, and otherwise a choice was left at the
limit of decisions.  Nowhere in a search is a clause violated or undecided once there is neither a
conflict nor a choice. -/
theorem solve?_settles_of_load {settings : Settings} {cnf : Cnf}
    (loaded : load settings cnf = .ok solver) (log : Option (Array Event)) {clock : Nat → Duration}
    (in_time : ∀ count, clock count ≤ settings.timeLimit.value) :
    (∃ verdict final, { solver with log }.solve? clock = some (.ok verdict, final) ∧
      final.Settles settings cnf verdict) ∧
    ∀ (current followed settled : Solver) (status : Cnf.Status),
      current.propagate? = some (none, followed) → followed.branch? = some (.settled, settled) →
        settled.cnf.status? settled.valuation = some status → status = .satisfied := by
  constructor
  · obtain ⟨verdict, final, solve_eq, not_late, attested, phase_eq, cnf_eq, settings_eq,
      size_eq⟩ := exists_solve?_of_load loaded log in_time
    have in_range := (load_eq_ok_iff.mp loaded).1
    subst cnf_eq settings_eq
    exact ⟨verdict, final, solve_eq,
      settles_of_attests in_range size_eq phase_eq not_late attested⟩
  · intro current followed settled status propagated branched status_eq
    exact satisfied_of_settled propagated branched status_eq

/-- All four clauses over two atoms, which have no model. -/
def allSigns : Cnf where
  atomCount := 2
  clauses :=
    [[.positive 0, .positive 1], [.negative 0, .positive 1], [.positive 0, .negative 1],
      [.negative 0, .negative 1]]

theorem solve?_settles_allSigns :
    load {} allSigns = .ok { settings := {}, cnf := allSigns, valuation := #[none, none] } ∧
      (∀ count : Nat, (fun _ => ⟨1⟩ : Nat → Duration) count ≤ ({} : Settings).timeLimit.value) ∧
      ∃ verdict final,
        solve? (fun _ => ⟨1⟩)
            { settings := {}, cnf := allSigns, valuation := #[none, none], log := some #[] } =
          some (.ok verdict, final) ∧
          final.Settles {} allSigns verdict := by
  have loaded : load {} allSigns =
      .ok { settings := {}, cnf := allSigns, valuation := #[none, none] } := by rfl
  have in_time : ∀ count : Nat,
      (fun _ => ⟨1⟩ : Nat → Duration) count ≤ ({} : Settings).timeLimit.value := by
    intro count
    change (⟨1⟩ : Duration) ≤ Duration.longest
    decide
  exact ⟨loaded, in_time, (solve?_settles_of_load loaded (some #[]) in_time).1⟩

end Solver
end Search
end PropSat
