import PropSat.Proofs.Search.Replay
import Mathlib.Data.List.Nodup

/-!
# Propagation

From any valuation that holds the atoms of the clauses, and on any trail, propagation either extends
the valuation until the clauses rest and records at the top just the literals of the atoms that it
decided, or it meets a conflict and takes back all that it decided.  In the first case no model is
lost, and in the second there was none.
-/

namespace PropSat

/-- Every valuation records the literals that it makes true. -/
theorem Valuation.exists_records (valuation : Valuation) :
    ∃ literals, valuation.Records literals := by
  refine ⟨(List.range valuation.size).filterMap fun atom =>
    valuation[atom]?.join.map (Literal.mk atom), ?_, fun literal => ?_⟩
  · rw [List.map_filterMap]
    refine List.nodup_range.filterMap fun atom other found in_atom in_other => ?_
    simp only [Option.map_map, Option.mem_def, Option.map_eq_some_iff, Function.comp_apply]
      at in_atom in_other
    obtain ⟨_, _, rfl⟩ := in_atom
    obtain ⟨_, _, rfl⟩ := in_other
    rfl
  · simp only [List.mem_filterMap, List.mem_range, Option.map_eq_some_iff, Option.join_eq_some_iff]
    constructor
    · intro at_atom
      obtain ⟨inside, _⟩ := Array.getElem?_eq_some_iff.mp at_atom
      exact ⟨literal.atom, inside, literal.polarity, at_atom, rfl⟩
    · rintro ⟨_, _, _, at_atom, rfl⟩
      exact at_atom

namespace Search

section Closure

variable {cnf : Cnf} {valuation closed : Valuation} {forced : List Forced}

/-- Following unit clauses keeps the values that there are. -/
theorem extends_of_close? (closure : close? cnf valuation = some (forced, .settled closed)) :
    closed.Extends valuation := by
  fun_induction close? cnf valuation generalizing forced with
  | case1 | case2 | case3 => simp at closure
  | case4 =>
      cases closure
      exact .refl _
  | case5 valuation _ _ _ literal clause found induction =>
      obtain ⟨⟨later, outcome⟩, later_eq, result_eq⟩ := Option.map_eq_some_iff.mp closure
      simp only [Prod.mk.injEq] at result_eq
      obtain ⟨_, rfl⟩ := result_eq
      exact (induction later_eq).trans (.assign_self (Cnf.open_of_firstForced? found))

/-- The literals that were followed are those of the atoms that were decided. -/
theorem mem_forced_iff (closure : close? cnf valuation = some (forced, .settled closed))
    {literal : Literal} :
    literal ∈ forced.map Forced.literal ↔
      valuation[literal.atom]? = some none ∧
        closed[literal.atom]? = some (some literal.polarity) := by
  obtain ⟨before, records⟩ := valuation.exists_records
  have closed_records := records_of_close? closure records
  rw [closed_records.decided_iff, List.mem_append]
  constructor
  · intro member
    refine ⟨?_, .inl member⟩
    have inside : literal.atom < valuation.size :=
      size_of_close? closure ▸ closed_records.atom_lt (List.mem_append_left before member)
    rw [Array.getElem?_eq_getElem inside]
    cases value_eq : valuation[literal.atom] with
    | none => rfl
    | some value =>
        -- A literal that was there before would give the atom a second place.
        have there : ⟨literal.atom, value⟩ ∈ before := by
          rw [← records.decided_iff, Array.getElem?_eq_getElem inside, value_eq]
        have apart := closed_records.nodup
        rw [List.map_append] at apart
        exact ((List.nodup_append.mp apart).2.2 _ (List.mem_map_of_mem member) _
          (List.mem_map_of_mem there) rfl).elim
  · rintro ⟨literal_open, member | there⟩
    · exact member
    · cases literal_open.symm.trans ((records.decided_iff literal).mpr there)

theorem nodup_forced (closure : close? cnf valuation = some (forced, .settled closed)) :
    (forced.map Forced.literal).Nodup := by
  obtain ⟨before, records⟩ := valuation.exists_records
  exact (records_of_close? closure records).distinct.of_append_left

end Closure

namespace Solver

variable {solver next : Solver}

/-- What a solver becomes when unit clauses are followed without a conflict. -/
structure Closes (solver next : Solver) : Prop extends SameProblem next solver where
  /-- Every value is kept. -/
  extended : next.valuation.Extends solver.valuation
  /-- No clause is violated or unit any more. -/
  settled : ∀ clause ∈ solver.cnf.clauses, ∃ status, clause.status? next.valuation = some status ∧
    status ≠ .violated ∧ ∀ literal, status ≠ .unit literal
  /-- What is recorded at the top besides what was there are the literals of the atoms that were
  decided. -/
  recorded (literal : Literal) :
    literal ∈ next.trail.top.propagations ↔ literal ∈ solver.trail.top.propagations ∨
      solver.valuation[literal.atom]? = some none ∧
        next.valuation[literal.atom]? = some (some literal.polarity)
  /-- The rest of the trail is as before. -/
  kept : next.trail.forget = solver.trail.forget
  /-- Every model that agrees with the values before agrees with those after. -/
  entailed (assignment : Assignment) : solver.cnf.Holds assignment →
    solver.valuation.Admits assignment → next.valuation.Admits assignment

/-- What a solver becomes when unit clauses lead to a conflict. -/
structure Refused (solver next : Solver) : Prop extends SameProblem next solver where
  /-- Every value is as before. -/
  restored : next.valuation = solver.valuation
  /-- The trail is as before. -/
  kept : next.trail = solver.trail
  /-- No model agrees with the values. -/
  refuted (assignment : Assignment) : solver.valuation.Admits assignment →
    ¬ solver.cnf.Holds assignment

theorem closes_of_propagate? (covers : solver.Covers)
    (outcome : solver.propagate? = some (none, next)) : solver.Closes next := by
  rcases propagate?_cases outcome with ⟨forced, closed, _, closure, rfl⟩ | ⟨_, _, impossible, _⟩
  · have extended := extends_of_close? closure
    refine ⟨.of_propagate? outcome, extended, ?_, ?_, solver.trail.forget_recordAll _,
      fun _ holds => admits_of_close? closure holds⟩
    · intro clause member
      have inside : ∀ literal ∈ clause, literal.atom < closed.size :=
        extended.size_eq ▸ covers clause member
      obtain ⟨status, status_eq⟩ := Clause.exists_status?_of_inside inside
      have rests := rests_of_close? closure clause member
      refine ⟨status, status_eq, ?_⟩
      rcases (Clause.rests_iff_of_status? status_eq).mp rests with rfl | ⟨choice, rfl⟩
      all_goals simp
    · intro literal
      exact Trail.mem_top_recordAll.trans (or_congr_right (mem_forced_iff closure))
  · cases impossible

theorem refused_of_propagate? {clause : Nat}
    (outcome : solver.propagate? = some (some clause, next)) : solver.Refused next := by
  rcases propagate?_cases outcome with ⟨_, _, impossible, _⟩ | ⟨_, _, _, closure, rfl⟩
  · cases impossible
  · exact ⟨.of_propagate? outcome, rfl, rfl, fun _ => not_holds_of_close? closure⟩

/-- If the valuation holds the atoms of the clauses, whatever its values and the trail are, then
propagation comes to an end.  Either it closes the solver under unit clauses, or it meets a conflict
and leaves the values and the trail as they were, with which no model agrees. -/
theorem propagate?_all_or_nothing (covers : solver.Covers) :
    ∃ conflict next, solver.propagate? = some (conflict, next) ∧
      ((conflict = none ∧ solver.Closes next) ∨
        ∃ clause, conflict = some clause ∧ solver.Refused next) := by
  obtain ⟨⟨conflict, next⟩, outcome⟩ := covers.exists_propagate?
  refine ⟨conflict, next, outcome, ?_⟩
  cases conflict with
  | none => exact .inl ⟨rfl, closes_of_propagate? covers outcome⟩
  | some clause => exact .inr ⟨clause, rfl, refused_of_propagate? outcome⟩

theorem propagate?_all_or_nothing_allSigns :
    Covers { settings := {}, cnf := allSigns, valuation := #[some true, none] } ∧
      ∃ conflict next,
        propagate? { settings := {}, cnf := allSigns, valuation := #[some true, none] } =
          some (conflict, next) ∧
        ((conflict = none ∧
            Closes { settings := {}, cnf := allSigns, valuation := #[some true, none] } next) ∨
          ∃ clause, conflict = some clause ∧
            Refused { settings := {}, cnf := allSigns, valuation := #[some true, none] } next) := by
  have covers : Covers { settings := {}, cnf := allSigns, valuation := #[some true, none] } := by
    simp [Covers, allSigns, Literal.positive, Literal.negative]
  exact ⟨covers, propagate?_all_or_nothing covers⟩

end Solver
end Search
end PropSat
