import PropSat.Proofs.Satisfaction
import PropSat.Proofs.Search.Moves

/-!
# Agreement of valuation and trail

A valuation records a list of literals if it decides exactly their atoms, each of which occurs once,
with their polarities.  The valuation of a solver records the literals on its trail, whichever of
its moves are made and in whatever order, and no move reads or undoes an atom outside it.
-/

namespace PropSat

namespace Valuation

@[simp]
theorem size_assign (valuation : Valuation) (literal : Literal) :
    (valuation.assign literal).size = valuation.size :=
  Array.size_setIfInBounds

@[simp]
theorem size_clear (valuation : Valuation) (atom : Nat) :
    (valuation.clear atom).size = valuation.size :=
  Array.size_setIfInBounds

@[simp]
theorem size_clearAll (valuation : Valuation) (literals : List Literal) :
    (valuation.clearAll literals).size = valuation.size := by
  induction literals generalizing valuation with
  | nil => rfl
  | cons literal rest induction =>
      change ((valuation.clear literal.atom).clearAll rest).size = _
      rw [induction, size_clear]

/-- Whether the decided atoms are exactly those of some literals, each atom once, and have the
values that make the literals true. -/
structure Records (valuation : Valuation) (literals : List Literal) : Prop where
  /-- No atom occurs twice. -/
  nodup : (literals.map Literal.atom).Nodup
  /-- The decided atoms and their values are read off the literals. -/
  decided_iff (literal : Literal) :
    valuation[literal.atom]? = some (some literal.polarity) ↔ literal ∈ literals

namespace Records

variable {valuation : Valuation} {literals front back : List Literal} {literal : Literal}

theorem perm (records : valuation.Records front) (rearranged : front.Perm back) :
    valuation.Records back where
  nodup := (rearranged.map Literal.atom).nodup_iff.mp records.nodup
  decided_iff literal := (records.decided_iff literal).trans rearranged.mem_iff

theorem distinct (records : valuation.Records literals) : literals.Nodup :=
  List.Pairwise.of_map Literal.atom (fun _ _ different same => different (same ▸ rfl))
    records.nodup

theorem blank (count : Nat) : (blank count).Records [] where
  nodup := List.nodup_nil
  decided_iff literal := by
    simp [Valuation.blank, Array.getElem?_replicate]

theorem atom_lt (records : valuation.Records literals) (member : literal ∈ literals) :
    literal.atom < valuation.size := by
  have at_atom := (records.decided_iff literal).mpr member
  exact (Array.getElem?_eq_some_iff.mp at_atom).1

theorem atom_notMem (records : valuation.Records literals)
    (literal_open : valuation[literal.atom]? = some none) :
    literal.atom ∉ literals.map Literal.atom := by
  intro occurs
  obtain ⟨other, member, same⟩ := List.mem_map.mp occurs
  have at_atom := (records.decided_iff other).mpr member
  rw [same, literal_open] at at_atom
  cases at_atom

theorem assign (records : valuation.Records literals)
    (literal_open : valuation[literal.atom]? = some none) :
    (valuation.assign literal).Records (literal :: literals) where
  nodup := List.nodup_cons.mpr ⟨records.atom_notMem literal_open, records.nodup⟩
  decided_iff other := by
    rw [getElem?_assign, List.mem_cons]
    split
    · rename_i same
      have other_notMem : other ∉ literals := by
        intro member
        exact records.atom_notMem literal_open (same ▸ List.mem_map_of_mem member)
      rw [← same, literal_open]
      obtain ⟨atom, polarity⟩ := literal
      obtain ⟨otherAtom, otherPolarity⟩ := other
      simp only at same
      subst same
      simp [other_notMem, eq_comm]
    · rename_i different
      have distinct : other ≠ literal := by
        rintro rfl
        exact different rfl
      rw [records.decided_iff]
      simp [distinct]

theorem clearAll (records : valuation.Records (front ++ back)) :
    (valuation.clearAll front).Records back where
  nodup := by
    have both := records.nodup
    rw [List.map_append] at both
    exact (List.nodup_append.mp both).2.1
  decided_iff literal := by
    have both := records.nodup
    rw [List.map_append] at both
    have apart := (List.nodup_append.mp both).2.2
    rw [getElem?_clearAll]
    split
    · rename_i cleared
      have notMem : literal ∉ back := by
        intro member
        exact apart _ cleared _ (List.mem_map_of_mem member) rfl
      simp [notMem]
    · rename_i kept
      have notMem : literal ∉ front := fun member => kept (List.mem_map_of_mem member)
      rw [records.decided_iff]
      simp [notMem]

theorem clear (records : valuation.Records (literal :: back)) :
    (valuation.clear literal.atom).Records back := by
  have split_off : valuation.Records ([literal] ++ back) := records
  exact split_off.clearAll

end Records
end Valuation

namespace Literal

theorem insertInto_perm {literal : Literal} {literals : List Literal}
    (absent : literal ∉ literals) :
    (literal.insertInto literals).Perm (literal :: literals) := by
  induction literals with
  | nil => exact List.Perm.refl _
  | cons first rest induction =>
      rw [List.mem_cons, not_or] at absent
      rw [insertInto]
      split
      · exact ((induction absent.2).cons first).trans (List.Perm.swap literal first rest)
      · rw [if_neg (Ne.symm absent.1)]

end Literal

namespace Search

/-- The decision of a frame and what followed from it. -/
def Frame.literals (frame : Frame) : List Literal := frame.decision :: frame.propagations

/-- All literals on a trail. -/
def Trail.literals (trail : Trail) : List Literal :=
  trail.frames.flatMap Frame.literals ++ trail.root.propagations

theorem Trail.literals_record_perm {trail : Trail} {literal : Literal}
    (absent : literal ∉ trail.literals) :
    (trail.record literal).literals.Perm (literal :: trail.literals) := by
  obtain ⟨root, frames⟩ := trail
  cases frames with
  | nil => exact Literal.insertInto_perm absent
  | cons top rest =>
      have absent_top : literal ∉ top.propagations := by
        intro member
        simp [literals, Frame.literals, member] at absent
      have inserted := Literal.insertInto_perm absent_top
      have moved := (inserted.cons top.decision).trans (List.Perm.swap literal top.decision _)
      simpa [literals, record, Frame.literals, Frame.record, Level.record] using
        moved.append_right (rest.flatMap Frame.literals ++ root.propagations)

theorem Trail.literals_recordAll_perm {trail : Trail} {literals : List Literal}
    (distinct : (literals ++ trail.literals).Nodup) :
    (trail.recordAll literals).literals.Perm (literals ++ trail.literals) := by
  induction literals generalizing trail with
  | nil => exact List.Perm.refl _
  | cons literal rest induction =>
      obtain ⟨absent, distinct_rest⟩ := List.nodup_cons.mp distinct
      have recorded : (trail.record literal).literals.Perm (literal :: trail.literals) :=
        literals_record_perm fun member => absent (List.mem_append_right rest member)
      have moved : (rest ++ (trail.record literal).literals).Perm
          (literal :: (rest ++ trail.literals)) :=
        (recorded.append_left rest).trans List.perm_middle
      exact (induction (moved.nodup_iff.mpr distinct)).trans moved

theorem Trail.recordAll_root_flipped (trail : Trail) (literals : List Literal) :
    (trail.recordAll literals).root.flipped = trail.root.flipped := by
  induction literals generalizing trail with
  | nil => rfl
  | cons literal rest induction =>
      have kept : (trail.record literal).root.flipped = trail.root.flipped := by
        rw [record]
        split <;> rfl
      exact (induction _).trans kept

theorem size_of_close? {cnf : Cnf} {valuation closed : Valuation} {forced : List Forced}
    (closure : close? cnf valuation = some (forced, .settled closed)) :
    closed.size = valuation.size := by
  rw [← clearAll_of_close? closure, Valuation.size_clearAll]

/-- The literals that are followed are recorded on top of those before. -/
theorem records_of_close? {cnf : Cnf} {valuation closed : Valuation} {forced : List Forced}
    {literals : List Literal}
    (closure : close? cnf valuation = some (forced, .settled closed))
    (records : valuation.Records literals) :
    closed.Records (forced.map Forced.literal ++ literals) := by
  fun_induction close? cnf valuation generalizing forced literals with
  | case1 | case2 | case3 => simp at closure
  | case4 =>
      simp only [Option.some.injEq, Prod.mk.injEq, Closure.settled.injEq] at closure
      obtain ⟨rfl, rfl⟩ := closure
      exact records
  | case5 valuation _ _ _ literal clause found induction =>
      obtain ⟨⟨later, outcome⟩, later_eq, result_eq⟩ := Option.map_eq_some_iff.mp closure
      simp only [Prod.mk.injEq] at result_eq
      obtain ⟨rfl, rfl⟩ := result_eq
      have assigned := records.assign (Cnf.open_of_firstForced? found)
      exact (induction later_eq assigned).perm List.perm_middle

theorem exists_close?_of_inside {cnf : Cnf} {valuation : Valuation}
    (inside : ∀ clause ∈ cnf.clauses, ∀ literal ∈ clause, literal.atom < valuation.size) :
    ∃ outcome, close? cnf valuation = some outcome := by
  fun_induction close? cnf valuation with
  | case1 valuation status_eq =>
      obtain ⟨status, exists_eq⟩ := Cnf.exists_statusFrom?_of_inside 0 inside
      rw [Cnf.status?, exists_eq] at status_eq
      cases status_eq
  | case2 => exact ⟨_, rfl⟩
  | case3 valuation _ _ _ found_eq =>
      obtain ⟨found, exists_eq⟩ :=
        Cnf.exists_firstFrom?_of_inside Clause.Status.forced? 0 inside
      rw [Cnf.firstForced?, exists_eq] at found_eq
      cases found_eq
  | case4 => exact ⟨_, rfl⟩
  | case5 valuation _ _ _ literal clause _ induction =>
      obtain ⟨outcome, outcome_eq⟩ := induction (by simpa using inside)
      exact ⟨_, by rw [outcome_eq]; rfl⟩

/-- Where unit clauses lead without a conflict, the clauses rest. -/
theorem rests_of_close? {cnf : Cnf} {valuation closed : Valuation} {forced : List Forced}
    (closure : close? cnf valuation = some (forced, .settled closed)) : cnf.Rests closed := by
  fun_induction close? cnf valuation generalizing forced with
  | case1 | case2 | case3 => simp at closure
  | case4 valuation status not_violated status_eq not_forced =>
      cases closure
      exact Cnf.rests_of_status? status_eq not_violated not_forced
  | case5 valuation _ _ _ literal clause found induction =>
      obtain ⟨⟨later, outcome⟩, later_eq, result_eq⟩ := Option.map_eq_some_iff.mp closure
      simp only [Prod.mk.injEq] at result_eq
      obtain ⟨_, rfl⟩ := result_eq
      exact induction later_eq

section Frames

variable {valuation : Valuation} {top : Frame} {below : List Literal}

/-- Giving a frame up leaves what was recorded below. -/
theorem Frame.records_undo (records : valuation.Records (top.literals ++ below)) :
    (top.undo valuation).Records below := by
  have arranged : (top.literals ++ below).Perm (top.propagations ++ top.decision :: below) :=
    List.perm_middle.symm
  exact (records.perm arranged).clearAll.clear

/-- Flipping a frame leaves its new decision on top of what was recorded below. -/
theorem Frame.records_revise (records : valuation.Records (top.literals ++ below)) :
    (top.revise valuation).Records (top.flip.literals ++ below) := by
  have undone := records_undo records
  have inside : top.decision.atom < (top.undo valuation).size := by
    have decided := records.atom_lt (List.mem_append_left below List.mem_cons_self)
    simpa [undo] using decided
  have negated_open : (top.undo valuation)[top.decision.negate.atom]? = some none := by
    rw [undo, Valuation.getElem?_clear, if_pos (Literal.negate_atom _).symm,
      Option.map_eq_some_iff]
    refine ⟨_, Array.getElem?_eq_getElem ?_, rfl⟩
    simpa [undo] using inside
  have revised : (top.undo valuation).assign top.decision.negate = top.revise valuation :=
    Array.setIfInBounds_setIfInBounds _
  rw [← revised]
  exact undone.assign negated_open

theorem Frame.within_of_records (records : valuation.Records (top.literals ++ below)) :
    top.within valuation.size = true := by
  have inside : ∀ literal ∈ top.literals, literal.atom < valuation.size :=
    fun literal member => records.atom_lt (List.mem_append_left below member)
  obtain ⟨decision_inside, rest_inside⟩ := List.forall_mem_cons.mp inside
  simp only [within, Bool.and_eq_true, decide_eq_true_eq, List.all_eq_true]
  exact ⟨decision_inside, rest_inside⟩

end Frames

/-- Going back over frames is never stuck, and the valuation left records the frames left. -/
theorem exists_retreat?_of_records {valuation : Valuation} {frames : List Frame}
    {base : List Literal} (records : valuation.Records (frames.flatMap Frame.literals ++ base)) :
    ∃ retreat, retreat? valuation frames = some retreat ∧
      retreat.valuation.size = valuation.size ∧
      retreat.valuation.Records (retreat.frames.flatMap Frame.literals ++ base) := by
  induction frames generalizing valuation with
  | nil => exact ⟨_, rfl, rfl, records⟩
  | cons top rest induction =>
      rw [List.flatMap_cons, List.append_assoc] at records
      rw [retreat?, if_pos (Frame.within_of_records records)]
      split
      · obtain ⟨retreat, retreat_eq, size_eq, left⟩ := induction (Frame.records_undo records)
        refine ⟨{ retreat with dropped := retreat.dropped + 1 }, by rw [retreat_eq]; rfl, ?_, left⟩
        simpa [Frame.undo] using size_eq
      · refine ⟨_, rfl, by simp [Frame.revise], ?_⟩
        rw [List.flatMap_cons, List.append_assoc]
        exact Frame.records_revise records

namespace Solver

/-- Whether the valuation of a solver holds every atom of its clauses. -/
def Covers (solver : Solver) : Prop :=
  ∀ clause ∈ solver.cnf.clauses, ∀ literal ∈ clause, literal.atom < solver.valuation.size

theorem Covers.exists_propagate? {solver : Solver} (covers : solver.Covers) :
    ∃ outcome, solver.propagate? = some outcome := by
  obtain ⟨⟨forced, closure⟩, closure_eq⟩ := exists_close?_of_inside covers
  exact ⟨_, by rw [propagate?, closure_eq]; rfl⟩

/-- What holds of a solver that was loaded and then made any moves in any order. -/
structure Consistent (solver : Solver) : Prop where
  /-- The atoms of the clauses are those of the valuation. -/
  in_range : solver.cnf.InRange
  /-- The valuation holds all atoms of the clauses. -/
  size_eq : solver.valuation.size = solver.cnf.atomCount
  /-- The valuation records the trail. -/
  records : solver.valuation.Records solver.trail.literals
  /-- The root is not entered by flipping. -/
  root_kept : solver.trail.root.flipped = false

theorem load_eq_ok_iff {settings : Settings} {cnf : Cnf} {solver : Solver} :
    load settings cnf = .ok solver ↔
      cnf.InRange ∧ solver = { settings, cnf, valuation := .blank cnf.atomCount } := by
  rw [load, ← Cnf.outOfRange?_eq_none_iff]
  split
  · rename_i stray
    simp [stray]
  · rename_i none_stray
    simp [none_stray, eq_comm]

theorem consistent_of_load {settings : Settings} {cnf : Cnf} {solver : Solver}
    (loaded : load settings cnf = .ok solver) : solver.Consistent := by
  obtain ⟨in_range, rfl⟩ := load_eq_ok_iff.mp loaded
  exact ⟨in_range, by simp [Valuation.blank], .blank _, rfl⟩

namespace Consistent

variable {solver next : Solver}

theorem begun (consistent : solver.Consistent) : solver.begun.Consistent :=
  ⟨consistent.in_range, consistent.size_eq, consistent.records, consistent.root_kept⟩

theorem conflicted (consistent : solver.Consistent) : solver.conflicted.Consistent :=
  ⟨consistent.in_range, consistent.size_eq, consistent.records, consistent.root_kept⟩

theorem opened (consistent : solver.Consistent) : solver.opened.Consistent :=
  ⟨consistent.in_range, consistent.size_eq, consistent.records, consistent.root_kept⟩

theorem conclude (consistent : solver.Consistent) (verdict : Verdict) :
    (solver.conclude verdict).Consistent :=
  ⟨consistent.in_range, consistent.size_eq, consistent.records, consistent.root_kept⟩

theorem listening (consistent : solver.Consistent) (log : Option (Array Event)) :
    { solver with log }.Consistent :=
  ⟨consistent.in_range, consistent.size_eq, consistent.records, consistent.root_kept⟩

theorem of_propagate? (consistent : solver.Consistent) {conflict : Option Nat}
    (outcome : solver.propagate? = some (conflict, next)) : next.Consistent := by
  rcases propagate?_cases outcome with
    ⟨forced, valuation, _, closure, rfl⟩ | ⟨forced, clause, _, _, rfl⟩
  · have closed := records_of_close? closure consistent.records
    have recorded := Trail.literals_recordAll_perm closed.distinct
    exact ⟨consistent.in_range, (size_of_close? closure).trans consistent.size_eq,
      closed.perm recorded.symm,
      (Trail.recordAll_root_flipped _ _).trans consistent.root_kept⟩
  · exact ⟨consistent.in_range, consistent.size_eq, consistent.records, consistent.root_kept⟩

theorem of_branch? (consistent : solver.Consistent) {choice : Choice}
    (outcome : solver.branch? = some (choice, next)) : next.Consistent := by
  rcases branch?_cases outcome with
    ⟨_, _, rfl⟩ | ⟨literal, _, _, _, rfl⟩ | ⟨literal, _, candidate, _, rfl⟩
  · exact consistent
  · exact consistent
  · have literal_open := Cnf.open_of_firstCandidate? candidate
    exact ⟨consistent.in_range, (Valuation.size_assign _ _).trans consistent.size_eq,
      consistent.records.assign literal_open, consistent.root_kept⟩

theorem of_backtrack? (consistent : solver.Consistent) {flipped : Option Literal}
    (outcome : solver.backtrack? = some (flipped, next)) : next.Consistent := by
  obtain ⟨retreat, retreat_eq, _, rfl⟩ := backtrack?_cases outcome
  obtain ⟨_, exists_eq, size_eq, records⟩ := exists_retreat?_of_records consistent.records
  cases retreat_eq.symm.trans exists_eq
  exact ⟨consistent.in_range, size_eq.trans consistent.size_eq, records, consistent.root_kept⟩

theorem of_step? (consistent : solver.Consistent) {elapsed : Duration} {step : Step}
    (outcome : solver.step? elapsed = some step) : step.solver.Consistent := by
  cases iteration_of_step? outcome with
  | late _ => exact consistent.begun
  | flipped conflict back | exhausted conflict back =>
      exact (consistent.begun.of_propagate? conflict).conflicted.of_backtrack? back
  | decided settled branched | limited settled branched | satisfied settled branched _
  | repeated settled branched _ | broken settled branched _ =>
      exact (consistent.begun.of_propagate? settled).of_branch? branched

theorem covers (consistent : solver.Consistent) : solver.Covers :=
  consistent.in_range.inside consistent.size_eq

theorem exists_propagate? (consistent : solver.Consistent) :
    ∃ conflict next, solver.propagate? = some (conflict, next) := by
  obtain ⟨⟨conflict, next⟩, outcome⟩ := consistent.covers.exists_propagate?
  exact ⟨conflict, next, outcome⟩

theorem exists_branch? (consistent : solver.Consistent) :
    ∃ choice next, solver.branch? = some (choice, next) := by
  obtain ⟨found, found_eq⟩ :=
    Cnf.exists_firstFrom?_of_inside Clause.Status.candidate? 0 consistent.covers
  exact ⟨_, _, by rw [branch?, Cnf.firstCandidate?, found_eq]; rfl⟩

theorem exists_backtrack? (consistent : solver.Consistent) :
    ∃ flipped next, solver.backtrack? = some (flipped, next) := by
  obtain ⟨retreat, retreat_eq, _⟩ := exists_retreat?_of_records consistent.records
  exact ⟨_, _, by rw [backtrack?, retreat_eq]; rfl⟩

/-- No iteration of a consistent solver is stuck. -/
theorem exists_step? (consistent : solver.Consistent) (elapsed : Duration) :
    ∃ step, solver.step? elapsed = some step := by
  obtain ⟨conflict, followed, propagated⟩ := consistent.begun.exists_propagate?
  have followed_consistent := consistent.begun.of_propagate? propagated
  rw [Solver.begun] at propagated
  rw [step?]
  split
  · cases conflict with
    | some clause =>
        obtain ⟨flipped, back, backtracked⟩ := followed_consistent.conflicted.exists_backtrack?
        rw [Solver.conflicted] at backtracked
        exact ⟨_, by rw [propagated]; simp only [retract?, backtracked]; rfl⟩
    | none =>
        obtain ⟨choice, branched, branch_eq⟩ := followed_consistent.exists_branch?
        have branched_consistent := followed_consistent.of_branch? branch_eq
        simp only [propagated, advance?, branch_eq]
        cases choice with
        | made literal => exact ⟨_, rfl⟩
        | limited => exact ⟨_, rfl⟩
        | settled =>
            obtain ⟨status, status_eq⟩ : ∃ status,
                branched.cnf.status? branched.valuation = some status :=
              Cnf.exists_statusFrom?_of_inside 0 branched_consistent.covers
            exact ⟨_, by simp only [status_eq]; rfl⟩
  · exact ⟨_, rfl⟩

end Consistent
end Solver
end Search
end PropSat
