import PropSat.Proofs.Search.Calls

/-!
# Backtracking

After any calls, going back gives up just the frames above the latest decision that was not flipped,
and the values that these frames and what followed from the decision stand for.  As no atom has two
places on the trail, no value is left behind and none of the frames below loses one.
-/

namespace PropSat

/-- Of the literals that a valuation records, those of some atoms are the ones with these atoms that
it makes true. -/
theorem Valuation.Records.mem_iff_of_subset {valuation : Valuation}
    {literals kept : List Literal} (records : valuation.Records literals)
    (subset : kept ⊆ literals) (literal : Literal) :
    literal ∈ kept ↔ literal.atom ∈ kept.map Literal.atom ∧
      valuation[literal.atom]? = some (some literal.polarity) := by
  constructor
  · intro member
    exact ⟨List.mem_map_of_mem member, (records.decided_iff literal).mpr (subset member)⟩
  · rintro ⟨occurs, at_atom⟩
    obtain ⟨other, member, same⟩ := List.mem_map.mp occurs
    have at_other := (records.decided_iff other).mpr (subset member)
    obtain ⟨atom, polarity⟩ := literal
    obtain ⟨otherAtom, otherPolarity⟩ := other
    simp only at same at_atom at_other
    subst same
    cases at_atom.symm.trans at_other
    exact member

namespace Search

/-- Where the latest decision that was not flipped is on some frames: the frames above it, its
negation and the frames below it.  If there is none, all frames count as above it. -/
inductive LatestChoice : List Frame → List Frame → Option Literal → List Frame → Prop
  | found {above below : List Frame} {top : Frame} (tried : ∀ frame ∈ above, frame.flipped = true)
      (open_choice : top.flipped = false) :
      LatestChoice (above ++ top :: below) above (some top.decision.negate) below
  | missing {frames : List Frame} (tried : ∀ frame ∈ frames, frame.flipped = true) :
      LatestChoice frames frames none []

namespace LatestChoice

variable {frames above below : List Frame} {flipped : Option Literal}

theorem cons (choice : LatestChoice frames above flipped below) {top : Frame}
    (tried_top : top.flipped = true) :
    LatestChoice (top :: frames) (top :: above) flipped below := by
  cases choice with
  | found tried open_choice =>
      exact .found (List.forall_mem_cons.mpr ⟨tried_top, tried⟩) open_choice
  | missing tried => exact .missing (List.forall_mem_cons.mpr ⟨tried_top, tried⟩)

theorem below_subset (choice : LatestChoice frames above flipped below) : below ⊆ frames := by
  cases choice with
  | found => exact List.subset_append_of_subset_right _ (List.subset_cons_self _ _)
  | missing => exact List.nil_subset _

end LatestChoice

/-- The frame that a flipped decision leaves. -/
def Frame.ofFlipped (decision : Literal) : Frame :=
  { flipped := true, propagations := [], decision }

theorem flatMap_ofFlipped (flipped : Option Literal) (below : List Frame) :
    (flipped.toList.map Frame.ofFlipped ++ below).flatMap Frame.literals =
      flipped.toList ++ below.flatMap Frame.literals := by
  cases flipped <;> rfl

theorem Trail.literals_subset (trail : Trail) {below : List Frame}
    (subset : below ⊆ trail.frames) :
    ({ trail with frames := below } : Trail).literals ⊆ trail.literals := by
  intro literal member
  simp only [literals, List.mem_append, List.mem_flatMap] at member ⊢
  rcases member with ⟨frame, kept, occurs⟩ | at_root
  · exact .inl ⟨frame, subset kept, occurs⟩
  · exact .inr at_root

/-- Going back gives up the frames above the latest decision that was not flipped, and keeps those
below it. -/
theorem latestChoice_of_retreat? {valuation : Valuation} {frames : List Frame} {retreat : Retreat}
    (outcome : retreat? valuation frames = some retreat) :
    ∃ above below, LatestChoice frames above retreat.redecided below ∧
      retreat.dropped = above.length ∧
      retreat.frames = retreat.redecided.toList.map Frame.ofFlipped ++ below := by
  induction frames generalizing valuation retreat with
  | nil =>
      cases outcome
      exact ⟨[], [], .missing (by simp), rfl, rfl⟩
  | cons top rest induction =>
      rw [retreat?] at outcome
      split at outcome
      · split at outcome
        · rename_i tried
          obtain ⟨later, later_eq, rfl⟩ := Option.map_eq_some_iff.mp outcome
          obtain ⟨above, below, choice, dropped_eq, frames_eq⟩ := induction later_eq
          exact ⟨top :: above, below, choice.cons tried, congrArg (· + 1) dropped_eq, frames_eq⟩
        · rename_i untried
          cases outcome
          have none_above : ∀ frame ∈ ([] : List Frame), frame.flipped = true := by simp
          exact ⟨[], rest, .found none_above (Bool.eq_false_iff.mpr untried), rfl, rfl⟩
      · cases outcome

example :
    (retreat? #[some true, some false] [.ofFlipped (.negative 1), .ofDecision (.positive 0)]).map
      (fun retreat => (retreat.dropped, retreat.frames, retreat.valuation)) =
        some (1, [.ofFlipped (.negative 0)], #[some false, none]) := by
  decide

namespace Solver

variable {solver next : Solver}

/-- What a solver becomes when it goes back over the frames above a decision and flips it, or over
all frames if there is no decision to flip. -/
structure GoesBack (solver next : Solver) (above : List Frame) (flipped : Option Literal)
    (below : List Frame) : Prop extends SameProblem next solver where
  /-- The frame of the flipped decision is on top of those below, and the root is as before. -/
  trail_eq : next.trail =
    { solver.trail with frames := flipped.toList.map Frame.ofFlipped ++ below }
  /-- No atom comes or goes. -/
  size_eq : next.valuation.size = solver.valuation.size
  /-- The atoms with a value are those of the frames below and the root, which keep their values,
  and that of the flipped decision. -/
  valued_iff (literal : Literal) :
    next.valuation[literal.atom]? = some (some literal.polarity) ↔
      flipped = some literal ∨
        literal.atom ∈ ({ solver.trail with frames := below } : Trail).literals.map Literal.atom ∧
          solver.valuation[literal.atom]? = some (some literal.polarity)
  /-- An observer is told of each frame that is given up, and then of the flip. -/
  log_eq : next.log =
    (solver.tell (List.replicate above.length (.move (.backtrack none)) ++
      flipped.toList.map fun decision => .move (.redecide decision))).log
  /-- Only a flip is counted. -/
  counters_eq : next.counters =
    { solver.counters with
      decisions := solver.counters.decisions + if flipped.isSome then 1 else 0 }

/-- Going back flips the latest decision that was not flipped, and undoes just what is above. -/
theorem Consistent.goesBack_of_backtrack? (consistent : solver.Consistent)
    {flipped : Option Literal} (outcome : solver.backtrack? = some (flipped, next)) :
    ∃ above below, LatestChoice solver.trail.frames above flipped below ∧
      solver.GoesBack next above flipped below := by
  have same := SameProblem.of_backtrack? outcome
  obtain ⟨retreat, retreat_eq, rfl, rfl⟩ := backtrack?_cases outcome
  obtain ⟨above, below, choice, dropped_eq, frames_eq⟩ := latestChoice_of_retreat? retreat_eq
  obtain ⟨_, exists_eq, size_eq, after⟩ := exists_retreat?_of_records consistent.records
  cases retreat_eq.symm.trans exists_eq
  refine ⟨above, below, choice, same, ?_, size_eq, fun literal => ?_, ?_, ?_⟩
  · rw [← frames_eq]
    rfl
  · rw [frames_eq, flatMap_ofFlipped, List.append_assoc] at after
    -- What is left below was recorded before, so its values are the old ones.
    have kept := consistent.records.mem_iff_of_subset
      (solver.trail.literals_subset choice.below_subset) literal
    rw [← kept]
    exact (after.decided_iff literal).trans (List.mem_append.trans
      (or_congr_left Option.mem_toList))
  · rw [← dropped_eq]
    rfl
  · cases retreat.redecided <;> simp [tell, Counters.addDecision]

/-- Of loaded clauses, after any calls, going back is not stuck.  It flips the latest decision that
was not flipped, or finds that there is none, and undoes just what is above. -/
theorem backtrack?_undoes_of_load {settings : Settings} {cnf : Cnf} {solver : Solver}
    (loaded : load settings cnf = .ok solver) (log : Option (Array Event)) (calls : List Call) :
    ∃ reached flipped next above below,
      { solver with log }.callAll? calls = some reached ∧
      reached.backtrack? = some (flipped, next) ∧
      LatestChoice reached.trail.frames above flipped below ∧
      reached.GoesBack next above flipped below := by
  obtain ⟨reached, reached_eq, consistent⟩ :=
    exists_callAll?_of_invariant (fun solver _ => solver.Consistent)
      (fun _ call _ consistent => Consistent.exists_call? consistent call) calls
      ((consistent_of_load loaded).listening log)
  obtain ⟨flipped, next, outcome⟩ := consistent.exists_backtrack?
  obtain ⟨above, below, choice, back⟩ := consistent.goesBack_of_backtrack? outcome
  exact ⟨reached, flipped, next, above, below, reached_eq, outcome, choice, back⟩

/-- The second of two decisions is flipped when the solver goes back, and given up when it goes back
once more. -/
theorem backtrack?_undoes_allSigns :
    load {} allSigns = .ok { settings := {}, cnf := allSigns, valuation := #[none, none] } ∧
      ∃ reached flipped next above below,
        callAll? { settings := {}, cnf := allSigns, valuation := #[none, none], log := some #[] }
            [.branch, .branch, .backtrack] = some reached ∧
        reached.backtrack? = some (flipped, next) ∧
        LatestChoice reached.trail.frames above flipped below ∧
        reached.GoesBack next above flipped below := by
  have loaded : load {} allSigns =
      .ok { settings := {}, cnf := allSigns, valuation := #[none, none] } := by rfl
  exact ⟨loaded, backtrack?_undoes_of_load loaded (some #[]) [.branch, .branch, .backtrack]⟩

end Solver
end Search
end PropSat
