import PropSat.Proofs.Search.Replay

/-!
# Balance of moves

The moves of a search can be reckoned up against what it leaves.  Every decision on the trail was
made and not given up, every flipped one was flipped and not given up, and every conflict was
answered by a flip, except the one that left no decision to flip.
-/

namespace PropSat
namespace Search

namespace Move

/-- Whether a move puts a decision on the trail. -/
def isChoice : Move → Bool
  | decide _ => true
  | redecide _ | propagate _ _ | backtrack _ => false

/-- Whether a move flips the decision at the top of the trail. -/
def isFlip : Move → Bool
  | redecide _ => true
  | decide _ | propagate _ _ | backtrack _ => false

/-- Whether a move takes the decision at the top off the trail. -/
def isDrop : Move → Bool
  | backtrack conflict => conflict.isNone
  | decide _ | redecide _ | propagate _ _ => false

end Move

theorem countP_isDecision_eq_add (moves : List Move) :
    moves.countP Move.isDecision = moves.countP Move.isChoice + moves.countP Move.isFlip := by
  induction moves with
  | nil => rfl
  | cons move moves induction =>
      have both : (if move.isDecision then 1 else 0) =
          (if move.isChoice then 1 else 0) + if move.isFlip then 1 else 0 := by
        cases move <;> rfl
      rw [List.countP_cons, List.countP_cons, List.countP_cons, induction, both]
      omega

theorem countP_isFlip_forced (forced : List Forced) :
    (forced.map Forced.move).countP Move.isFlip = 0 :=
  List.countP_eq_zero.mpr (by simp [Forced.move, Move.isFlip])

theorem countP_isFlip_retreat (retreat : Retreat) :
    retreat.moves.countP Move.isFlip = retreat.redecided.toList.length := by
  cases redecided : retreat.redecided <;>
    simp [Retreat.moves, redecided, List.countP_replicate, Move.isFlip]

namespace Trail

/-- Number of decisions on the trail that were flipped. -/
def flippedCount (trail : Trail) : Nat := trail.frames.countP fun frame => frame.flipped

theorem decisionCount_record (trail : Trail) (literal : Literal) :
    (trail.record literal).decisionCount = trail.decisionCount := by
  obtain ⟨root, frames⟩ := trail
  cases frames <;> rfl

theorem flippedCount_record (trail : Trail) (literal : Literal) :
    (trail.record literal).flippedCount = trail.flippedCount := by
  obtain ⟨root, frames⟩ := trail
  cases frames <;> rfl

theorem decisionCount_forget (trail : Trail) :
    trail.forget.decisionCount = trail.decisionCount := by
  obtain ⟨root, frames⟩ := trail
  cases frames <;> rfl

theorem flippedCount_forget (trail : Trail) : trail.forget.flippedCount = trail.flippedCount := by
  obtain ⟨root, frames⟩ := trail
  cases frames <;> rfl

end Trail

namespace Standing

variable {standing : Standing} {cnf : Cnf} {move : Move}

/-- A justified move puts a decision on the trail, or takes one off, or leaves their number. -/
theorem decisionCount_make (justified : standing.Justifies cnf move) :
    (standing.make move).trail.decisionCount + [move].countP Move.isDrop =
      standing.trail.decisionCount + [move].countP Move.isChoice := by
  cases move with
  | propagate literal index => exact standing.trail.decisionCount_record literal
  | decide literal => rfl
  | redecide literal =>
      obtain ⟨top, rest, frames_eq, _⟩ := justified
      simp [make, frames_eq, Trail.decisionCount, Move.isDrop, Move.isChoice]
  | backtrack conflict =>
      cases conflict with
      | some index => exact standing.trail.decisionCount_forget
      | none =>
          obtain ⟨top, rest, frames_eq, _⟩ := justified
          simp [make, frames_eq, Trail.decisionCount, Move.isDrop, Move.isChoice]

/-- A justified move flips a decision on the trail, or takes a flipped one off, or leaves the number
of those that were flipped. -/
theorem flippedCount_make (justified : standing.Justifies cnf move) :
    (standing.make move).trail.flippedCount + [move].countP Move.isDrop =
      standing.trail.flippedCount + [move].countP Move.isFlip := by
  cases move with
  | propagate literal index => exact standing.trail.flippedCount_record literal
  | decide literal =>
      simp [make, Trail.push, Frame.ofDecision, Trail.flippedCount, Move.isDrop, Move.isFlip]
  | redecide literal =>
      obtain ⟨top, rest, frames_eq, not_flipped, _⟩ := justified
      simp [make, frames_eq, not_flipped, Frame.flip, Level.flip, Trail.flippedCount, Move.isDrop,
        Move.isFlip]
  | backtrack conflict =>
      cases conflict with
      | some index => exact standing.trail.flippedCount_forget
      | none =>
          obtain ⟨top, rest, frames_eq, flipped⟩ := justified
          simp [make, frames_eq, flipped, Trail.flippedCount, Move.isDrop, Move.isFlip]

end Standing

namespace Replay

variable {cnf : Cnf} {first last : Standing} {moves : List Move}

/-- What every justified move raises or lowers by one is reckoned up over a replay. -/
theorem add_countP_isDrop {measure : Trail → Nat} {raises : Move → Bool}
    (reckon : ∀ {standing : Standing} {move : Move}, standing.Justifies cnf move →
      measure (standing.make move).trail + [move].countP Move.isDrop =
        measure standing.trail + [move].countP raises)
    (replay : Replay cnf first moves last) :
    measure last.trail + moves.countP Move.isDrop =
      measure first.trail + moves.countP raises := by
  induction replay with
  | nil => rfl
  | @cons standing final move moves justified rest induction =>
      have made := reckon justified
      rw [List.countP_cons, List.countP_cons]
      rw [List.countP_singleton, List.countP_singleton] at made
      omega

/-- From an empty trail on, the decisions that were made and not taken off are on the trail. -/
theorem decisionCount_add (replay : Replay cnf first moves last) (bare : first.trail = {}) :
    last.trail.decisionCount + moves.countP Move.isDrop = moves.countP Move.isChoice := by
  have reckoned := replay.add_countP_isDrop Standing.decisionCount_make
  rw [bare] at reckoned
  exact reckoned.trans (Nat.zero_add _)

/-- From an empty trail on, the decisions that were flipped and not taken off are on the trail. -/
theorem flippedCount_add (replay : Replay cnf first moves last) (bare : first.trail = {}) :
    last.trail.flippedCount + moves.countP Move.isDrop = moves.countP Move.isFlip := by
  have reckoned := replay.add_countP_isDrop Standing.flippedCount_make
  rw [bare] at reckoned
  exact reckoned.trans (Nat.zero_add _)

end Replay

theorem frames_eq_nil_of_retreat? {valuation : Valuation} {frames : List Frame} {retreat : Retreat}
    (back : retreat? valuation frames = some retreat) (redecided : retreat.redecided = none) :
    retreat.frames = [] := by
  induction frames generalizing valuation retreat with
  | nil =>
      cases back
      rfl
  | cons top rest induction =>
      rw [retreat?] at back
      split at back
      · split at back
        · obtain ⟨later, later_eq, rfl⟩ := Option.map_eq_some_iff.mp back
          have later_frames : later.frames = [] := induction later_eq redecided
          exact later_frames
        · cases back
          cases redecided
      · cases back

namespace Solver

variable {solver : Solver} {clock : Nat → Duration} {passes : List (List Move)}
  {verdict : Verdict} {final : Solver}

/-- Conflicts that no flip answers, by the result of a search. -/
def unanswered : Except Fault Verdict → Nat
  | .ok .unsatisfiable => 1
  | _ => 0

/-- A pass that meets a conflict flips a decision, unless it ends the search as unsatisfiable. -/
theorem Pass.countP_isConflict {elapsed : Duration} {moves : List Move} {step : Step}
    (pass : Pass elapsed solver moves step) :
    moves.countP Move.isConflict = moves.countP Move.isFlip +
      match step with
      | .next _ => 0
      | .halt result _ => unanswered result := by
  cases pass with
  | late exceeded => rfl
  | flipped conflict back redecided | exhausted conflict back redecided =>
      simp only [List.countP_append, countP_isConflict_forced, countP_isConflict_retreat,
        countP_isFlip_forced, countP_isFlip_retreat, redecided]
      rfl
  | decided settled candidate below =>
      simp only [List.countP_append, countP_isConflict_forced, countP_isFlip_forced]
      rfl
  | limited settled candidate reached =>
      rw [countP_isConflict_forced, countP_isFlip_forced]
      rfl
  | satisfied settled all_satisfied =>
      rw [countP_isConflict_forced, countP_isFlip_forced]
      rfl

namespace Run

variable {result : Except Fault Verdict}

/-- The conflicts of a run are answered by its flips, except one that leaves no decision to flip. -/
theorem countP_isConflict (run : Run clock solver passes result final) :
    passes.flatten.countP Move.isConflict =
      passes.flatten.countP Move.isFlip + unanswered result := by
  induction run with
  | halt stepped pass =>
      rw [List.flatten_singleton]
      exact pass.countP_isConflict
  | next stepped pass rest induction =>
      have answered := pass.countP_isConflict
      simp only at answered
      rw [List.flatten_cons, List.countP_append, List.countP_append, induction, answered]
      omega

/-- A run that ends as unsatisfiable has given up all decisions. -/
theorem frames_eq_nil (run : Run clock solver passes result final)
    (unsatisfiable : result = .ok .unsatisfiable) : final.trail.frames = [] := by
  induction run with
  | halt stepped pass =>
      cases pass with
      | exhausted conflict back redecided => exact frames_eq_nil_of_retreat? back redecided
      | late | limited | satisfied => cases unsatisfiable
  | next stepped pass rest induction => exact induction unsatisfiable

end Run

/-- Without an empty clause there is a search. -/
theorem Solves.exists_run (solves : Solves clock solver passes verdict final)
    (nonempty : [] ∉ solver.cnf.clauses) :
    ∃ last, Run clock solver.opened passes (.ok verdict) last ∧ final = last.conclude verdict := by
  have opens := solver.opens_opening
  cases solves with
  | done opening =>
      rw [opening] at opens
      cases opens with
      | settled fresh empty =>
          obtain ⟨clause, member, clause_empty⟩ := List.any_eq_true.mp empty
          rw [List.isEmpty_iff.mp clause_empty] at member
          exact absurd member nonempty
  | searched opening run =>
      obtain rfl := eq_opened_of_search opening
      exact ⟨_, run, rfl⟩

/-- How the moves of a search add up with the counters and the trail that it leaves. -/
structure Balanced (moves : List Move) (verdict : Verdict) (final : Solver) : Prop where
  /-- Every iteration but the last makes a decision or flips one. -/
  iterations_eq : final.counters.iterations = final.counters.decisions + 1
  /-- Decisions are counted when they are made and when they are flipped. -/
  decisions_eq : final.counters.decisions =
    .ofNat (moves.countP Move.isChoice + moves.countP Move.isFlip)
  /-- Propagations are counted, whether or not they are given up. -/
  propagations_eq : final.counters.propagations = .ofNat (moves.countP Move.isPropagation)
  /-- Conflicts are counted. -/
  conflicts_eq : final.counters.conflicts = .ofNat (moves.countP Move.isConflict)
  /-- Every conflict is answered by a flip, except one that leaves no decision to flip. -/
  answered : moves.countP Move.isConflict =
    moves.countP Move.isFlip + if verdict = .unsatisfiable then 1 else 0
  /-- The decisions on the trail are those that were made and not taken off. -/
  decisionCount_eq :
    final.trail.decisionCount + moves.countP Move.isDrop = moves.countP Move.isChoice
  /-- The flipped decisions on the trail are those that were flipped and not taken off. -/
  flippedCount_eq :
    final.trail.flippedCount + moves.countP Move.isDrop = moves.countP Move.isFlip
  /-- If there is no model then every decision was made, flipped and taken off. -/
  exhausted : verdict = .unsatisfiable →
    moves.countP Move.isChoice = moves.countP Move.isFlip ∧
      moves.countP Move.isFlip = moves.countP Move.isDrop
  /-- If there is no model then the values that are left are those that follow at the root. -/
  rooted : verdict = .unsatisfiable → ∀ literal : Literal,
    final.valuation[literal.atom]? = some (some literal.polarity) ↔
      literal ∈ final.trail.root.propagations

theorem Solves.balanced (solves : Solves clock solver passes verdict final)
    (consistent : solver.Consistent) (final_consistent : final.Consistent)
    (nonempty : [] ∉ solver.cnf.clauses) (blank : solver.trail = {})
    (uncounted : solver.counters = {}) : Balanced passes.flatten verdict final := by
  have counters_eq : final.counters = Counters.after {} passes.length passes.flatten :=
    uncounted ▸ solves.counters_eq
  -- The search starts on an empty trail, so what is on it at the end was put there by its moves.
  have start : solver.standing.trail = {} := blank
  have replay := solves.replay consistent (by rw [blank]; rfl)
  have decisions_made : final.trail.decisionCount + passes.flatten.countP Move.isDrop =
      passes.flatten.countP Move.isChoice := replay.decisionCount_add start
  have decisions_flipped : final.trail.flippedCount + passes.flatten.countP Move.isDrop =
      passes.flatten.countP Move.isFlip := replay.flippedCount_add start
  obtain ⟨last, run, rfl⟩ := solves.exists_run nonempty
  have bare : verdict = .unsatisfiable → (last.conclude verdict).trail.frames = [] :=
    fun unsatisfiable => run.frames_eq_nil (congrArg Except.ok unsatisfiable)
  exact
    { iterations_eq := by
        rw [counters_eq, Counters.after, ← run.countP_isDecision, UInt64.ofNat_add]
        exact (UInt64.add_assoc _ _ _).symm
      decisions_eq := by
        rw [counters_eq, ← countP_isDecision_eq_add]
        exact UInt64.zero_add _
      propagations_eq := by
        rw [counters_eq]
        exact UInt64.zero_add _
      conflicts_eq := by
        rw [counters_eq]
        exact UInt64.zero_add _
      answered := by
        rw [run.countP_isConflict]
        cases verdict <;> rfl
      decisionCount_eq := decisions_made
      flippedCount_eq := decisions_flipped
      exhausted := by
        intro unsatisfiable
        rw [Trail.decisionCount, bare unsatisfiable, List.length_nil] at decisions_made
        rw [Trail.flippedCount, bare unsatisfiable, List.countP_nil] at decisions_flipped
        omega
      rooted := by
        intro unsatisfiable literal
        rw [final_consistent.records.decided_iff, Trail.literals, bare unsatisfiable]
        rfl }

/-- The first time loaded clauses without an empty one are solved, whatever the limits and the
clock, an observer is told moves and then the counts and the verdict.  The moves add up with the
counters and with the trail. -/
theorem solve?_balanced_of_load {settings : Settings} {cnf : Cnf}
    (loaded : load settings cnf = .ok solver) (nonempty : [] ∉ cnf.clauses) (told : Array Event)
    (clock : Nat → Duration) :
    ∃ moves verdict final,
      { solver with log := some told }.solve? clock = some (.ok verdict, final) ∧
      final.log = some (told ++
        (moves.map Event.move ++ closingEvents final.counters verdict)) ∧
      Balanced moves verdict final := by
  have sound := (sound_of_load loaded).listening (some told)
  obtain ⟨_, rfl⟩ := load_eq_ok_iff.mp loaded
  obtain ⟨verdict, final, solve_eq, _, final_sound, _⟩ := sound.exists_solve? rfl clock
  obtain ⟨passes, verdict, final, same_eq, solves⟩ := exists_solves_of_sound sound rfl clock
  cases solve_eq.symm.trans same_eq
  exact ⟨passes.flatten, verdict, final, solve_eq, solves.log_eq,
    solves.balanced sound.toConsistent final_sound.toConsistent nonempty rfl rfl⟩

theorem solve?_balanced_allSigns :
    load {} allSigns = .ok { settings := {}, cnf := allSigns, valuation := #[none, none] } ∧
      [] ∉ allSigns.clauses ∧
      ∃ moves verdict final,
        solve? (fun _ => ⟨1⟩)
            { settings := {}, cnf := allSigns, valuation := #[none, none], log := some #[] } =
          some (.ok verdict, final) ∧
        final.log = some ((#[] : Array Event) ++
          (moves.map Event.move ++ closingEvents final.counters verdict)) ∧
        Balanced moves verdict final := by
  have loaded : load {} allSigns =
      .ok { settings := {}, cnf := allSigns, valuation := #[none, none] } := by rfl
  have nonempty : [] ∉ allSigns.clauses := by decide
  exact ⟨loaded, nonempty, solve?_balanced_of_load loaded nonempty #[] fun _ => ⟨1⟩⟩

end Solver
end Search
end PropSat
