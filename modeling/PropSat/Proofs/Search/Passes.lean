import Mathlib.Algebra.Order.Ring.Nat
import PropSat.Proofs.Search.Verdict

/-!
# Passes of a search

Each iteration of a search is a pass that makes moves, which are what an observer is told and what
the counters count.  The potential drops from pass to pass and starts at the size of the decision
tree over all atoms, each pass but the last makes one decision, and no pass propagates more literals
than there are atoms.
-/

namespace PropSat
namespace Search

namespace Move

/-- Whether a move is a decision, a flipped one included. -/
def isDecision : Move → Bool
  | decide _ | redecide _ => true
  | propagate _ _ | backtrack _ => false

/-- Whether a move is a propagation. -/
def isPropagation : Move → Bool
  | propagate _ _ => true
  | decide _ | redecide _ | backtrack _ => false

/-- Whether a move is made because of a violated clause. -/
def isConflict : Move → Bool
  | backtrack conflict => conflict.isSome
  | decide _ | redecide _ | propagate _ _ => false

end Move

/-- The move that a forced literal stands for. -/
def Forced.move (forced : Forced) : Move := .propagate forced.literal forced.clause

/-- The moves that going back stands for. -/
def Retreat.moves (retreat : Retreat) : List Move :=
  List.replicate retreat.dropped (.backtrack none) ++ retreat.redecided.toList.map Move.redecide

/-- The counters after further iterations that make some moves. -/
def Counters.after (counters : Counters) (iterations : Nat) (moves : List Move) : Counters where
  iterations := counters.iterations + .ofNat iterations
  decisions := counters.decisions + .ofNat (moves.countP Move.isDecision)
  propagations := counters.propagations + .ofNat (moves.countP Move.isPropagation)
  conflicts := counters.conflicts + .ofNat (moves.countP Move.isConflict)

theorem Counters.after_after (counters : Counters) (first second : Nat) (front back : List Move) :
    (counters.after first front).after second back =
      counters.after (first + second) (front ++ back) := by
  simp only [after, List.countP_append, UInt64.ofNat_add, UInt64.add_assoc]

theorem countP_isDecision_forced (forced : List Forced) :
    (forced.map Forced.move).countP Move.isDecision = 0 :=
  List.countP_eq_zero.mpr (by simp [Forced.move, Move.isDecision])

theorem countP_isPropagation_forced (forced : List Forced) :
    (forced.map Forced.move).countP Move.isPropagation = forced.length := by
  rw [List.countP_eq_length.mpr (by simp [Forced.move, Move.isPropagation]), List.length_map]

theorem countP_isConflict_forced (forced : List Forced) :
    (forced.map Forced.move).countP Move.isConflict = 0 :=
  List.countP_eq_zero.mpr (by simp [Forced.move, Move.isConflict])

theorem Counters.after_forced (counters : Counters) (forced : List Forced) :
    counters.after 0 (forced.map Forced.move) = counters.addPropagations forced.length := by
  rw [after, countP_isDecision_forced, countP_isPropagation_forced, countP_isConflict_forced]
  simp [addPropagations]

theorem Counters.after_conflict (counters : Counters) (clause : Nat) :
    counters.after 0 [.backtrack (some clause)] = counters.addConflict := by
  simp [after, addConflict, Move.isDecision, Move.isPropagation, Move.isConflict]

theorem countP_isDecision_retreat (retreat : Retreat) :
    retreat.moves.countP Move.isDecision = retreat.redecided.toList.length := by
  cases redecided : retreat.redecided <;>
    simp [Retreat.moves, redecided, List.countP_replicate, Move.isDecision]

theorem countP_isPropagation_retreat (retreat : Retreat) :
    retreat.moves.countP Move.isPropagation = 0 := by
  cases redecided : retreat.redecided <;>
    simp [Retreat.moves, redecided, List.countP_replicate, Move.isPropagation]

theorem countP_isConflict_retreat (retreat : Retreat) :
    retreat.moves.countP Move.isConflict = 0 := by
  cases redecided : retreat.redecided <;>
    simp [Retreat.moves, redecided, List.countP_replicate, Move.isConflict]

theorem Counters.after_retreat (counters : Counters) (retreat : Retreat) :
    counters.after 0 retreat.moves =
      if retreat.redecided.isSome then counters.addDecision else counters := by
  rw [after, countP_isDecision_retreat, countP_isPropagation_retreat, countP_isConflict_retreat]
  cases retreat.redecided <;> simp [addDecision]

/-- The size of the tree in closed form. -/
theorem treeSize_eq (height : Nat) : treeSize height = 2 ^ (height + 1) - 1 := by
  induction height with
  | zero => rfl
  | succ height induction =>
      have positive : 0 < 2 ^ (height + 1) := Nat.two_pow_pos _
      rw [treeSize_succ, induction, Nat.pow_succ 2 (height + 1)]
      omega

theorem length_le_of_close? {cnf : Cnf} {valuation : Valuation} {forced : List Forced}
    {closure : Closure} (closure_eq : close? cnf valuation = some (forced, closure)) :
    forced.length ≤ valuation.openCount := by
  fun_induction close? cnf valuation generalizing forced with
  | case1 | case3 => simp at closure_eq
  | case2 | case4 =>
      cases closure_eq
      exact Nat.zero_le _
  | case5 valuation _ _ _ literal clause found induction =>
      obtain ⟨⟨later, outcome⟩, later_eq, result_eq⟩ := Option.map_eq_some_iff.mp closure_eq
      simp only [Prod.mk.injEq] at result_eq
      obtain ⟨rfl, rfl⟩ := result_eq
      have fewer := Valuation.openCount_assign (Cnf.open_of_firstForced? found)
      have bound := induction later_eq
      rw [List.length_cons]
      omega

namespace Solver

variable {solver next : Solver}

theorem tell_tell (solver : Solver) (front back : List Event) :
    (solver.tell front).tell back = solver.tell (front ++ back) := by
  obtain ⟨_, _, _, _, _, _, log⟩ := solver
  cases log with
  | none => rfl
  | some told =>
      have joined : told ++ front ++ back = told ++ (front ++ back) := by
        apply Array.toList_inj.mp
        simp
      simp [tell, joined]

/-- A solver after iterations begun and moves made that lead to a valuation and a trail. -/
def moved (solver : Solver) (iterations : Nat) (moves : List Move) (valuation : Valuation)
    (trail : Trail) : Solver :=
  { solver with valuation, trail, counters := solver.counters.after iterations moves }.tell
    (moves.map Event.move)

theorem moved_moved (solver : Solver) (first second : Nat) (front back : List Move)
    (middle last : Valuation) (inner outer : Trail) :
    (solver.moved first front middle inner).moved second back last outer =
      solver.moved (first + second) (front ++ back) last outer := by
  rw [moved, moved, moved, List.map_append, ← tell_tell, ← Counters.after_after]
  rfl

theorem begun_eq_moved (solver : Solver) :
    solver.begun = solver.moved 1 [] solver.valuation solver.trail := by
  obtain ⟨_, _, _, _, _, _, log⟩ := solver
  cases log <;> simp [begun, moved, tell, Counters.after, Counters.addIteration]

theorem assume_eq_moved (solver : Solver) (literal : Literal) :
    solver.assume literal =
      solver.moved 0 [.decide literal] (solver.valuation.assign literal)
        (solver.trail.push literal) := by
  simp [assume, moved, Counters.after, Counters.addDecision, Move.isDecision, Move.isPropagation,
    Move.isConflict]

/-- What an iteration without a conflict has done before it looks for a decision. -/
theorem moved_of_settled (settled : solver.begun.propagate? = some (none, next)) :
    ∃ forced closed, close? solver.cnf solver.valuation = some (forced, .settled closed) ∧
      next = solver.moved 1 (forced.map Forced.move) closed
        (solver.trail.recordAll (forced.map Forced.literal)) ∧
      next.counters.decisions = solver.counters.decisions := by
  rcases propagate?_cases settled with ⟨forced, closed, _, closure, rfl⟩ | ⟨_, _, impossible, _⟩
  · refine ⟨forced, closed, closure, ?_, rfl⟩
    rw [← List.nil_append (forced.map Forced.move), ← Nat.add_zero 1,
      ← moved_moved solver 1 0 _ _ solver.valuation _ solver.trail, ← begun_eq_moved, moved,
      Counters.after_forced, List.map_map]
    rfl
  · cases impossible

/-- What an iteration with a conflict has done before it goes back. -/
theorem moved_of_conflict {clause : Nat}
    (conflict : solver.begun.propagate? = some (some clause, next)) :
    ∃ forced, close? solver.cnf solver.valuation = some (forced, .conflict clause) ∧
      next.conflicted = solver.moved 1 (forced.map Forced.move ++ [.backtrack (some clause)])
        solver.valuation solver.trail := by
  rcases propagate?_cases conflict with ⟨_, _, impossible, _⟩ | ⟨forced, index, same, closure, rfl⟩
  · cases impossible
  · cases same
    refine ⟨forced, closure, ?_⟩
    rw [← List.nil_append (forced.map Forced.move), List.append_assoc, ← Nat.add_zero 1,
      ← moved_moved solver 1 0 _ _ solver.valuation _ solver.trail, ← begun_eq_moved, moved,
      ← Nat.add_zero 0, ← Counters.after_after, Counters.after_forced, Counters.after_conflict,
      List.map_append, List.map_map]
    rfl

theorem moved_of_backtrack? {flipped : Option Literal}
    (back : solver.backtrack? = some (flipped, next)) :
    ∃ retreat, retreat? solver.valuation solver.trail.frames = some retreat ∧
      flipped = retreat.redecided ∧
      next = solver.moved 0 retreat.moves retreat.valuation
        { solver.trail with frames := retreat.frames } := by
  obtain ⟨retreat, retreat_eq, redecided, rfl⟩ := backtrack?_cases back
  refine ⟨retreat, retreat_eq, redecided, ?_⟩
  rw [moved, Counters.after_retreat, Retreat.moves, List.map_append, List.map_replicate,
    List.map_map]
  rfl

/-- The iterations of a solver with the moves that they make. -/
inductive Pass (elapsed : Duration) (solver : Solver) : List Move → Step → Prop where
  /-- The time limit is exceeded. -/
  | late (exceeded : ¬ elapsed ≤ solver.settings.timeLimit.value) :
      Pass elapsed solver []
        (.halt (.ok .timeUp) (solver.moved 1 [] solver.valuation solver.trail))
  /-- A conflict is met, and a decision is flipped. -/
  | flipped {forced : List Forced} {clause : Nat} {retreat : Retreat} {literal : Literal}
      (conflict : close? solver.cnf solver.valuation = some (forced, .conflict clause))
      (back : retreat? solver.valuation solver.trail.frames = some retreat)
      (redecided : retreat.redecided = some literal) :
      Pass elapsed solver (forced.map Forced.move ++ [.backtrack (some clause)] ++ retreat.moves)
        (.next (solver.moved 1
          (forced.map Forced.move ++ [.backtrack (some clause)] ++ retreat.moves)
          retreat.valuation { solver.trail with frames := retreat.frames }))
  /-- A conflict is met, and no decision is left. -/
  | exhausted {forced : List Forced} {clause : Nat} {retreat : Retreat}
      (conflict : close? solver.cnf solver.valuation = some (forced, .conflict clause))
      (back : retreat? solver.valuation solver.trail.frames = some retreat)
      (redecided : retreat.redecided = none) :
      Pass elapsed solver (forced.map Forced.move ++ [.backtrack (some clause)] ++ retreat.moves)
        (.halt (.ok .unsatisfiable) (solver.moved 1
          (forced.map Forced.move ++ [.backtrack (some clause)] ++ retreat.moves)
          retreat.valuation { solver.trail with frames := retreat.frames }))
  /-- There is no conflict, and a decision is made. -/
  | decided {forced : List Forced} {closed : Valuation} {literal : Literal}
      (settled : close? solver.cnf solver.valuation = some (forced, .settled closed))
      (candidate : solver.cnf.firstCandidate? closed = some (some literal))
      (below : solver.counters.decisions.toNat < solver.settings.decisionLimit.value) :
      Pass elapsed solver (forced.map Forced.move ++ [.decide literal])
        (.next (solver.moved 1 (forced.map Forced.move ++ [.decide literal])
          (closed.assign literal)
          ((solver.trail.recordAll (forced.map Forced.literal)).push literal)))
  /-- There is no conflict, and a decision is needed but not allowed. -/
  | limited {forced : List Forced} {closed : Valuation} {literal : Literal}
      (settled : close? solver.cnf solver.valuation = some (forced, .settled closed))
      (candidate : solver.cnf.firstCandidate? closed = some (some literal))
      (reached : solver.settings.decisionLimit.value ≤ solver.counters.decisions.toNat) :
      Pass elapsed solver (forced.map Forced.move)
        (.halt (.ok .unknown) (solver.moved 1 (forced.map Forced.move) closed
          (solver.trail.recordAll (forced.map Forced.literal))))
  /-- There is no conflict, and every clause is satisfied. -/
  | satisfied {forced : List Forced} {closed : Valuation}
      (settled : close? solver.cnf solver.valuation = some (forced, .settled closed))
      (all_satisfied : solver.cnf.status? closed = some .satisfied) :
      Pass elapsed solver (forced.map Forced.move)
        (.halt (.ok .satisfiable) (solver.moved 1 (forced.map Forced.move) closed
          (solver.trail.recordAll (forced.map Forced.literal))))

/-- Every iteration is a pass. -/
theorem pass_of_step? {elapsed : Duration} {step : Step}
    (outcome : solver.step? elapsed = some step) : ∃ moves, Pass elapsed solver moves step := by
  cases iteration_of_step? outcome with
  | late exceeded =>
      rw [begun_eq_moved]
      exact ⟨_, .late exceeded⟩
  | flipped conflict back =>
      obtain ⟨forced, closure, conflicted_eq⟩ := moved_of_conflict conflict
      rw [conflicted_eq] at back
      obtain ⟨retreat, retreat_eq, redecided, rfl⟩ := moved_of_backtrack? back
      rw [moved_moved]
      exact ⟨_, .flipped closure retreat_eq redecided.symm⟩
  | exhausted conflict back =>
      obtain ⟨forced, closure, conflicted_eq⟩ := moved_of_conflict conflict
      rw [conflicted_eq] at back
      obtain ⟨retreat, retreat_eq, redecided, rfl⟩ := moved_of_backtrack? back
      rw [moved_moved]
      exact ⟨_, .exhausted closure retreat_eq redecided.symm⟩
  | decided settled branched =>
      obtain ⟨forced, closed, closure, rfl, decisions_eq⟩ := moved_of_settled settled
      rcases branch?_cases branched with
        ⟨impossible, _⟩ | ⟨_, impossible, _⟩ | ⟨literal, _, candidate, below, rfl⟩
      · cases impossible
      · cases impossible
      · rw [decisions_eq] at below
        rw [assume_eq_moved, moved_moved]
        exact ⟨_, .decided closure candidate below⟩
  | limited settled branched =>
      obtain ⟨forced, closed, closure, rfl, decisions_eq⟩ := moved_of_settled settled
      rcases branch?_cases branched with
        ⟨impossible, _⟩ | ⟨literal, _, candidate, reached, rfl⟩ | ⟨_, impossible, _⟩
      · cases impossible
      · rw [decisions_eq] at reached
        exact ⟨_, .limited closure candidate reached⟩
      · cases impossible
  | satisfied settled branched all_satisfied =>
      obtain ⟨forced, closed, closure, rfl, _⟩ := moved_of_settled settled
      rcases branch?_cases branched with
        ⟨_, _, rfl⟩ | ⟨_, impossible, _⟩ | ⟨_, impossible, _⟩
      · exact ⟨_, .satisfied closure all_satisfied⟩
      · cases impossible
      · cases impossible
  | repeated settled branched violated => cases satisfied_of_settled settled branched violated
  | broken settled branched undecided => cases satisfied_of_settled settled branched undecided

namespace Pass

variable {elapsed : Duration} {moves : List Move} {step : Step}

/-- The solver that a pass leaves has counted and told its moves. -/
theorem moved (pass : Pass elapsed solver moves step) :
    step.solver = solver.moved 1 moves step.solver.valuation step.solver.trail := by
  cases pass <;> rfl

/-- A pass makes one decision if the search goes on after it, and otherwise none. -/
theorem countP_isDecision (pass : Pass elapsed solver moves step) :
    moves.countP Move.isDecision = match step with | .next _ => 1 | .halt _ _ => 0 := by
  cases pass with
  | late exceeded => rfl
  | flipped conflict back redecided | exhausted conflict back redecided =>
      rw [List.countP_append, List.countP_append, countP_isDecision_forced,
        countP_isDecision_retreat, redecided]
      rfl
  | decided settled candidate below =>
      rw [List.countP_append, countP_isDecision_forced]
      rfl
  | limited settled candidate reached => exact countP_isDecision_forced _
  | satisfied settled all_satisfied => exact countP_isDecision_forced _

/-- A pass propagates no more literals than there are open atoms. -/
theorem countP_isPropagation_le (pass : Pass elapsed solver moves step) :
    moves.countP Move.isPropagation ≤ solver.valuation.openCount := by
  cases pass with
  | late exceeded => exact Nat.zero_le _
  | flipped conflict back redecided | exhausted conflict back redecided =>
      rw [List.countP_append, List.countP_append, countP_isPropagation_forced,
        countP_isPropagation_retreat]
      exact length_le_of_close? conflict
  | decided settled candidate below =>
      rw [List.countP_append, countP_isPropagation_forced]
      exact length_le_of_close? settled
  | limited settled candidate reached =>
      rw [countP_isPropagation_forced]
      exact length_le_of_close? settled
  | satisfied settled all_satisfied =>
      rw [countP_isPropagation_forced]
      exact length_le_of_close? settled

end Pass

/-- A search with the moves of its iterations, one list for each. -/
inductive Run (clock : Nat → Duration) :
    Solver → List (List Move) → Except Fault Verdict → Solver → Prop where
  /-- The first iteration ends the search. -/
  | halt {solver final : Solver} {moves : List Move} {result : Except Fault Verdict}
      (stepped : solver.step? (clock solver.counters.iterations.toNat) = some (.halt result final))
      (pass : Pass (clock solver.counters.iterations.toNat) solver moves (.halt result final)) :
      Run clock solver [moves] result final
  /-- The search goes on after the first iteration. -/
  | next {solver next final : Solver} {moves : List Move} {passes : List (List Move)}
      {result : Except Fault Verdict}
      (stepped : solver.step? (clock solver.counters.iterations.toNat) = some (.next next))
      (pass : Pass (clock solver.counters.iterations.toNat) solver moves (.next next))
      (rest : Run clock next passes result final) :
      Run clock solver (moves :: passes) result final

/-- A search ends exactly as one of its runs does. -/
theorem search?_eq_some_iff {clock : Nat → Duration} {result : Except Fault Verdict}
    {final : Solver} :
    solver.search? clock = some (result, final) ↔
      ∃ passes, Run clock solver passes result final := by
  constructor
  · intro searched
    fun_induction search? clock solver with
    | case1 => cases searched
    | case2 solver verdict last stepped =>
        cases searched
        obtain ⟨moves, pass⟩ := pass_of_step? stepped
        exact ⟨[moves], .halt stepped pass⟩
    | case3 solver next stepped induction =>
        obtain ⟨passes, rest⟩ := induction searched
        obtain ⟨moves, pass⟩ := pass_of_step? stepped
        exact ⟨moves :: passes, .next stepped pass rest⟩
  · rintro ⟨passes, run⟩
    induction run with
    | halt stepped pass =>
        rw [search?]
        split
        all_goals
          rename_i other
          rw [stepped] at other
          cases other
        rfl
    | next stepped pass rest induction =>
        rw [search?]
        split
        all_goals
          rename_i other
          rw [stepped] at other
          cases other
        exact induction

theorem Consistent.openCount_le (consistent : solver.Consistent) :
    solver.valuation.openCount ≤ solver.cnf.atomCount :=
  consistent.size_eq ▸ Array.count_le_size

namespace Run

variable {clock : Nat → Duration} {passes : List (List Move)} {result : Except Fault Verdict}
  {final : Solver}

/-- A run has counted and told the moves of its passes. -/
theorem moved (run : Run clock solver passes result final) :
    final = solver.moved passes.length passes.flatten final.valuation final.trail := by
  induction run with
  | halt stepped pass =>
      rw [List.flatten_singleton]
      exact pass.moved
  | @next solver next final moves passes result stepped pass rest induction =>
      have next_eq := pass.moved
      change next = solver.moved 1 moves next.valuation next.trail at next_eq
      rw [next_eq, moved_moved] at induction
      rw [List.length_cons, List.flatten_cons, Nat.add_comm]
      exact induction

/-- There are no more passes than the potential allows. -/
theorem length_le_potential (run : Run clock solver passes result final) :
    passes.length ≤ solver.potential := by
  induction run with
  | @halt solver final moves result stepped pass =>
      have positive := treeSize_pos solver.valuation.openCount
      rw [potential, Search.potential, List.length_singleton]
      omega
  | next stepped pass rest induction =>
      have lower := potential_of_step? stepped
      rw [List.length_cons]
      omega

/-- Every pass but the last makes one decision. -/
theorem countP_isDecision (run : Run clock solver passes result final) :
    passes.flatten.countP Move.isDecision + 1 = passes.length := by
  induction run with
  | halt stepped pass =>
      have none_made := pass.countP_isDecision
      rw [List.flatten_singleton, none_made]
      rfl
  | next stepped pass rest induction =>
      have one_made := pass.countP_isDecision
      rw [List.flatten_cons, List.countP_append, one_made, List.length_cons, ← induction]
      exact congrArg (· + 1) (Nat.add_comm _ _)

/-- No pass propagates more literals than there are atoms. -/
theorem countP_isPropagation_le (run : Run clock solver passes result final)
    (consistent : solver.Consistent) :
    ∀ pass ∈ passes, pass.countP Move.isPropagation ≤ solver.cnf.atomCount := by
  induction run with
  | halt stepped pass =>
      exact List.forall_mem_singleton.mpr
        (pass.countP_isPropagation_le.trans consistent.openCount_le)
  | @next solver next final moves passes result stepped pass rest induction =>
      have next_consistent : next.Consistent := consistent.of_step? stepped
      have same : next.cnf = solver.cnf := (SameProblem.of_step? stepped).cnf_eq
      have later := induction next_consistent
      rw [same] at later
      exact List.forall_mem_cons.mpr
        ⟨pass.countP_isPropagation_le.trans consistent.openCount_le, later⟩

end Run

/-- Solving up to a verdict, with the moves of the iterations of its search.  There are none if the
matter is settled at the opening. -/
inductive Solves (clock : Nat → Duration) (solver : Solver) :
    List (List Move) → Verdict → Solver → Prop where
  /-- No search is made. -/
  | done {verdict : Verdict} {final : Solver}
      (opening : solver.opening = .done (.ok verdict) final) : Solves clock solver [] verdict final
  /-- A search is made, and its verdict is recorded. -/
  | searched {start last : Solver} {passes : List (List Move)} {verdict : Verdict}
      (opening : solver.opening = .search start) (run : Run clock start passes (.ok verdict) last) :
      Solves clock solver passes verdict (last.conclude verdict)

theorem eq_opened_of_search {start : Solver} (opening : solver.opening = .search start) :
    start = solver.opened := by
  have opens := solver.opens_opening
  rw [opening] at opens
  cases opens
  rfl

theorem eq_conclude_of_done {verdict : Verdict} {final : Solver}
    (opening : solver.opening = .done (.ok verdict) final) :
    verdict = .unsatisfiable ∧ final = solver.opened.conclude .unsatisfiable := by
  have opens := solver.opens_opening
  rw [opening] at opens
  cases opens
  exact ⟨rfl, rfl⟩

theorem log_conclude_moved (solver : Solver) (iterations : Nat) (moves : List Move)
    (valuation : Valuation) (trail : Trail) (verdict : Verdict) :
    ((solver.moved iterations moves valuation trail).conclude verdict).log =
      solver.log.map fun (told : Array Event) =>
        told ++ (moves.map Event.move ++
          closingEvents (solver.counters.after iterations moves) verdict) := by
  have joined := congrArg Solver.log
    (({ solver with valuation, trail, counters := solver.counters.after iterations moves }
      : Solver).tell_tell (moves.map Event.move)
        (closingEvents (solver.counters.after iterations moves) verdict))
  exact joined

namespace Solves

variable {clock : Nat → Duration} {passes : List (List Move)} {verdict : Verdict} {final : Solver}

/-- The counters count the passes and their moves. -/
theorem counters_eq (solves : Solves clock solver passes verdict final) :
    final.counters = solver.counters.after passes.length passes.flatten := by
  cases solves with
  | done opening =>
      obtain ⟨_, rfl⟩ := eq_conclude_of_done opening
      simp [conclude, opened, tell, Counters.after]
  | searched opening run =>
      obtain rfl := eq_opened_of_search opening
      exact congrArg counters run.moved

/-- What is told are the moves of the passes, and then the counts and the verdict. -/
theorem log_eq (solves : Solves clock solver passes verdict final) :
    final.log = solver.log.map fun (told : Array Event) =>
      told ++ (passes.flatten.map Event.move ++ closingEvents final.counters verdict) := by
  rw [solves.counters_eq]
  cases solves with
  | done opening =>
      obtain ⟨rfl, rfl⟩ := eq_conclude_of_done opening
      simp [conclude, opened, tell, Counters.after]
  | searched opening run =>
      obtain rfl := eq_opened_of_search opening
      rw [run.moved, log_conclude_moved]
      rfl

/-- There are no more passes than the potential allows. -/
theorem length_le_potential (solves : Solves clock solver passes verdict final) :
    passes.length ≤ solver.potential := by
  cases solves with
  | done opening => exact Nat.zero_le _
  | searched opening run =>
      obtain rfl := eq_opened_of_search opening
      exact run.length_le_potential

/-- There are fewer decisions than passes, unless there are no passes. -/
theorem countP_isDecision_eq (solves : Solves clock solver passes verdict final) :
    passes.flatten.countP Move.isDecision = passes.length - 1 := by
  cases solves with
  | done opening => rfl
  | searched opening run =>
      have decided := run.countP_isDecision
      omega

/-- No pass propagates more literals than there are atoms. -/
theorem countP_isPropagation_le (solves : Solves clock solver passes verdict final)
    (consistent : solver.Consistent) :
    ∀ pass ∈ passes, pass.countP Move.isPropagation ≤ solver.cnf.atomCount := by
  cases solves with
  | done opening => simp
  | searched opening run =>
      obtain rfl := eq_opened_of_search opening
      exact run.countP_isPropagation_le consistent.opened

end Solves

/-- Whatever the clock, a search from a sound state ends with a verdict. -/
theorem exists_run_of_sound (sound : solver.Sound) (clock : Nat → Duration) :
    ∃ passes verdict final, Run clock solver passes (.ok verdict) final := by
  obtain ⟨last, result, final, last_sound, halted, search_eq⟩ := exists_halt_of_invariant
    (fun elapsed sound => sound.toConsistent.exists_step? elapsed)
    (fun sound stepped => sound.of_step? stepped) sound
  obtain ⟨verdict, rfl, _⟩ := last_sound.attests_of_step? halted
  obtain ⟨passes, run⟩ := search?_eq_some_iff.mp search_eq
  exact ⟨passes, verdict, final, run⟩

/-- Whatever the clock, solving for the first time ends with a verdict. -/
theorem exists_solves_of_sound (sound : solver.Sound) (fresh : solver.phase = .input)
    (clock : Nat → Duration) :
    ∃ passes verdict final, solver.solve? clock = some (.ok verdict, final) ∧
      Solves clock solver passes verdict final := by
  have opens := solver.opens_opening
  rw [solve?]
  generalize opening_eq : solver.opening = opening at opens
  cases opens with
  | refused again => exact (again fresh).elim
  | settled fresh empty => exact ⟨[], _, _, rfl, .done opening_eq⟩
  | search fresh nonempty =>
      obtain ⟨passes, verdict, last, run⟩ := exists_run_of_sound sound.opened clock
      have search_eq := search?_eq_some_iff.mpr ⟨passes, run⟩
      exact ⟨passes, verdict, _, by simp only [search_eq]; rfl, .searched opening_eq run⟩

theorem potential_of_load {settings : Settings} {cnf : Cnf}
    (loaded : load settings cnf = .ok solver) :
    solver.potential = 2 ^ (cnf.atomCount + 1) - 1 := by
  obtain ⟨_, rfl⟩ := load_eq_ok_iff.mp loaded
  have all_open : (Valuation.blank cnf.atomCount).openCount = cnf.atomCount := by
    simp [Valuation.openCount, Valuation.blank]
  rw [← treeSize_eq]
  simp [potential, Search.potential, reserve, all_open]

/-- Solving loaded clauses for the first time ends, whatever the limits and the clock.  Its search
has at most as many iterations as the decision tree over the atoms has nodes, makes fewer decisions
than that, flips included, and in each iteration propagates at most as many literals as there are
atoms.  These counts are those of the moves that are told, and the counters hold them as words. -/
theorem solve?_bounded_of_load {settings : Settings} {cnf : Cnf}
    (loaded : load settings cnf = .ok solver) (log : Option (Array Event))
    (clock : Nat → Duration) :
    ∃ passes verdict final,
      { solver with log }.solve? clock = some (.ok verdict, final) ∧
      Solves clock { solver with log } passes verdict final ∧
      passes.length ≤ 2 ^ (cnf.atomCount + 1) - 1 ∧
      passes.flatten.countP Move.isDecision ≤ 2 ^ (cnf.atomCount + 1) - 2 ∧
      (∀ pass ∈ passes, pass.countP Move.isPropagation ≤ cnf.atomCount) ∧
      final.counters = Counters.after {} passes.length passes.flatten ∧
      final.log = log.map fun (told : Array Event) =>
        told ++ (passes.flatten.map Event.move ++ closingEvents final.counters verdict) := by
  have sound := (sound_of_load loaded).listening log
  have potential_eq := potential_of_load loaded
  obtain ⟨_, rfl⟩ := load_eq_ok_iff.mp loaded
  obtain ⟨passes, verdict, final, solve_eq, solves⟩ := exists_solves_of_sound sound rfl clock
  have short : passes.length ≤ 2 ^ (cnf.atomCount + 1) - 1 :=
    potential_eq ▸ solves.length_le_potential
  have decided := solves.countP_isDecision_eq
  exact ⟨passes, verdict, final, solve_eq, solves, short, by omega,
    solves.countP_isPropagation_le sound.toConsistent, solves.counters_eq, solves.log_eq⟩

theorem solve?_bounded_allSigns :
    load {} allSigns = .ok { settings := {}, cnf := allSigns, valuation := #[none, none] } ∧
      ∃ passes verdict final,
        solve? (fun _ => ⟨1⟩)
            { settings := {}, cnf := allSigns, valuation := #[none, none], log := some #[] } =
          some (.ok verdict, final) ∧
        Solves (fun _ => ⟨1⟩)
            { settings := {}, cnf := allSigns, valuation := #[none, none], log := some #[] } passes
          verdict final ∧
        passes.length ≤ 2 ^ (2 + 1) - 1 ∧
        passes.flatten.countP Move.isDecision ≤ 2 ^ (2 + 1) - 2 ∧
        (∀ pass ∈ passes, pass.countP Move.isPropagation ≤ 2) ∧
        final.counters = Counters.after {} passes.length passes.flatten ∧
        final.log = (some #[]).map fun (told : Array Event) =>
          told ++ (passes.flatten.map Event.move ++ closingEvents final.counters verdict) := by
  have loaded : load {} allSigns =
      .ok { settings := {}, cnf := allSigns, valuation := #[none, none] } := by rfl
  exact ⟨loaded, solve?_bounded_of_load loaded (some #[]) fun _ => ⟨1⟩⟩

end Solver
end Search
end PropSat
