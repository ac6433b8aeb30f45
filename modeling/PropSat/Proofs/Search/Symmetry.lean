import Mathlib.Data.List.Forall2
import Mathlib.Logic.Equiv.Basic
import PropSat.Proofs.Search.Determinacy
import PropSat.Proofs.Search.Replay
import PropSat.Proofs.SignedRenaming

/-!
# Symmetry of a search

Renaming the literals of the clauses renames a search pass by pass: nothing in it depends on how
atoms are numbered or on which of two literals is the positive one.  Only the order in which a trail
lists what followed at a level is that of the new names.
-/

namespace PropSat

open Search

namespace SignedRenaming

variable {count : Nat} (mirror : SignedRenaming count)

/-- The forced literal with its new name. -/
def forced (forced : Forced) : Forced := { forced with literal := mirror.literal forced.literal }

/-- The move on the new names. -/
def move : Move → Move
  | .decide literal => .decide (mirror.literal literal)
  | .redecide literal => .redecide (mirror.literal literal)
  | .propagate literal clause => .propagate (mirror.literal literal) clause
  | .backtrack conflict => .backtrack conflict

theorem map_move_forced (forced : List Forced) :
    (forced.map Forced.move).map mirror.move = (forced.map mirror.forced).map Forced.move := by
  rw [List.map_map, List.map_map]
  rfl

theorem after_map_move (counters : Counters) (iterations : Nat) (moves : List Move) :
    counters.after iterations (moves.map mirror.move) = counters.after iterations moves := by
  have decision_kept : Move.isDecision ∘ mirror.move = Move.isDecision := by
    funext move
    cases move <;> rfl
  have propagation_kept : Move.isPropagation ∘ mirror.move = Move.isPropagation := by
    funext move
    cases move <;> rfl
  have conflict_kept : Move.isConflict ∘ mirror.move = Move.isConflict := by
    funext move
    cases move <;> rfl
  simp only [Counters.after, List.countP_map, decision_kept, propagation_kept, conflict_kept]

/-- Whether a level is another one renamed, up to the order in which it lists what followed. -/
structure MapsLevel (left right : Level) : Prop where
  /-- Both levels were entered by flipping, or neither was. -/
  flipped_eq : right.flipped = left.flipped
  /-- What followed at one level followed at the other. -/
  mem_iff (name : Literal) : name ∈ right.propagations ↔ name ∈ left.propagations.map mirror.literal

/-- Whether a frame is another one renamed. -/
structure MapsFrame (left right : Frame) : Prop
    extends mirror.MapsLevel left.toLevel right.toLevel where
  /-- The same decision was made. -/
  decision_eq : right.decision = mirror.literal left.decision

/-- Whether a trail is another one renamed. -/
structure MapsTrail (left right : Trail) : Prop where
  /-- The same followed without any decision. -/
  root : mirror.MapsLevel left.root right.root
  /-- The frames are the same in turn. -/
  frames : List.Forall₂ mirror.MapsFrame left.frames right.frames

/-- Whether a retreat is another one renamed. -/
structure MapsRetreat (left right : Retreat) : Prop where
  /-- The same number of frames was given up. -/
  dropped_eq : right.dropped = left.dropped
  /-- The same decision was flipped. -/
  redecided_eq : right.redecided = left.redecided.map mirror.literal
  /-- The frames that remain are the same in turn. -/
  frames : List.Forall₂ mirror.MapsFrame left.frames right.frames
  /-- The valuations that belong to them are the same. -/
  valuation : mirror.MapsValuation left.valuation right.valuation

/-- Whether unit closure ends in the same way. -/
inductive MapsClosure : Closure → Closure → Prop where
  | settled {left right : Valuation} (valuation : mirror.MapsValuation left right) :
      MapsClosure (.settled left) (.settled right)
  | conflict (clause : Nat) : MapsClosure (.conflict clause) (.conflict clause)

/-- Whether a solver is another one renamed, whatever observers were told. -/
structure MapsSolver (left right : Solver) : Prop where
  /-- The same limits hold. -/
  settings_eq : right.settings = left.settings
  /-- The clauses are the same. -/
  cnf_eq : right.cnf = mirror.cnf left.cnf
  /-- The valuations are the same. -/
  valuation : mirror.MapsValuation left.valuation right.valuation
  /-- The trails are the same. -/
  trail : mirror.MapsTrail left.trail right.trail
  /-- The same has been counted. -/
  counters_eq : right.counters = left.counters
  /-- Both have come as far. -/
  phase_eq : right.phase = left.phase

/-- Whether the outcomes of an iteration are the same. -/
inductive MapsStep : Step → Step → Prop where
  | next {left right : Solver} (solver : mirror.MapsSolver left right) :
      MapsStep (.next left) (.next right)
  | halt {left right : Solver} (result : Except Fault Verdict)
      (solver : mirror.MapsSolver left right) :
      MapsStep (.halt result left) (.halt result right)

variable {mirror}

theorem MapsLevel.record {left right : Level} (maps : mirror.MapsLevel left right)
    (literal : Literal) :
    mirror.MapsLevel (left.record literal) (right.record (mirror.literal literal)) where
  flipped_eq := maps.flipped_eq
  mem_iff name := by
    simp only [Level.record, Literal.mem_insertInto, maps.mem_iff, List.mem_map]
    grind

theorem MapsFrame.record {left right : Frame} (maps : mirror.MapsFrame left right)
    (literal : Literal) :
    mirror.MapsFrame (left.record literal) (right.record (mirror.literal literal)) :=
  ⟨maps.toMapsLevel.record literal, maps.decision_eq⟩

theorem MapsFrame.ofDecision (literal : Literal) :
    mirror.MapsFrame (.ofDecision literal) (.ofDecision (mirror.literal literal)) :=
  ⟨⟨rfl, by simp [Frame.ofDecision]⟩, rfl⟩

theorem MapsFrame.flip {left right : Frame} (maps : mirror.MapsFrame left right) :
    mirror.MapsFrame left.flip right.flip where
  flipped_eq := rfl
  mem_iff := by simp [Frame.flip, Level.flip]
  decision_eq := by
    rw [Frame.flip, Frame.flip, maps.decision_eq]
    exact (mirror.literal_negate _).symm

namespace MapsTrail

variable {left right : Trail}

theorem push (maps : mirror.MapsTrail left right) (literal : Literal) :
    mirror.MapsTrail (left.push literal) (right.push (mirror.literal literal)) :=
  ⟨maps.root, .cons (.ofDecision literal) maps.frames⟩

theorem record (maps : mirror.MapsTrail left right) (literal : Literal) :
    mirror.MapsTrail (left.record literal) (right.record (mirror.literal literal)) := by
  obtain ⟨leftRoot, leftFrames⟩ := left
  obtain ⟨rightRoot, rightFrames⟩ := right
  obtain ⟨root, frames⟩ := maps
  cases frames with
  | nil => exact ⟨root.record literal, .nil⟩
  | cons top rest => exact ⟨root, .cons (top.record literal) rest⟩

theorem recordAll (maps : mirror.MapsTrail left right) (literals : List Literal) :
    mirror.MapsTrail (left.recordAll literals)
      (right.recordAll (literals.map mirror.literal)) := by
  induction literals generalizing left right with
  | nil => exact maps
  | cons literal rest induction => exact induction (maps.record literal)

theorem withFrames (maps : mirror.MapsTrail left right) {leftFrames rightFrames : List Frame}
    (frames : List.Forall₂ mirror.MapsFrame leftFrames rightFrames) :
    mirror.MapsTrail { left with frames := leftFrames } { right with frames := rightFrames } :=
  ⟨maps.root, frames⟩

end MapsTrail

namespace MapsValuation

variable {left right : Valuation}

theorem clearAll_map (maps : mirror.MapsValuation left right) (literals : List Literal) :
    mirror.MapsValuation (left.clearAll literals)
      (right.clearAll (literals.map mirror.literal)) := by
  induction literals generalizing left right with
  | nil => exact maps
  | cons literal rest induction => exact induction (maps.clear literal.atom)

theorem clearAll (maps : mirror.MapsValuation left right) {leftLevel rightLevel : Level}
    (level : mirror.MapsLevel leftLevel rightLevel) :
    mirror.MapsValuation (left.clearAll leftLevel.propagations)
      (right.clearAll rightLevel.propagations) := by
  -- The levels list the same literals, though in different orders; clearing does not look at those.
  rw [Valuation.clearAll_congr level.mem_iff]
  exact maps.clearAll_map leftLevel.propagations

variable {leftFrame rightFrame : Frame}

theorem undo (maps : mirror.MapsValuation left right)
    (frame : mirror.MapsFrame leftFrame rightFrame) :
    mirror.MapsValuation (leftFrame.undo left) (rightFrame.undo right) := by
  rw [Frame.undo, Frame.undo, frame.decision_eq]
  exact (maps.clearAll frame.toMapsLevel).clear leftFrame.decision.atom

theorem revise (maps : mirror.MapsValuation left right)
    (frame : mirror.MapsFrame leftFrame rightFrame) :
    mirror.MapsValuation (leftFrame.revise left) (rightFrame.revise right) := by
  rw [Frame.revise, Frame.revise, frame.decision_eq, ← mirror.literal_negate]
  exact (maps.clearAll frame.toMapsLevel).assign leftFrame.decision.negate

theorem within (maps : mirror.MapsValuation left right)
    (frame : mirror.MapsFrame leftFrame rightFrame) (inside : leftFrame.within left.size = true) :
    rightFrame.within right.size = true := by
  simp only [Frame.within, Bool.and_eq_true, decide_eq_true_eq, List.all_eq_true, maps.left_size,
    maps.right_size] at inside ⊢
  obtain ⟨decision_inside, rest_inside⟩ := inside
  refine ⟨?_, ?_⟩
  · rw [frame.decision_eq]
    exact (mirror.atomOf_lt_iff _).mpr decision_inside
  · intro name member
    obtain ⟨literal, literal_member, rfl⟩ := List.mem_map.mp ((frame.mem_iff name).mp member)
    exact (mirror.atomOf_lt_iff _).mpr (rest_inside literal literal_member)

/-- Going back over the same frames is the same. -/
theorem exists_retreat? (maps : mirror.MapsValuation left right)
    {leftFrames rightFrames : List Frame}
    (frames : List.Forall₂ mirror.MapsFrame leftFrames rightFrames) {retreat : Retreat}
    (back : retreat? left leftFrames = some retreat) :
    ∃ renamed, retreat? right rightFrames = some renamed ∧
      mirror.MapsRetreat retreat renamed := by
  induction frames generalizing left right retreat with
  | nil =>
      cases back
      exact ⟨_, rfl, rfl, rfl, .nil, maps⟩
  | @cons leftTop rightTop leftRest rightRest top rest induction =>
      rw [retreat?] at back ⊢
      split at back
      · rename_i inside
        rw [if_pos (maps.within top inside), top.flipped_eq]
        split at back
        · rename_i flipped
          obtain ⟨later, later_eq, rfl⟩ := Option.map_eq_some_iff.mp back
          obtain ⟨renamed, renamed_eq, same⟩ := induction (maps.undo top) later_eq
          rw [if_pos flipped, renamed_eq]
          exact ⟨_, rfl, congrArg (· + 1) same.dropped_eq, same.redecided_eq, same.frames,
            same.valuation⟩
        · rename_i not_flipped
          cases back
          rw [if_neg not_flipped]
          exact ⟨_, rfl, rfl, congrArg some top.flip.decision_eq, .cons top.flip rest,
            maps.revise top⟩
      · cases back

theorem status?_eq (maps : mirror.MapsValuation left right) (cnf : Cnf) :
    (mirror.cnf cnf).status? right = cnf.status? left :=
  Cnf.statusFrom?_map mirror.literal_injective maps.truth?_eq 0 cnf.clauses

theorem firstForced?_eq (maps : mirror.MapsValuation left right) (cnf : Cnf) :
    (mirror.cnf cnf).firstForced? right =
      (cnf.firstForced? left).map (Option.map (Prod.map mirror.literal id)) :=
  Cnf.firstFrom?_map mirror.literal_injective maps.truth?_eq
    (Clause.Status.forced?_map mirror.literal) 0 cnf.clauses

theorem firstCandidate?_eq (maps : mirror.MapsValuation left right) (cnf : Cnf) :
    (mirror.cnf cnf).firstCandidate? right =
      (cnf.firstCandidate? left).map (Option.map mirror.literal) := by
  have first_eq := Cnf.firstFrom?_map mirror.literal_injective maps.truth?_eq
    (Clause.Status.candidate?_map mirror.literal) 0 cnf.clauses
  rw [Cnf.firstCandidate?, Cnf.firstCandidate?, SignedRenaming.cnf, first_eq, Option.map_map,
    Option.map_map]
  refine congrArg (Option.map · _) (funext fun found => ?_)
  cases found <;> rfl

/-- Following unit clauses forces the same literals and ends in the same way. -/
theorem exists_close? {cnf : Cnf} (maps : mirror.MapsValuation left right) {forced : List Forced}
    {closure : Closure} (closure_eq : close? cnf left = some (forced, closure)) :
    ∃ renamed, close? (mirror.cnf cnf) right = some (forced.map mirror.forced, renamed) ∧
      mirror.MapsClosure closure renamed := by
  fun_induction close? cnf left generalizing right forced closure with
  | case1 | case3 => simp at closure_eq
  | case2 left clause violated =>
      cases closure_eq
      exact ⟨_, close?_of_violated ((maps.status?_eq cnf).trans violated), .conflict clause⟩
  | case4 left status not_violated status_eq none_forced =>
      cases closure_eq
      have none_renamed : (mirror.cnf cnf).firstForced? right = some none := by
        rw [maps.firstForced?_eq, none_forced]
        rfl
      exact ⟨_, close?_of_not_forced ((maps.status?_eq cnf).trans status_eq)
        (fun clause same => not_violated clause same) none_renamed, .settled maps⟩
  | case5 left status not_violated status_eq literal clause found induction =>
      obtain ⟨⟨later, outcome⟩, later_eq, result_eq⟩ := Option.map_eq_some_iff.mp closure_eq
      simp only [Prod.mk.injEq] at result_eq
      obtain ⟨rfl, rfl⟩ := result_eq
      obtain ⟨renamed, renamed_eq, same⟩ := induction (maps.assign literal) later_eq
      have found_renamed : (mirror.cnf cnf).firstForced? right =
          some (some (mirror.literal literal, clause)) := by
        rw [maps.firstForced?_eq, found]
        rfl
      refine ⟨renamed, ?_, same⟩
      rw [close?_of_forced ((maps.status?_eq cnf).trans status_eq)
        (fun clause same => not_violated clause same) found_renamed, renamed_eq]
      rfl

end MapsValuation

theorem MapsRetreat.moves_eq {left right : Retreat} (maps : mirror.MapsRetreat left right) :
    right.moves = left.moves.map mirror.move := by
  rw [Retreat.moves, Retreat.moves, maps.dropped_eq, maps.redecided_eq, List.map_append,
    List.map_replicate]
  cases left.redecided <;> rfl

namespace MapsSolver

variable {left right : Solver}

theorem moved (maps : mirror.MapsSolver left right) {leftValuation rightValuation : Valuation}
    (valuation : mirror.MapsValuation leftValuation rightValuation) {leftTrail rightTrail : Trail}
    (trail : mirror.MapsTrail leftTrail rightTrail) {moves renamed : List Move}
    (moves_eq : renamed = moves.map mirror.move) :
    mirror.MapsSolver (left.moved 1 moves leftValuation leftTrail)
      (right.moved 1 renamed rightValuation rightTrail) where
  settings_eq := maps.settings_eq
  cnf_eq := maps.cnf_eq
  valuation := valuation
  trail := trail
  counters_eq := by
    rw [Solver.moved, Solver.moved, moves_eq, mirror.after_map_move, maps.counters_eq]
    rfl
  phase_eq := maps.phase_eq

theorem opened (maps : mirror.MapsSolver left right) :
    mirror.MapsSolver left.opened right.opened :=
  ⟨maps.settings_eq, maps.cnf_eq, maps.valuation, maps.trail, maps.counters_eq, rfl⟩

theorem conclude (maps : mirror.MapsSolver left right) (verdict : Verdict) :
    mirror.MapsSolver (left.conclude verdict) (right.conclude verdict) :=
  ⟨maps.settings_eq, maps.cnf_eq, maps.valuation, maps.trail, maps.counters_eq,
    congrArg (Phase.after · verdict) maps.phase_eq⟩

/-- Where there is a conflict to go back from, there is the same one on the new names. -/
theorem exists_retreat (maps : mirror.MapsSolver left right) {forced : List Forced} {clause : Nat}
    {retreat : Retreat}
    (conflict : close? left.cnf left.valuation = some (forced, .conflict clause))
    (back : retreat? left.valuation left.trail.frames = some retreat) :
    close? right.cnf right.valuation = some (forced.map mirror.forced, .conflict clause) ∧
      ∃ renamed, retreat? right.valuation right.trail.frames = some renamed ∧
        mirror.MapsRetreat retreat renamed ∧
        (forced.map mirror.forced).map Forced.move ++ [Move.backtrack (some clause)] ++
            renamed.moves =
          (forced.map Forced.move ++ [Move.backtrack (some clause)] ++ retreat.moves).map
            mirror.move := by
  obtain ⟨_, conflict_renamed, same_end⟩ := maps.valuation.exists_close? conflict
  cases same_end
  rw [← maps.cnf_eq] at conflict_renamed
  obtain ⟨renamed, back_renamed, same⟩ := maps.valuation.exists_retreat? maps.trail.frames back
  refine ⟨conflict_renamed, renamed, back_renamed, same, ?_⟩
  rw [same.moves_eq, ← mirror.map_move_forced, List.map_append, List.map_append]
  rfl

/-- Where there is no conflict, there is none on the new names. -/
theorem exists_settled (maps : mirror.MapsSolver left right) {forced : List Forced}
    {closed : Valuation}
    (settled : close? left.cnf left.valuation = some (forced, .settled closed)) :
    ∃ renamed, close? right.cnf right.valuation =
        some (forced.map mirror.forced, .settled renamed) ∧
      mirror.MapsValuation closed renamed ∧
      mirror.MapsTrail (left.trail.recordAll (forced.map Forced.literal))
        (right.trail.recordAll ((forced.map mirror.forced).map Forced.literal)) := by
  obtain ⟨_, settled_renamed, same_end⟩ := maps.valuation.exists_close? settled
  cases same_end with
  | @settled _ renamed same =>
      rw [← maps.cnf_eq] at settled_renamed
      have literals_eq : (forced.map mirror.forced).map Forced.literal =
          (forced.map Forced.literal).map mirror.literal := by
        rw [List.map_map, List.map_map]
        rfl
      rw [literals_eq]
      exact ⟨renamed, settled_renamed, same, maps.trail.recordAll _⟩

theorem firstCandidate?_eq (maps : mirror.MapsSolver left right) {closed renamed : Valuation}
    (same : mirror.MapsValuation closed renamed) {literal : Literal}
    (candidate : left.cnf.firstCandidate? closed = some (some literal)) :
    right.cnf.firstCandidate? renamed = some (some (mirror.literal literal)) := by
  rw [maps.cnf_eq, same.firstCandidate?_eq, candidate]
  rfl

/-- A pass in time is made on the new names as well. -/
theorem exists_pass (maps : mirror.MapsSolver left right) {elapsed : Duration}
    {moves : List Move} {step : Step} (pass : Solver.Pass elapsed left moves step)
    (in_time : elapsed ≤ left.settings.timeLimit.value) (other : Duration) :
    ∃ renamed, Solver.Pass other right (moves.map mirror.move) renamed ∧
      mirror.MapsStep step renamed := by
  cases pass with
  | late exceeded => exact absurd in_time exceeded
  | flipped conflict back redecided =>
      obtain ⟨conflict_renamed, renamed, back_renamed, same, moves_eq⟩ :=
        maps.exists_retreat conflict back
      refine ⟨_, ?_, .next (maps.moved same.valuation (maps.trail.withFrames same.frames) moves_eq)⟩
      rw [← moves_eq]
      exact .flipped conflict_renamed back_renamed
        (same.redecided_eq.trans (by rw [redecided]; rfl))
  | exhausted conflict back redecided =>
      obtain ⟨conflict_renamed, renamed, back_renamed, same, moves_eq⟩ :=
        maps.exists_retreat conflict back
      refine ⟨_, ?_,
        .halt _ (maps.moved same.valuation (maps.trail.withFrames same.frames) moves_eq)⟩
      rw [← moves_eq]
      exact .exhausted conflict_renamed back_renamed
        (same.redecided_eq.trans (by rw [redecided]; rfl))
  | @decided forced closed literal settled candidate below =>
      obtain ⟨renamed, settled_renamed, same, trail⟩ := maps.exists_settled settled
      have candidate_renamed := maps.firstCandidate?_eq same candidate
      have moves_eq : (forced.map mirror.forced).map Forced.move ++
          [Move.decide (mirror.literal literal)] =
            (forced.map Forced.move ++ [Move.decide literal]).map mirror.move := by
        rw [← mirror.map_move_forced, List.map_append]
        rfl
      refine ⟨_, ?_, .next (maps.moved (same.assign literal) (trail.push literal) moves_eq)⟩
      rw [← moves_eq]
      exact .decided settled_renamed candidate_renamed
        (by rwa [maps.settings_eq, maps.counters_eq])
  | @limited forced closed literal settled candidate reached =>
      obtain ⟨renamed, settled_renamed, same, trail⟩ := maps.exists_settled settled
      have candidate_renamed := maps.firstCandidate?_eq same candidate
      refine ⟨_, ?_, .halt _ (maps.moved same trail (mirror.map_move_forced forced).symm)⟩
      rw [mirror.map_move_forced]
      exact .limited settled_renamed candidate_renamed
        (by rwa [maps.settings_eq, maps.counters_eq])
  | @satisfied forced closed settled all_satisfied =>
      obtain ⟨renamed, settled_renamed, same, trail⟩ := maps.exists_settled settled
      refine ⟨_, ?_, .halt _ (maps.moved same trail (mirror.map_move_forced forced).symm)⟩
      rw [mirror.map_move_forced]
      exact .satisfied settled_renamed
        (by rw [maps.cnf_eq, same.status?_eq, all_satisfied])

/-- A run in time is made on the new names as well. -/
theorem exists_run (maps : mirror.MapsSolver left right) {clock other : Nat → Duration}
    {passes : List (List Move)} {result : Except Fault Verdict} {final : Solver}
    (run : Solver.Run clock left passes result final)
    (in_time : ∀ count, clock count ≤ left.settings.timeLimit.value)
    (other_in_time : ∀ count, other count ≤ left.settings.timeLimit.value) :
    ∃ renamed, Solver.Run other right (passes.map (List.map mirror.move)) result renamed ∧
      mirror.MapsSolver final renamed := by
  -- The clocks may differ: what a pass in time does is the same however late it is.
  induction run generalizing right with
  | @halt left final moves result stepped pass =>
      obtain ⟨_, renamed_pass, same⟩ := maps.exists_pass pass (in_time _)
        (other right.counters.iterations.toNat)
      cases same with
      | halt _ solver =>
          exact ⟨_, .halt (renamed_pass.step?_eq (maps.settings_eq ▸ other_in_time _))
            renamed_pass, solver⟩
  | @next left next final moves passes result stepped pass rest induction =>
      obtain ⟨_, renamed_pass, same⟩ := maps.exists_pass pass (in_time _)
        (other right.counters.iterations.toNat)
      cases same with
      | next solver =>
          have same_settings : next.settings = left.settings :=
            (Solver.SameProblem.of_step? stepped).settings_eq
          rw [← same_settings] at in_time
          obtain ⟨renamed, renamed_run, final_same⟩ :=
            induction solver in_time (same_settings ▸ other_in_time)
          exact ⟨renamed, .next (renamed_pass.step?_eq (maps.settings_eq ▸ other_in_time _))
            renamed_pass renamed_run, final_same⟩

theorem isEmpty_cnf (mirror : SignedRenaming count) (cnf : Cnf) :
    (mirror.cnf cnf).clauses.any List.isEmpty = cnf.clauses.any List.isEmpty := by
  rw [SignedRenaming.cnf, List.any_map]
  congr 1
  funext clause
  exact List.isEmpty_map

/-- Solving in time goes the same way on the new names. -/
theorem exists_solves (maps : mirror.MapsSolver left right) {clock other : Nat → Duration}
    {passes : List (List Move)} {verdict : Verdict} {final : Solver}
    (solves : Solver.Solves clock left passes verdict final)
    (in_time : ∀ count, clock count ≤ left.settings.timeLimit.value)
    (other_in_time : ∀ count, other count ≤ left.settings.timeLimit.value) :
    ∃ renamed, Solver.Solves other right (passes.map (List.map mirror.move)) verdict renamed ∧
      mirror.MapsSolver final renamed := by
  have opens := left.opens_opening
  cases solves with
  | done opening =>
      rw [opening] at opens
      cases opens with
      | settled fresh empty =>
          rw [← isEmpty_cnf mirror, ← maps.cnf_eq] at empty
          have settled : Solver.Opens right _ := .settled (maps.phase_eq.trans fresh) empty
          exact ⟨_, .done settled.opening_eq, maps.opened.conclude _⟩
  | searched opening run =>
      rw [opening] at opens
      cases opens with
      | search fresh nonempty =>
          rw [← isEmpty_cnf mirror, ← maps.cnf_eq] at nonempty
          have search : Solver.Opens right _ := .search (maps.phase_eq.trans fresh) nonempty
          obtain ⟨renamed, renamed_run, same⟩ :=
            maps.opened.exists_run run in_time other_in_time
          exact ⟨_, .searched search.opening_eq renamed_run, same.conclude _⟩

end MapsSolver

end SignedRenaming

namespace Search
namespace Solver

/-- Solving loaded clauses for the first time, in time, is the same whichever way their atoms are
permuted and the two literals on some of them exchanged: the renamed clauses load too, the verdict
and the counters are the same, and the moves that are told, the valuation and the trail are the
renamed ones. -/
theorem solve?_mirrored_of_load {settings : Settings} {cnf : Cnf} {solver : Solver}
    (loaded : load settings cnf = .ok solver) (mirror : SignedRenaming cnf.atomCount)
    {clock other : Nat → Duration}
    (in_time : ∀ count, clock count ≤ settings.timeLimit.value)
    (other_in_time : ∀ count, other count ≤ settings.timeLimit.value) (told : Array Event) :
    ∃ mirrored, ∃ moves : List Move, ∃ verdict final final',
      load settings (mirror.cnf cnf) = .ok mirrored ∧
      { solver with log := some told }.solve? clock = some (.ok verdict, final) ∧
      { mirrored with log := some told }.solve? other = some (.ok verdict, final') ∧
      final.log = some (told ++
        (moves.map Event.move ++ closingEvents final.counters verdict)) ∧
      final'.log = some (told ++
        ((moves.map mirror.move).map Event.move ++ closingEvents final'.counters verdict)) ∧
      final'.counters = final.counters ∧
      mirror.MapsValuation final.valuation final'.valuation ∧
      mirror.MapsTrail final.trail final'.trail := by
  have sound := (sound_of_load loaded).listening (some told)
  obtain ⟨in_range, rfl⟩ := load_eq_ok_iff.mp loaded
  obtain ⟨passes, verdict, final, solve_eq, solves⟩ := exists_solves_of_sound sound rfl clock
  have mirrored_loaded : load settings (mirror.cnf cnf) =
      .ok { settings, cnf := mirror.cnf cnf, valuation := .blank cnf.atomCount } :=
    load_eq_ok_iff.mpr ⟨mirror.inRange_cnf rfl in_range, rfl⟩
  have maps : mirror.MapsSolver
      { settings, cnf, valuation := .blank cnf.atomCount, log := some told }
      { settings
        cnf := mirror.cnf cnf
        valuation := .blank cnf.atomCount
        log := some told } :=
    ⟨rfl, rfl, .blank, ⟨⟨rfl, by simp⟩, .nil⟩, rfl, rfl⟩
  obtain ⟨final', mirrored_solves, same⟩ := maps.exists_solves solves in_time other_in_time
  have mirrored_log := mirrored_solves.log_eq
  rw [← List.map_flatten] at mirrored_log
  exact ⟨_, passes.flatten, verdict, final, final', mirrored_loaded, solve_eq,
    mirrored_solves.solve?_eq, solves.log_eq, mirrored_log, same.counters_eq, same.valuation,
    same.trail⟩

/-- Two atoms in each other's place, the first with its literals exchanged. -/
def crossed : SignedRenaming 2 where
  atoms := Equiv.swap 0 1
  swapped atom := atom == 0

theorem solve?_mirrored_allSigns :
    load {} allSigns = .ok { settings := {}, cnf := allSigns, valuation := #[none, none] } ∧
      (∀ count : Nat, (fun _ => ⟨1⟩ : Nat → Duration) count ≤ ({} : Settings).timeLimit.value) ∧
      ∃ mirrored, ∃ moves : List Move, ∃ verdict final final',
        load {} (crossed.cnf allSigns) = .ok mirrored ∧
        solve? (fun _ => ⟨1⟩)
            { settings := {}, cnf := allSigns, valuation := #[none, none], log := some #[] } =
          some (.ok verdict, final) ∧
        solve? (fun _ => ⟨1⟩) { mirrored with log := some #[] } = some (.ok verdict, final') ∧
        final.log = some ((#[] : Array Event) ++
          (moves.map Event.move ++ closingEvents final.counters verdict)) ∧
        final'.log = some ((#[] : Array Event) ++
          ((moves.map crossed.move).map Event.move ++ closingEvents final'.counters verdict)) ∧
        final'.counters = final.counters ∧
        crossed.MapsValuation final.valuation final'.valuation ∧
        crossed.MapsTrail final.trail final'.trail := by
  have loaded : load {} allSigns =
      .ok { settings := {}, cnf := allSigns, valuation := #[none, none] } := by rfl
  have in_time : ∀ count : Nat,
      (fun _ => ⟨1⟩ : Nat → Duration) count ≤ ({} : Settings).timeLimit.value := by
    intro count
    change (⟨1⟩ : Duration) ≤ Duration.longest
    decide
  exact ⟨loaded, in_time, solve?_mirrored_of_load loaded crossed in_time in_time #[]⟩

end Solver
end Search
end PropSat
