import PropSat.CommandLine.Trace
import PropSat.Formula.Text
import PropSat.Proofs.Search.Course

/-!
# Indentation of traces

The level of indentation is counted without a look at the trail.  It is the number of decisions on
the trail as long as the search goes forward, and one less from a conflict until a decision is
flipped.  A step back at level zero leaves no decision to go back over, so no line follows that
could show that the level does not sink.
-/

namespace PropSat
namespace CommandLine

open Search (Move Event Standing Replay Course Orderly Forced)
open Search (Solver)

/-- The level that the line of a move should have: the number of decisions on the trail for a
literal that follows and for a conflict, and otherwise one less than the place of the decision that
the move makes, flips or takes back. -/
inductive Indents (standing : Standing) : Move → Nat → Prop where
  | propagate {literal : Literal} {clause : Nat} :
      Indents standing (.propagate literal clause) standing.trail.decisionCount
  | conflict {clause : Nat} :
      Indents standing (.backtrack (some clause)) standing.trail.decisionCount
  | decide {literal : Literal} {level : Nat}
      (place : (standing.make (.decide literal)).trail.decisionCount = level + 1) :
      Indents standing (.decide literal) level
  | redecide {literal : Literal} {level : Nat} (place : standing.trail.decisionCount = level + 1) :
      Indents standing (.redecide literal) level
  | drop {level : Nat} (place : standing.trail.decisionCount = level + 1) :
      Indents standing (.backtrack none) level

/-- A line of a trace as it is written. -/
def TraceLine.written (line : TraceLine) : String :=
  String.join (List.replicate line.depth "  ") ++ line.text ++ "\n"

section Lines

variable {cnf : Cnf} {depth : Nat} {front back : List Move}

theorem traceFrom_append :
    traceFrom cnf depth (front ++ back) =
      traceFrom cnf depth front ++ traceFrom cnf (front.foldl depthAfter depth) back := by
  induction front generalizing depth with
  | nil => rfl
  | cons move front induction =>
      rw [List.cons_append, traceFrom, traceFrom, induction]
      rfl

theorem length_traceFrom : ∀ (moves : List Move) (depth : Nat),
    (traceFrom cnf depth moves).length = moves.length
  | [], _ => rfl
  | move :: rest, depth => by
      rw [traceFrom, List.length_cons, length_traceFrom rest, List.length_cons]

/-- The line of a move is indented as the moves before it say. -/
theorem getElem?_traceFrom (move : Move) :
    (traceFrom cnf depth (front ++ move :: back))[front.length]? =
      some { depth := front.foldl depthAfter depth, text := moveText cnf move } := by
  rw [traceFrom_append, List.getElem?_append_right (Nat.le_of_eq (length_traceFrom front depth)),
    length_traceFrom, Nat.sub_self]
  rfl

theorem TraceLine.written_eq (line : TraceLine) :
    line.written = .ofList (.replicate (2 * line.depth) ' ') ++ line.text ++ "\n" := by
  rw [written, ← Formula.toList_indent, String.ofList_toList, Formula.indent]

/-- No line begins with further blanks. -/
theorem head?_moveText (move : Move) : (moveText cnf move).toList.head? ≠ some ' ' := by
  cases move with
  | decide | redecide | propagate => simp [moveText]
  | backtrack conflict =>
      rw [moveText]
      split <;> simp

end Lines

/-- The counts and the verdict are no moves. -/
theorem movesOf_told (moves : List Move) (counters : Search.Counters) (verdict : Search.Verdict) :
    movesOf (moves.map Event.move ++ Search.closingEvents counters verdict) = moves := by
  rw [movesOf, List.filterMap_append, List.filterMap_map]
  exact (congrArg₂ (· ++ ·) List.filterMap_some rfl).trans (List.append_nil _)

/-- The level of indentation on a course. -/
def level (trail : Search.Trail) : Course → Nat
  | .forward => trail.decisionCount
  | .back => trail.decisionCount - 1

section Levels

variable {cnf : Cnf} {standing final : Standing} {move : Move} {moves : List Move}
  {course next last : Course}

/-- A justified move has its line at the level of the course, and leads to the level of the next. -/
theorem indents_of_turns (turns : course.Turns move next)
    (justified : standing.Justifies cnf move) :
    Indents standing move (level standing.trail course) ∧
      depthAfter (level standing.trail course) move = level (standing.make move).trail next := by
  have counted := Standing.decisionCount_make justified
  cases turns with
  | propagate => exact ⟨.propagate, counted.symm⟩
  | decide => exact ⟨.decide rfl, rfl⟩
  | conflict => exact ⟨.conflict, congrArg (· - 1) counted.symm⟩
  | drop =>
      obtain ⟨top, rest, frames_eq, _⟩ := justified
      have place : standing.trail.decisionCount = rest.length + 1 := congrArg List.length frames_eq
      have left : (standing.make (.backtrack none)).trail.decisionCount = rest.length :=
        Nat.add_right_cancel (counted.trans place)
      rw [level, level, place, left]
      exact ⟨.drop place, rfl⟩
  | redecide =>
      obtain ⟨top, rest, frames_eq, _⟩ := justified
      have place : standing.trail.decisionCount = rest.length + 1 := congrArg List.length frames_eq
      have left := counted.trans place
      rw [level, level, place]
      exact ⟨.redecide place, left.symm⟩

/-- The level that the moves count is the one of the course that they lead to. -/
theorem foldl_depthAfter (orderly : Orderly course moves last)
    (replay : Replay cnf standing moves final) :
    moves.foldl depthAfter (level standing.trail course) = level final.trail last := by
  induction orderly generalizing standing with
  | nil =>
      cases replay
      rfl
  | cons turns rest induction =>
      cases replay with
      | cons justified replay =>
          rw [List.foldl_cons, (indents_of_turns turns justified).2]
          exact induction replay

/-- Without a decision on the trail there is none to flip or to take back. -/
theorem nil_of_decisionCount_eq_zero (orderly : Orderly .back moves last)
    (replay : Replay cnf standing moves final) (empty : standing.trail.decisionCount = 0) :
    moves = [] := by
  cases orderly with
  | nil => rfl
  | cons turns rest =>
      cases replay with
      | cons justified replay =>
          have no_frames : standing.trail.frames = [] := List.length_eq_zero_iff.mp empty
          cases turns with
          | drop | redecide =>
              obtain ⟨top, rest, frames_eq, _⟩ := justified
              rw [no_frames] at frames_eq
              cases frames_eq

/-- After a step back at level zero, the search is over. -/
theorem nil_of_level_eq_zero {conflict : Option Nat}
    (orderly : Orderly course (.backtrack conflict :: moves) last)
    (replay : Replay cnf standing (.backtrack conflict :: moves) final)
    (zero : level standing.trail course = 0) : moves = [] := by
  cases orderly with
  | cons turns rest =>
      cases replay with
      | cons justified replay =>
          have counted := Standing.decisionCount_make justified
          cases turns with
          | conflict => exact nil_of_decisionCount_eq_zero rest replay (counted.trans zero)
          | drop =>
              have one_less : (standing.make (.backtrack none)).trail.decisionCount + 1 =
                  standing.trail.decisionCount := counted
              rw [level] at zero
              exact nil_of_decisionCount_eq_zero rest replay (by omega)

end Levels

section Searches

variable {solver start final : Solver} {clock : Nat → Duration} {before after : List (List Move)}
  {front back : List Move} {move : Move} {result : Except Fault Search.Verdict}

/-- In a run from an empty trail, the moves before a move count the level that its line should
have, and nothing follows on a step back at level zero. -/
theorem exists_indents (run : Solver.Run clock start (before ++ (front ++ move :: back) :: after)
      result final) (consistent : start.Consistent)
    (bare : start.trail.top.propagations = []) (empty : start.trail.decisionCount = 0) :
    ∃ current step standing, Solver.Reaches clock start before current ∧
      current.step? (clock current.counters.iterations.toNat) = some step ∧
      Solver.Pass (clock current.counters.iterations.toNat) current (front ++ move :: back) step ∧
      Replay start.cnf current.standing front standing ∧ standing.Justifies start.cnf move ∧
      Indents standing move ((before.flatten ++ front).foldl depthAfter 0) ∧
      ∀ conflict, move = .backtrack conflict →
        (before.flatten ++ front).foldl depthAfter 0 = 0 → back ++ after.flatten = [] := by
  obtain ⟨current, step, reaches, stepped, pass, goes_on⟩ := run.exists_reaches
  obtain ⟨replayed, current_consistent, current_bare, same⟩ := reaches.replay consistent bare
  obtain ⟨last, orderly, last_eq⟩ := pass.orderly
  have pass_replay := (pass.replay current_consistent current_bare).1
  rw [same] at pass_replay
  obtain ⟨course, front_orderly, back_orderly⟩ := orderly.exists_of_append
  obtain ⟨standing, front_replay, back_replay⟩ := pass_replay.exists_of_append
  have level_eq :
      (before.flatten ++ front).foldl depthAfter 0 = level standing.trail course := by
    have before_level := foldl_depthAfter reaches.orderly replayed
    have front_level := foldl_depthAfter front_orderly front_replay
    rw [List.foldl_append, ← front_level, ← empty]
    exact congrArg (front.foldl depthAfter) before_level
  refine ⟨current, step, standing, reaches, stepped, pass, front_replay, ?_⟩
  rw [level_eq]
  cases back_replay with
  | cons justified later =>
      cases back_orderly with
      | cons turns rest =>
          refine ⟨justified, (indents_of_turns turns justified).1, ?_⟩
          rintro conflict rfl zero
          obtain rfl := nil_of_level_eq_zero (.cons turns rest) (.cons justified later) zero
          by_cases ended : after = []
          · rw [ended]
            rfl
          · -- A search that goes on is going forward, but a step back leaves it going back.
            obtain ⟨next, step_eq⟩ := goes_on ended
            obtain rfl := last_eq next step_eq
            cases rest
            cases turns

/-- While loaded clauses are solved for the first time, each line of the trace that is told is
indented by two blanks for each decision on the trail, if a literal follows or a conflict is met,
and otherwise by two for each decision before the one that is made, flipped or taken back.  The
trail is the one that the moves of the present iteration lead to, from that of the solver.  Where
the indentation cannot sink any further, nothing follows. -/
theorem traceText_indented {settings : Settings} {cnf : Cnf}
    (loaded : Solver.load settings cnf = .ok solver) (clock : Nat → Duration) :
    ∃ passes verdict final told lines,
      solver.listen.solve? clock = some (.ok verdict, final) ∧ final.log = some told ∧
      movesOf told.toList = passes.flatten ∧
      traceText cnf told.toList = String.join lines ∧ lines.length = passes.flatten.length ∧
      ∀ before pass after front move back, passes = before ++ pass :: after →
        pass = front ++ move :: back →
        ∃ current step standing level,
          Solver.Reaches clock solver.listen.opened before current ∧
          current.step? (clock current.counters.iterations.toNat) = some step ∧
          Solver.Pass (clock current.counters.iterations.toNat) current pass step ∧
          Replay cnf current.standing front standing ∧ standing.Justifies cnf move ∧
          Indents standing move level ∧
          lines[(before.flatten ++ front).length]? =
            some (.ofList (.replicate (2 * level) ' ') ++ moveText cnf move ++ "\n") ∧
          (moveText cnf move).toList.head? ≠ some ' ' ∧
          ∀ conflict, move = .backtrack conflict → level = 0 → back ++ after.flatten = [] := by
  have sound := (Solver.sound_of_load loaded).listening (some #[])
  obtain ⟨_, rfl⟩ := Solver.load_eq_ok_iff.mp loaded
  obtain ⟨passes, verdict, final, solve_eq, solves⟩ :=
    Solver.exists_solves_of_sound sound rfl clock
  have moves_eq := movesOf_told passes.flatten final.counters verdict
  refine ⟨passes, verdict, final, _, (traceFrom cnf 0 passes.flatten).map TraceLine.written,
    solve_eq, solves.log_eq, ?_⟩
  simp only [Array.toList_appendList, List.nil_append, moves_eq, traceText]
  refine ⟨trivial, rfl, by rw [List.length_map, length_traceFrom], ?_⟩
  rintro before pass after front move back passes_eq rfl
  have flat_eq : passes.flatten = before.flatten ++ front ++ move :: (back ++ after.flatten) := by
    rw [passes_eq]
    simp
  rw [flat_eq, List.getElem?_map, getElem?_traceFrom, Option.map_some, TraceLine.written_eq]
  clear moves_eq flat_eq
  cases solves with
  | done opening => simp at passes_eq
  | searched opening run =>
      obtain rfl := Solver.eq_opened_of_search opening
      rw [passes_eq] at run
      obtain ⟨current, step, standing, reaches, stepped, pass, replay, justified, indents, ended⟩ :=
        exists_indents run sound.toConsistent.opened rfl rfl
      exact ⟨current, step, standing, _, reaches, stepped, pass, replay, justified, indents, rfl,
        head?_moveText move, ended⟩

theorem traceText_indented_allSigns :
    Solver.load {} Solver.allSigns =
        .ok { settings := {}, cnf := Solver.allSigns, valuation := #[none, none] } ∧
      ∃ passes verdict final told lines,
        Solver.solve? (fun _ => ⟨1⟩)
            { settings := {}, cnf := Solver.allSigns, valuation := #[none, none], log := some #[] } =
          some (.ok verdict, final) ∧
        final.log = some told ∧ movesOf told.toList = passes.flatten ∧
        traceText Solver.allSigns told.toList = String.join lines ∧
        lines.length = passes.flatten.length ∧
        ∀ before pass after front move back, passes = before ++ pass :: after →
          pass = front ++ move :: back →
          ∃ current step standing level,
            Solver.Reaches (fun _ => ⟨1⟩)
                (Solver.opened
                  { settings := {}
                    cnf := Solver.allSigns
                    valuation := #[none, none]
                    log := some #[] })
                before current ∧
              current.step? ⟨1⟩ = some step ∧ Solver.Pass ⟨1⟩ current pass step ∧
              Replay Solver.allSigns current.standing front standing ∧
              standing.Justifies Solver.allSigns move ∧ Indents standing move level ∧
              lines[(before.flatten ++ front).length]? =
                some (.ofList (.replicate (2 * level) ' ') ++ moveText Solver.allSigns move ++
                  "\n") ∧
              (moveText Solver.allSigns move).toList.head? ≠ some ' ' ∧
              ∀ conflict, move = .backtrack conflict → level = 0 → back ++ after.flatten = [] := by
  have loaded : Solver.load {} Solver.allSigns =
      .ok { settings := {}, cnf := Solver.allSigns, valuation := #[none, none] } := by rfl
  exact ⟨loaded, traceText_indented loaded fun _ => ⟨1⟩⟩

end Searches

end CommandLine
end PropSat
