import PropSat.Proofs.Search.Passes

/-!
# Replaying a search

An observer who is told the moves of a search can follow it without the solver: the moves are
replayed from a blank valuation and an empty trail, each one is justified by the clauses where it is
made, and the replay ends with the valuation and the trail of the solver.  Between iterations
nothing has followed yet at the top of the trail, which is why a conflict can drop all of it.
-/

namespace PropSat

namespace Cnf

/-- The clause at the index that is found with a forced literal is unit. -/
theorem unit_of_firstForced? {cnf : Cnf} {valuation : Valuation} {literal : Literal} {index : Nat}
    (found : cnf.firstForced? valuation = some (some (literal, index))) :
    ∃ clause, cnf.clauses[index]? = some clause ∧
      clause.status? valuation = some (.unit literal) := by
  obtain ⟨offset, clause, status, rfl, at_offset, status_eq, forced⟩ :=
    exists_getElem?_of_firstFrom? found
  rw [Nat.zero_add]
  cases status with
  | satisfied | violated | undecided => cases forced
  | unit other =>
      cases forced
      exact ⟨clause, at_offset, status_eq⟩

/-- The clause at the index that is found violated is so. -/
theorem violated_of_status? {cnf : Cnf} {valuation : Valuation} {index : Nat}
    (status_eq : cnf.status? valuation = some (.violated index)) :
    ∃ clause, cnf.clauses[index]? = some clause ∧ clause.status? valuation = some .violated := by
  obtain ⟨before, clause, after, clauses_eq, rfl, violated, _⟩ := describes_of_statusFrom? status_eq
  refine ⟨clause, ?_, violated⟩
  rw [clauses_eq, Nat.zero_add, List.getElem?_append_right (Nat.le_refl _), Nat.sub_self]
  rfl

end Cnf

theorem Valuation.clearAll_congr {valuation : Valuation} {left right : List Literal}
    (same : ∀ literal, literal ∈ left ↔ literal ∈ right) :
    valuation.clearAll left = valuation.clearAll right := by
  apply Array.ext_getElem?
  intro atom
  have members : atom ∈ left.map Literal.atom ↔ atom ∈ right.map Literal.atom := by
    simp only [List.mem_map, same]
  simp only [getElem?_clearAll, members]

namespace Search

namespace Trail

/-- The level at the top. -/
def top (trail : Trail) : Level :=
  match trail.frames with
  | [] => trail.root
  | top :: _ => top.toLevel

/-- The trail without what followed at the top. -/
def forget (trail : Trail) : Trail :=
  match trail.frames with
  | [] => { trail with root := { trail.root with propagations := [] } }
  | top :: rest => { trail with frames := { top with propagations := [] } :: rest }

theorem top_record (trail : Trail) (literal : Literal) :
    (trail.record literal).top = trail.top.record literal := by
  obtain ⟨root, frames⟩ := trail
  cases frames <;> rfl

theorem forget_record (trail : Trail) (literal : Literal) :
    (trail.record literal).forget = trail.forget := by
  obtain ⟨root, frames⟩ := trail
  cases frames <;> rfl

theorem mem_top_recordAll {trail : Trail} {literals : List Literal} {literal : Literal} :
    literal ∈ (trail.recordAll literals).top.propagations ↔
      literal ∈ trail.top.propagations ∨ literal ∈ literals := by
  induction literals generalizing trail with
  | nil => simp [recordAll]
  | cons first rest induction =>
      have recorded : trail.recordAll (first :: rest) = (trail.record first).recordAll rest := rfl
      rw [recorded, induction, top_record]
      simp only [Level.record, Literal.mem_insertInto, List.mem_cons]
      grind

theorem forget_recordAll (trail : Trail) (literals : List Literal) :
    (trail.recordAll literals).forget = trail.forget := by
  induction literals generalizing trail with
  | nil => rfl
  | cons first rest induction =>
      have recorded : trail.recordAll (first :: rest) = (trail.record first).recordAll rest := rfl
      rw [recorded, induction, forget_record]

theorem forget_eq_self {trail : Trail} (bare : trail.top.propagations = []) :
    trail.forget = trail := by
  obtain ⟨⟨_, _⟩, frames⟩ := trail
  cases frames with
  | nil =>
      cases bare
      rfl
  | cons first rest =>
      obtain ⟨⟨_, _⟩, _⟩ := first
      cases bare
      rfl

end Trail

/-- A valuation and a trail, as they are brought up to date with the moves that are told. -/
structure Standing where
  /-- The values of the atoms. -/
  valuation : Valuation
  /-- The decisions made and what followed from them. -/
  trail : Trail

namespace Standing

/-- Nothing decided, over some number of atoms. -/
def blank (count : Nat) : Standing := { valuation := .blank count, trail := {} }

/-- The standing after a move. -/
def make (standing : Standing) : Move → Standing
  | .propagate literal _ =>
      { valuation := standing.valuation.assign literal, trail := standing.trail.record literal }
  | .decide literal =>
      { valuation := standing.valuation.assign literal, trail := standing.trail.push literal }
  | .backtrack (some _) =>
      { valuation := standing.valuation.clearAll standing.trail.top.propagations
        trail := standing.trail.forget }
  | .backtrack none =>
      match standing.trail.frames with
      | [] => standing
      | top :: rest =>
          { valuation := top.undo standing.valuation
            trail := { standing.trail with frames := rest } }
  | .redecide _ =>
      match standing.trail.frames with
      | [] => standing
      | top :: rest =>
          { valuation := top.revise standing.valuation
            trail := { standing.trail with frames := top.flip :: rest } }

/-- Whether a move is justified by the clauses. -/
def Justifies (cnf : Cnf) (standing : Standing) : Move → Prop
  | .propagate literal index =>
      ∃ clause, cnf.clauses[index]? = some clause ∧
        clause.status? standing.valuation = some (.unit literal)
  | .decide literal =>
      standing.valuation[literal.atom]? = some none ∧
        ∀ clause ∈ cnf.clauses, clause.status? standing.valuation = some .satisfied ∨
          ∃ choice, clause.status? standing.valuation = some (.undecided choice)
  | .backtrack (some index) =>
      ∃ clause, cnf.clauses[index]? = some clause ∧
        clause.status? standing.valuation = some .violated
  | .backtrack none =>
      ∃ top rest, standing.trail.frames = top :: rest ∧ top.flipped = true
  | .redecide literal =>
      ∃ top rest, standing.trail.frames = top :: rest ∧ top.flipped = false ∧
        top.decision = literal.negate

end Standing

/-- Moves that are made in turn, each one justified where it is made. -/
inductive Replay (cnf : Cnf) : Standing → List Move → Standing → Prop where
  | nil {standing : Standing} : Replay cnf standing [] standing
  | cons {standing final : Standing} {move : Move} {moves : List Move}
      (justified : standing.Justifies cnf move)
      (rest : Replay cnf (standing.make move) moves final) :
      Replay cnf standing (move :: moves) final

namespace Replay

variable {cnf : Cnf} {first middle last : Standing} {front back : List Move}

theorem append (start : Replay cnf first front middle) (rest : Replay cnf middle back last) :
    Replay cnf first (front ++ back) last := by
  induction start with
  | nil => exact rest
  | cons justified _ induction => exact .cons justified (induction rest)

theorem single {move : Move} (justified : first.Justifies cnf move) :
    Replay cnf first [move] (first.make move) :=
  .cons justified .nil

end Replay

/-- Following unit clauses is a replay of the forced literals; what it decides can be taken back,
and a conflict is a clause that is violated where it ends. -/
theorem replay_of_close? {cnf : Cnf} {valuation : Valuation} {forced : List Forced}
    {closure : Closure} (closure_eq : close? cnf valuation = some (forced, closure))
    (trail : Trail) :
    ∃ closed, Replay cnf { valuation, trail } (forced.map Forced.move)
        { valuation := closed, trail := trail.recordAll (forced.map Forced.literal) } ∧
      closed.clearAll (forced.map Forced.literal) = valuation ∧
      (∀ settled, closure = .settled settled → closed = settled) ∧
      ∀ clause, closure = .conflict clause → cnf.status? closed = some (.violated clause) := by
  fun_induction close? cnf valuation generalizing forced trail with
  | case1 | case3 => simp at closure_eq
  | case2 valuation clause violated =>
      cases closure_eq
      exact ⟨valuation, .nil, rfl, by simp, by rintro _ ⟨⟩; exact violated⟩
  | case4 valuation =>
      cases closure_eq
      exact ⟨valuation, .nil, rfl, by rintro _ ⟨⟩; rfl, by simp⟩
  | case5 valuation _ _ _ literal clause found induction =>
      obtain ⟨⟨later, outcome⟩, later_eq, result_eq⟩ := Option.map_eq_some_iff.mp closure_eq
      simp only [Prod.mk.injEq] at result_eq
      obtain ⟨rfl, rfl⟩ := result_eq
      obtain ⟨closed, replay, cleared, settled, conflict⟩ :=
        induction later_eq (trail.record literal)
      have literal_open := Cnf.open_of_firstForced? found
      refine ⟨closed, .cons (Cnf.unit_of_firstForced? found) replay, ?_, settled, conflict⟩
      change (closed.clear literal.atom).clearAll (later.map Forced.literal) = valuation
      rw [Valuation.clearAll_clear, cleared, Valuation.clear_assign literal_open]

/-- Unit clauses that lead to a conflict are followed and given up again. -/
theorem replay_of_conflict {cnf : Cnf} {valuation : Valuation} {forced : List Forced}
    {clause : Nat} (conflict : close? cnf valuation = some (forced, .conflict clause))
    {trail : Trail} (bare : trail.top.propagations = []) :
    Replay cnf { valuation, trail } (forced.map Forced.move ++ [.backtrack (some clause)])
      { valuation, trail } := by
  obtain ⟨closed, replay, cleared, _, violated⟩ := replay_of_close? conflict trail
  have given_up : Replay cnf
      { valuation := closed, trail := trail.recordAll (forced.map Forced.literal) }
      [.backtrack (some clause)] { valuation, trail } := by
    have dropped : closed.clearAll
        (trail.recordAll (forced.map Forced.literal)).top.propagations = valuation := by
      rw [← cleared]
      apply Valuation.clearAll_congr
      intro literal
      rw [Trail.mem_top_recordAll, bare]
      simp
    refine .cons (Cnf.violated_of_status? (violated clause rfl)) ?_
    rw [Standing.make, dropped, Trail.forget_recordAll, Trail.forget_eq_self bare]
    exact .nil
  exact replay.append given_up

/-- Going back gives up flipped decisions and flips the next one. -/
theorem replay_of_retreat? {cnf : Cnf} {valuation : Valuation} {root : Level}
    {frames : List Frame} {retreat : Retreat} (back : retreat? valuation frames = some retreat) :
    Replay cnf { valuation, trail := { root, frames } } retreat.moves
        { valuation := retreat.valuation, trail := { root, frames := retreat.frames } } ∧
      (retreat.redecided.isSome →
        ({ root, frames := retreat.frames } : Trail).top.propagations = []) := by
  induction frames generalizing valuation retreat with
  | nil =>
      cases back
      exact ⟨.nil, by simp⟩
  | cons top rest induction =>
      rw [retreat?] at back
      split at back
      · split at back
        · rename_i flipped
          obtain ⟨later, later_eq, rfl⟩ := Option.map_eq_some_iff.mp back
          obtain ⟨replay, bare⟩ := induction later_eq
          refine ⟨?_, bare⟩
          exact .cons ⟨top, rest, rfl, flipped⟩ replay
        · rename_i not_flipped
          cases back
          refine ⟨.cons ⟨top, rest, rfl, Bool.eq_false_iff.mpr not_flipped, ?_⟩ .nil, fun _ => rfl⟩
          exact (Literal.negate_negate _).symm
      · cases back

/-- Where unit clauses lead without a conflict, every clause is satisfied or leaves a choice. -/
theorem choice_of_settled {cnf : Cnf} {valuation closed : Valuation} {forced : List Forced}
    (settled : close? cnf valuation = some (forced, .settled closed)) (in_range : cnf.InRange)
    (size_eq : valuation.size = cnf.atomCount) :
    ∀ clause ∈ cnf.clauses, clause.status? closed = some .satisfied ∨
      ∃ choice, clause.status? closed = some (.undecided choice) := by
  have inside := in_range.inside ((size_of_close? settled).trans size_eq)
  intro clause member
  obtain ⟨status, status_eq⟩ := Clause.exists_status?_of_inside (inside clause member)
  have rests := rests_of_close? settled clause member
  rcases (Clause.rests_iff_of_status? status_eq).mp rests with rfl | ⟨choice, rfl⟩
  · exact .inl status_eq
  · exact .inr ⟨choice, status_eq⟩

namespace Solver

variable {solver : Solver}

/-- The valuation and the trail of a solver. -/
def standing (solver : Solver) : Standing :=
  { valuation := solver.valuation, trail := solver.trail }

/-- The moves of a pass are justified and lead to what it leaves, where again nothing has followed
at the top if the search goes on. -/
theorem Pass.replay {elapsed : Duration} {moves : List Move} {step : Step}
    (pass : Pass elapsed solver moves step) (consistent : solver.Consistent)
    (bare : solver.trail.top.propagations = []) :
    Replay solver.cnf solver.standing moves step.solver.standing ∧
      ∀ next, step = .next next → next.trail.top.propagations = [] := by
  cases pass with
  | late exceeded => exact ⟨.nil, by simp⟩
  | flipped conflict back redecided =>
      obtain ⟨replay, bare_after⟩ := replay_of_retreat? back
      refine ⟨(replay_of_conflict conflict bare).append replay, ?_⟩
      rintro _ ⟨⟩
      exact bare_after (by rw [redecided]; rfl)
  | exhausted conflict back redecided =>
      exact ⟨(replay_of_conflict conflict bare).append (replay_of_retreat? back).1, by simp⟩
  | decided settled candidate below =>
      obtain ⟨closed, replay, _, closed_eq, _⟩ := replay_of_close? settled solver.trail
      obtain rfl := closed_eq _ rfl
      have choices := choice_of_settled settled consistent.in_range consistent.size_eq
      refine ⟨replay.append (.single ⟨Cnf.open_of_firstCandidate? candidate, choices⟩), ?_⟩
      rintro _ ⟨⟩
      rfl
  | limited settled _ _ | satisfied settled _ =>
      obtain ⟨closed, replay, _, closed_eq, _⟩ := replay_of_close? settled solver.trail
      obtain rfl := closed_eq _ rfl
      exact ⟨replay, by simp⟩

/-- The moves of a run are justified and lead to what it leaves. -/
theorem Run.replay {clock : Nat → Duration} {passes : List (List Move)}
    {result : Except Fault Verdict} {final : Solver} (run : Run clock solver passes result final)
    (consistent : solver.Consistent) (bare : solver.trail.top.propagations = []) :
    Replay solver.cnf solver.standing passes.flatten final.standing := by
  induction run with
  | halt stepped pass =>
      rw [List.flatten_singleton]
      exact (pass.replay consistent bare).1
  | @next solver next final moves passes result stepped pass rest induction =>
      obtain ⟨replay, bare_after⟩ := pass.replay consistent bare
      have next_consistent : next.Consistent := consistent.of_step? stepped
      have same : next.cnf = solver.cnf := (SameProblem.of_step? stepped).cnf_eq
      have later := induction next_consistent (bare_after next rfl)
      rw [same] at later
      rw [List.flatten_cons]
      exact replay.append later

/-- The moves of solving are justified and lead to what it leaves. -/
theorem Solves.replay {clock : Nat → Duration} {passes : List (List Move)} {verdict : Verdict}
    {final : Solver} (solves : Solves clock solver passes verdict final)
    (consistent : solver.Consistent) (bare : solver.trail.top.propagations = []) :
    Replay solver.cnf solver.standing passes.flatten final.standing := by
  cases solves with
  | done opening =>
      obtain ⟨_, rfl⟩ := eq_conclude_of_done opening
      exact .nil
  | searched opening run =>
      obtain rfl := eq_opened_of_search opening
      exact run.replay consistent.opened bare

/-- The first time loaded clauses are solved, an observer is told moves and then the counts and the
verdict.  From a blank valuation and an empty trail, each of the moves is justified by the clauses
where it is made, and together they lead to the valuation and the trail of the solver. -/
theorem solve?_replayed_of_load {settings : Settings} {cnf : Cnf}
    (loaded : load settings cnf = .ok solver) (told : Array Event) (clock : Nat → Duration) :
    ∃ moves verdict final,
      { solver with log := some told }.solve? clock = some (.ok verdict, final) ∧
      final.log = some (told ++
        (moves.map Event.move ++ closingEvents final.counters verdict)) ∧
      Replay cnf (.blank cnf.atomCount) moves
        { valuation := final.valuation, trail := final.trail } := by
  have sound := (sound_of_load loaded).listening (some told)
  obtain ⟨_, rfl⟩ := load_eq_ok_iff.mp loaded
  obtain ⟨passes, verdict, final, solve_eq, solves⟩ := exists_solves_of_sound sound rfl clock
  exact ⟨passes.flatten, verdict, final, solve_eq, solves.log_eq,
    solves.replay sound.toConsistent rfl⟩

theorem solve?_replayed_allSigns :
    load {} allSigns = .ok { settings := {}, cnf := allSigns, valuation := #[none, none] } ∧
      ∃ moves verdict final,
        solve? (fun _ => ⟨1⟩)
            { settings := {}, cnf := allSigns, valuation := #[none, none], log := some #[] } =
          some (.ok verdict, final) ∧
        final.log = some ((#[] : Array Event) ++
          (moves.map Event.move ++ closingEvents final.counters verdict)) ∧
        Replay allSigns (.blank 2) moves
          { valuation := final.valuation, trail := final.trail } := by
  have loaded : load {} allSigns =
      .ok { settings := {}, cnf := allSigns, valuation := #[none, none] } := by rfl
  exact ⟨loaded, solve?_replayed_of_load loaded #[] fun _ => ⟨1⟩⟩

end Solver
end Search
end PropSat
