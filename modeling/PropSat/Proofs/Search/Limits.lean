import PropSat.Proofs.Search.Determinacy

/-!
# Limits of a search

The limit of decisions is looked at only where a decision is needed.  A search under a higher limit
therefore makes the same passes as one under a lower limit, up to the pass that the lower limit
ends, and there it decides.
-/

namespace PropSat
namespace Search

/-- The solver under other settings. -/
def Solver.under (settings : Settings) (solver : Solver) : Solver := { solver with settings }

/-- The step under other settings. -/
def Step.under (settings : Settings) : Step → Step
  | .next solver => .next (solver.under settings)
  | .halt result solver => .halt result (solver.under settings)

namespace Solver

variable {solver : Solver} {settings : Settings} {clock other : Nat → Duration}

/-- A pass in time can be made under a limit as high, except that a decision is made where the limit
had ended the search and is no longer reached. -/
theorem Pass.under {elapsed : Duration} {moves : List Move} {step : Step}
    (pass : Pass elapsed solver moves step)
    (in_time : elapsed ≤ solver.settings.timeLimit.value)
    (raised : solver.settings.decisionLimit.value ≤ settings.decisionLimit.value)
    (later : Duration) :
    Pass later (solver.under settings) moves (step.under settings) ∨
      ∃ final literal next, step = .halt (.ok .unknown) final ∧
        Pass later (solver.under settings) (moves ++ [.decide literal]) (.next next) := by
  cases pass with
  | late exceeded => exact absurd in_time exceeded
  | flipped conflict back redecided => exact .inl (.flipped conflict back redecided)
  | exhausted conflict back redecided => exact .inl (.exhausted conflict back redecided)
  | decided settled candidate below =>
      exact .inl (.decided settled candidate (below.trans_le raised))
  | limited settled candidate reached =>
      rcases Nat.lt_or_ge solver.counters.decisions.toNat settings.decisionLimit.value with
        below | still_reached
      · exact .inr ⟨_, _, _, rfl, .decided settled candidate below⟩
      · exact .inl (.limited settled candidate still_reached)
  | satisfied settled all_satisfied => exact .inl (.satisfied settled all_satisfied)

theorem Sound.under (sound : solver.Sound) (settings : Settings) : (solver.under settings).Sound :=
  ⟨⟨sound.in_range, sound.size_eq, sound.records, sound.root_kept⟩, sound.justified⟩

/-- A run in time can be made under a limit as high, except that after one which the limit ends the
search may go on with a decision. -/
theorem Run.under {passes : List (List Move)} {result : Except Fault Verdict} {final : Solver}
    (run : Run clock solver passes result final) (sound : solver.Sound)
    (in_time : ∀ count, clock count ≤ solver.settings.timeLimit.value)
    (other_in_time : ∀ count, other count ≤ settings.timeLimit.value)
    (raised : solver.settings.decisionLimit.value ≤ settings.decisionLimit.value) :
    Run other (solver.under settings) passes result (final.under settings) ∨
      result = .ok .unknown ∧ ∃ literal rest longer verdict last,
        Run other (solver.under settings) longer (.ok verdict) last ∧
          longer.flatten = passes.flatten ++ .decide literal :: rest := by
  induction run with
  | @halt solver final moves result stepped pass =>
      rcases pass.under (in_time _) raised (other solver.counters.iterations.toNat) with
        kept | ⟨_, literal, next, halted, decided⟩
      · exact .inl (.halt (kept.step?_eq (other_in_time _)) kept)
      · -- The search goes on after the decision, and it ends since every search does.
        have decided_step := decided.step?_eq (other_in_time _)
        have next_sound : next.Sound := (sound.under settings).of_step? decided_step
        obtain ⟨later, verdict, last, continued⟩ := exists_run_of_sound next_sound other
        cases halted
        refine .inr ⟨rfl, literal, later.flatten, _, verdict, last,
          .next decided_step decided continued, ?_⟩
        rw [List.flatten_cons, List.flatten_singleton, List.append_assoc, List.singleton_append]
  | @next solver next final moves passes result stepped pass rest induction =>
      have same_settings : next.settings = solver.settings :=
        (SameProblem.of_step? stepped).settings_eq
      rcases pass.under (in_time _) raised (other solver.counters.iterations.toNat) with
        kept | ⟨_, _, _, impossible, _⟩
      · have kept_step := kept.step?_eq (other_in_time _)
        rw [← same_settings] at in_time raised
        rcases induction (sound.of_step? stepped) in_time raised with
          same | ⟨ended, literal, tail, longer, verdict, last, continued, longer_eq⟩
        · exact .inl (.next kept_step kept same)
        · refine .inr ⟨ended, literal, tail, _, verdict, last, .next kept_step kept continued, ?_⟩
          rw [List.flatten_cons, longer_eq, List.flatten_cons, List.append_assoc]
      · cases impossible

/-- Solving in time ends alike under a limit as high, except that after a verdict which the limit
gives the search may go on with a decision. -/
theorem Solves.under {passes : List (List Move)} {verdict : Verdict} {final : Solver}
    (solves : Solves clock solver passes verdict final) (sound : solver.Sound)
    (in_time : ∀ count, clock count ≤ solver.settings.timeLimit.value)
    (other_in_time : ∀ count, other count ≤ settings.timeLimit.value)
    (raised : solver.settings.decisionLimit.value ≤ settings.decisionLimit.value) :
    Solves other (solver.under settings) passes verdict (final.under settings) ∨
      verdict = .unknown ∧ ∃ literal rest longer later last,
        Solves other (solver.under settings) longer later last ∧
          longer.flatten = passes.flatten ++ .decide literal :: rest := by
  have opens := solver.opens_opening
  cases solves with
  | done opening =>
      rw [opening] at opens
      cases opens with
      | settled fresh empty =>
          have settled_under : Opens (solver.under settings) _ := .settled fresh empty
          exact .inl (.done settled_under.opening_eq)
  | searched opening run =>
      rw [opening] at opens
      cases opens with
      | search fresh nonempty =>
          have opens_under : Opens (solver.under settings) _ := .search fresh nonempty
          rcases run.under sound.opened in_time other_in_time raised with
            same | ⟨ended, literal, rest, longer, later, last, continued, longer_eq⟩
          · exact .inl (.searched opens_under.opening_eq same)
          · cases ended
            exact .inr ⟨rfl, literal, rest, longer, later, _,
              .searched opens_under.opening_eq continued, longer_eq⟩

/-- The first time loaded clauses are solved, in time, under two limits of decisions of which the
second is as high as the first, the moves that are told under the first are told under the second
too.  If the first search ends with a definite verdict then the second ends with the same verdict,
after the same moves, and leaves the same solver up to its settings.  If the first ends without one
then the second does so too or goes on with a decision. -/
theorem solve?_limited_of_load {low high : Settings} {cnf : Cnf} {first second : Solver}
    (first_loaded : load low cnf = .ok first) (second_loaded : load high cnf = .ok second)
    (raised : low.decisionLimit.value ≤ high.decisionLimit.value)
    {first_clock second_clock : Nat → Duration}
    (first_in_time : ∀ count, first_clock count ≤ low.timeLimit.value)
    (second_in_time : ∀ count, second_clock count ≤ high.timeLimit.value) (told : Array Event) :
    ∃ moves verdict final moves' verdict' final',
      { first with log := some told }.solve? first_clock = some (.ok verdict, final) ∧
      { second with log := some told }.solve? second_clock = some (.ok verdict', final') ∧
      final.log = some (told ++
        (moves.map Event.move ++ closingEvents final.counters verdict)) ∧
      final'.log = some (told ++
        (moves'.map Event.move ++ closingEvents final'.counters verdict')) ∧
      verdict ≠ .timeUp ∧
      moves <+: moves' ∧
      (verdict = .satisfiable ∨ verdict = .unsatisfiable →
        verdict' = verdict ∧ moves' = moves ∧ final' = final.under high) ∧
      (verdict = .unknown →
        (verdict' = verdict ∧ moves' = moves ∧ final' = final.under high) ∨
          ∃ literal rest, moves' = moves ++ .decide literal :: rest) := by
  have sound := (sound_of_load first_loaded).listening (some told)
  obtain ⟨verdict, final, solve_eq, not_late, _⟩ :=
    exists_solve?_of_load first_loaded (some told) first_in_time
  obtain ⟨_, rfl⟩ := load_eq_ok_iff.mp first_loaded
  obtain ⟨_, rfl⟩ := load_eq_ok_iff.mp second_loaded
  obtain ⟨passes, verdict, final, same_eq, solves⟩ :=
    exists_solves_of_sound sound rfl first_clock
  cases solve_eq.symm.trans same_eq
  rcases solves.under sound first_in_time second_in_time raised with
    same | ⟨rfl, literal, rest, longer, verdict', final', continued, longer_eq⟩
  · exact ⟨passes.flatten, verdict, final, passes.flatten, verdict, _, solve_eq, same.solve?_eq,
      solves.log_eq, same.log_eq, not_late, List.prefix_refl _, fun _ => ⟨rfl, rfl, rfl⟩,
      fun _ => .inl ⟨rfl, rfl, rfl⟩⟩
  · exact ⟨passes.flatten, .unknown, final, longer.flatten, verdict', final', solve_eq,
      continued.solve?_eq, solves.log_eq, continued.log_eq, not_late,
      longer_eq ▸ List.prefix_append _ _, by simp, fun _ => .inr ⟨literal, rest, longer_eq⟩⟩

theorem solve?_limited_allSigns :
    load { decisionLimit := { least := 0, greatest := 5, value := 1 } } allSigns =
        .ok
          { settings := { decisionLimit := { least := 0, greatest := 5, value := 1 } }
            cnf := allSigns
            valuation := #[none, none] } ∧
      load {} allSigns = .ok { settings := {}, cnf := allSigns, valuation := #[none, none] } ∧
      1 ≤ ({} : Settings).decisionLimit.value ∧
      (∀ count : Nat, (fun _ => ⟨1⟩ : Nat → Duration) count ≤ Duration.longest) ∧
      ∃ moves verdict final moves' verdict' final',
        solve? (fun _ => ⟨1⟩)
            { settings := { decisionLimit := { least := 0, greatest := 5, value := 1 } }
              cnf := allSigns
              valuation := #[none, none]
              log := some #[] } =
          some (.ok verdict, final) ∧
        solve? (fun _ => ⟨1⟩)
            { settings := {}, cnf := allSigns, valuation := #[none, none], log := some #[] } =
          some (.ok verdict', final') ∧
        final.log = some ((#[] : Array Event) ++
          (moves.map Event.move ++ closingEvents final.counters verdict)) ∧
        final'.log = some ((#[] : Array Event) ++
          (moves'.map Event.move ++ closingEvents final'.counters verdict')) ∧
        verdict ≠ .timeUp ∧
        moves <+: moves' ∧
        (verdict = .satisfiable ∨ verdict = .unsatisfiable →
          verdict' = verdict ∧ moves' = moves ∧ final' = final.under {}) ∧
        (verdict = .unknown →
          (verdict' = verdict ∧ moves' = moves ∧ final' = final.under {}) ∨
            ∃ literal rest, moves' = moves ++ .decide literal :: rest) := by
  have first_loaded :
      load { decisionLimit := { least := 0, greatest := 5, value := 1 } } allSigns =
        .ok
          { settings := { decisionLimit := { least := 0, greatest := 5, value := 1 } }
            cnf := allSigns
            valuation := #[none, none] } := by rfl
  have second_loaded : load {} allSigns =
      .ok { settings := {}, cnf := allSigns, valuation := #[none, none] } := by rfl
  have raised : 1 ≤ ({} : Settings).decisionLimit.value := by decide
  have in_time : ∀ count : Nat,
      (fun _ => ⟨1⟩ : Nat → Duration) count ≤ Duration.longest := by
    intro count
    change (⟨1⟩ : Duration) ≤ Duration.longest
    decide
  exact ⟨first_loaded, second_loaded, raised, in_time,
    solve?_limited_of_load first_loaded second_loaded raised in_time in_time #[]⟩

end Solver
end Search
end PropSat
