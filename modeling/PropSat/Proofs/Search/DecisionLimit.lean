import Mathlib.Data.List.Induction
import PropSat.Proofs.Search.Course

/-!
# The limit of decisions

A decision is made only below the limit, and every decision is flipped at most once.  Flips are
counted with the decisions but never refused, so a search can count up to twice its limit, of which
at most the limit itself were decisions that it made.
-/

namespace PropSat
namespace Search

/-- Whether decisions are made only while the count, as a word, is below a limit, and flips only
answer decisions. -/
structure Gated (limit : Nat) (moves : List Move) : Prop where
  /-- Before a decision, the limit is not reached. -/
  below {before : List Move} {literal : Literal} : before ++ [.decide literal] <+: moves →
    (.ofNat (before.countP Move.isDecision) : Count).toNat < limit
  /-- At any time, there are at most as many flips as decisions. -/
  flips_le {before : List Move} : before <+: moves →
    before.countP Move.isFlip ≤ before.countP Move.isChoice

/-- How the decisions and flips of a search keep to a limit. -/
structure KeepsTo (limit : Nat) (moves : List Move) : Prop where
  /-- A decision is made only while fewer than the limit are counted, flips included. -/
  below {before : List Move} {literal : Literal} : before ++ [.decide literal] <+: moves →
    before.countP Move.isDecision < limit
  /-- No more decisions are made than the limit. -/
  made_le : moves.countP Move.isChoice ≤ limit
  /-- With the flips, no more are counted than twice the limit. -/
  counted_le : moves.countP Move.isDecision ≤ 2 * limit

namespace Gated

variable {limit : Nat} {moves front : List Move} {literal : Literal}

theorem mono (gated : Gated limit moves) (beginning : front <+: moves) : Gated limit front where
  below before := gated.below (before.trans beginning)
  flips_le before := gated.flips_le (before.trans beginning)

theorem counted_le (gated : Gated limit moves) (made_le : moves.countP Move.isChoice ≤ limit) :
    moves.countP Move.isDecision ≤ 2 * limit := by
  have flips := gated.flips_le (List.prefix_refl moves)
  rw [countP_isDecision_eq_add]
  omega

theorem narrow_mono (beginning : front <+: moves)
    (narrow : 2 * limit < UInt64.size ∨ moves.countP Move.isDecision < UInt64.size) :
    2 * limit < UInt64.size ∨ front.countP Move.isDecision < UInt64.size :=
  narrow.imp_right beginning.sublist.countP_le.trans_lt

/-- A count that has not wrapped around is below the limit before a decision. -/
theorem counted_lt (gated : Gated limit (front ++ [.decide literal]))
    (made_le : front.countP Move.isChoice ≤ limit)
    (narrow : 2 * limit < UInt64.size ∨ front.countP Move.isDecision < UInt64.size) :
    front.countP Move.isDecision < limit := by
  have fits : front.countP Move.isDecision < UInt64.size := by
    rcases narrow with narrow | narrow
    · exact ((gated.mono (List.prefix_append _ _)).counted_le made_le).trans_lt narrow
    · exact narrow
  have below := gated.below (List.prefix_refl _)
  rwa [UInt64.toNat_ofNat_of_lt' fits] at below

/-- If the count has not wrapped around, no more decisions are made than the limit. -/
theorem made_le (gated : Gated limit moves)
    (narrow : 2 * limit < UInt64.size ∨ moves.countP Move.isDecision < UInt64.size) :
    moves.countP Move.isChoice ≤ limit := by
  -- The last decision is made below the limit, which bounds the decisions before it.
  induction moves using List.reverseRecOn with
  | nil => exact Nat.zero_le _
  | append_singleton front move induction =>
      have beginning : front <+: front ++ [move] := List.prefix_append _ _
      have front_narrow := narrow_mono beginning narrow
      have front_made := induction (gated.mono beginning) front_narrow
      rw [List.countP_append, List.countP_singleton]
      cases move with
      | decide literal =>
          have counted := gated.counted_lt front_made front_narrow
          rw [countP_isDecision_eq_add] at counted
          simp only [Move.isChoice, if_true]
          omega
      | redecide | propagate | backtrack => exact front_made

/-- Gated moves keep to the limit, if the count has not wrapped around. -/
theorem keepsTo (gated : Gated limit moves)
    (narrow : 2 * limit < UInt64.size ∨ moves.countP Move.isDecision < UInt64.size) :
    KeepsTo limit moves where
  below := by
    intro before literal beginning
    have before_beginning := (List.prefix_append before [.decide literal]).trans beginning
    have before_narrow := narrow_mono before_beginning narrow
    exact (gated.mono beginning).counted_lt
      ((gated.mono before_beginning).made_le before_narrow) before_narrow
  made_le := gated.made_le narrow
  counted_le := gated.counted_le (gated.made_le narrow)

end Gated

/-- From an empty trail on, there are at most as many flips as decisions. -/
theorem Replay.countP_isFlip_le {cnf : Cnf} {first last : Standing} {moves : List Move}
    (replay : Replay cnf first moves last) (bare : first.trail = {}) :
    moves.countP Move.isFlip ≤ moves.countP Move.isChoice := by
  have made := replay.decisionCount_add bare
  have flipped := replay.flippedCount_add bare
  have some_flipped : last.trail.flippedCount ≤ last.trail.decisionCount := List.countP_le_length
  omega

namespace Solver

variable {solver final : Solver} {clock : Nat → Duration} {passes : List (List Move)}
  {before : List Move} {literal : Literal}

/-- A decision of a pass is made below the limit. -/
theorem Pass.below_limit {elapsed : Duration} {moves : List Move} {step : Step}
    (pass : Pass elapsed solver moves step) (made : before ++ [.decide literal] <+: moves) :
    (solver.counters.decisions + .ofNat (before.countP Move.isDecision)).toNat <
      solver.settings.decisionLimit.value := by
  have counted : before.countP Move.isDecision + 1 ≤ moves.countP Move.isDecision := by
    have fewer := made.sublist.countP_le (p := Move.isDecision)
    rwa [List.countP_append, List.countP_singleton] at fewer
  have at_most_one := pass.countP_isDecision
  cases pass with
  | decided settled candidate below =>
      simp only at at_most_one
      have none_before : before.countP Move.isDecision = 0 := by omega
      rw [none_before]
      simpa using below
  | flipped conflict back redecided =>
      -- The one decision of this pass is a flip.
      have listed := made.subset (List.mem_append_right before (List.mem_singleton_self _))
      simp [Forced.move, Retreat.moves] at listed
  | late | exhausted | limited | satisfied =>
      simp only at at_most_one
      omega

/-- A decision of a run is made below the limit. -/
theorem Run.below_limit {result : Except Fault Verdict}
    (run : Run clock solver passes result final)
    (made : before ++ [.decide literal] <+: passes.flatten) :
    (solver.counters.decisions + .ofNat (before.countP Move.isDecision)).toNat <
      solver.settings.decisionLimit.value := by
  induction run generalizing before with
  | halt stepped pass =>
      rw [List.flatten_singleton] at made
      exact pass.below_limit made
  | @next solver next final moves passes result stepped pass rest induction =>
      by_cases inside : before ++ [.decide literal] <+: moves
      · exact pass.below_limit inside
      · rw [List.flatten_cons] at made
        have passed : moves <+: before := by
          rcases List.prefix_or_prefix_of_prefix made (List.prefix_append moves _) with
            within | beyond
          · exact absurd within inside
          · refine (List.prefix_concat_iff.mp beyond).resolve_left ?_
            rintro rfl
            exact inside (List.prefix_refl _)
        obtain ⟨more, rfl⟩ := passed
        rw [List.append_assoc, List.prefix_append_right_inj] at made
        have later := induction made
        have counters_eq : next.counters = solver.counters.after 1 moves :=
          congrArg counters pass.moved
        have same_settings : next.settings = solver.settings :=
          (SameProblem.of_step? stepped).settings_eq
        rw [counters_eq, same_settings] at later
        rw [List.countP_append, UInt64.ofNat_add, ← UInt64.add_assoc]
        exact later

/-- The moves of a first solve are gated by the limit. -/
theorem Solves.gated {verdict : Verdict} (solves : Solves clock solver passes verdict final)
    (consistent : solver.Consistent) (bare : solver.trail = {}) (uncounted : solver.counters = {}) :
    Gated solver.settings.decisionLimit.value passes.flatten where
  below := by
    intro before literal made
    cases solves with
    | done opening => simp at made
    | searched opening run =>
        obtain rfl := eq_opened_of_search opening
        have below := run.below_limit made
        have none_counted : solver.opened.counters.decisions = 0 :=
          congrArg Counters.decisions uncounted
        rw [none_counted, UInt64.zero_add] at below
        exact below
  flips_le := by
    rintro before ⟨after, split⟩
    have replay := solves.replay consistent (by rw [bare]; rfl)
    rw [← split] at replay
    obtain ⟨middle, start, _⟩ := replay.exists_of_append
    exact start.countP_isFlip_le bare

/-- The first time loaded clauses are solved, whatever the limit and the clock, observed or not, the
count of decisions, in which the flips are included, is at most twice the limit.  As long as it has
not wrapped around, decisions are made only while it is below the limit, so there are at most as many
of them as the limit, and only flips go beyond.  An observer is told of each of them. -/
theorem solve?_keepsTo_of_load {settings : Settings} {cnf : Cnf}
    (loaded : load settings cnf = .ok solver) (log : Option (Array Event))
    (clock : Nat → Duration) :
    ∃ passes verdict final,
      { solver with log }.solve? clock = some (.ok verdict, final) ∧
      Solves clock { solver with log } passes verdict final ∧
      final.counters.decisions = .ofNat (passes.flatten.countP Move.isDecision) ∧
      final.counters.decisions.toNat ≤ 2 * settings.decisionLimit.value ∧
      (2 * settings.decisionLimit.value < UInt64.size ∨
          passes.flatten.countP Move.isDecision < UInt64.size →
        KeepsTo settings.decisionLimit.value passes.flatten) ∧
      final.log = log.map fun (told : Array Event) =>
        told ++ (passes.flatten.map Event.move ++ closingEvents final.counters verdict) := by
  have sound := (sound_of_load loaded).listening log
  obtain ⟨_, rfl⟩ := load_eq_ok_iff.mp loaded
  obtain ⟨passes, verdict, final, solve_eq, solves⟩ := exists_solves_of_sound sound rfl clock
  have gated := solves.gated sound.toConsistent rfl rfl
  have counted : final.counters.decisions = .ofNat (passes.flatten.countP Move.isDecision) := by
    rw [solves.counters_eq]
    exact UInt64.zero_add _
  refine ⟨passes, verdict, final, solve_eq, solves, counted, ?_, gated.keepsTo, solves.log_eq⟩
  rcases Nat.lt_or_ge (2 * settings.decisionLimit.value) UInt64.size with narrow | wide
  · rw [counted, UInt64.toNat_ofNat']
    exact (Nat.mod_le _ _).trans (gated.keepsTo (.inl narrow)).counted_le
  · exact (UInt64.toNat_lt_size _).le.trans wide

/-- Settings that allow for one decision. -/
def oneDecision : Settings := { decisionLimit := { least := 0, greatest := 5, value := 1 } }

theorem solve?_keepsTo_allSigns :
    load oneDecision allSigns =
        .ok { settings := oneDecision, cnf := allSigns, valuation := #[none, none] } ∧
      2 * oneDecision.decisionLimit.value < UInt64.size ∧
      ∃ passes verdict final,
        solve? (fun _ => ⟨1⟩)
            { settings := oneDecision, cnf := allSigns, valuation := #[none, none] } =
          some (.ok verdict, final) ∧
        Solves (fun _ => ⟨1⟩)
            { settings := oneDecision, cnf := allSigns, valuation := #[none, none] } passes verdict
          final ∧
        final.counters.decisions = .ofNat (passes.flatten.countP Move.isDecision) ∧
        final.counters.decisions.toNat ≤ 2 ∧
        KeepsTo 1 passes.flatten := by
  have loaded : load oneDecision allSigns =
      .ok { settings := oneDecision, cnf := allSigns, valuation := #[none, none] } := by rfl
  have narrow : 2 * oneDecision.decisionLimit.value < UInt64.size := by decide
  obtain ⟨passes, verdict, final, solve_eq, solves, counted, twice, keeps, _⟩ :=
    solve?_keepsTo_of_load loaded none fun _ => ⟨1⟩
  exact ⟨loaded, narrow, passes, verdict, final, solve_eq, solves, counted, twice,
    keeps (.inl narrow)⟩

/-- The one decision that is allowed is flipped, and then two are counted. -/
theorem solve?_beyond_limit_allSigns :
    load oneDecision allSigns =
        .ok { settings := oneDecision, cnf := allSigns, valuation := #[none, none] } ∧
      ∃ final,
        solve? (fun _ => ⟨1⟩)
            { settings := oneDecision, cnf := allSigns, valuation := #[none, none] } =
          some (.ok .unsatisfiable, final) ∧
        ¬ final.counters.decisions.toNat ≤ oneDecision.decisionLimit.value := by
  have ended : (solve? (fun _ => ⟨1⟩)
      { settings := oneDecision, cnf := allSigns, valuation := #[none, none] }).map
        (fun outcome => (outcome.1.toOption, outcome.2.counters.decisions)) =
          some (some .unsatisfiable, 2) := by
    decide +kernel
  obtain ⟨⟨result, final⟩, solve_eq, outcome_eq⟩ := Option.map_eq_some_iff.mp ended
  obtain ⟨result_eq, decisions_eq⟩ := Prod.mk.inj outcome_eq
  cases result with
  | error fault => cases result_eq
  | ok verdict =>
      cases result_eq
      change final.counters.decisions = 2 at decisions_eq
      refine ⟨rfl, final, solve_eq, ?_⟩
      rw [decisions_eq]
      decide

end Solver
end Search
end PropSat
