import PropSat.Proofs.Encoding.Chaining
import PropSat.Proofs.Search.Verdict

/-!
# From texts to verdicts

A text that is a formula is compiled, loaded and solved without a fault, and the verdict is one
about the formula: a model of the clauses is one of the formula, and clauses without a model come
from a formula without one.  Compiling fails only when its names and compound parts need more atoms
than there are.  When equivalences are chained, a model of the clauses is one of the formula only
where the equivalences stand positively.
-/

namespace PropSat
namespace Encoding

variable {source : AtomTable} {formula : Formula} {cnf : Cnf}

/-- A model of safe clauses, cut to the source atoms, is one of the formula. -/
theorem Safe.evaluate?_cut (safe : Safe source formula cnf)
    (within : formula.within source.count = true) {model : Array Bool}
    (size_eq : model.size = cnf.atomCount) (holds : cnf.Holds (.ofModel model)) :
    formula.evaluate? (.ofModel (cut source.count model)) = some true := by
  have enough : source.count ≤ model.size := size_eq ▸ safe.enough
  rw [PropSat.evaluate?_cut enough within,
    Formula.evaluate?_ofModel (Formula.within_mono enough within), safe.sound _ holds]

/-- Faithful clauses without a model come from a formula without one. -/
theorem Faithful.evaluate?_eq_false (faithful : Faithful source formula cnf)
    (within : formula.within source.count = true)
    (refuted : ∀ assignment, ¬ cnf.Holds assignment) {origin : Array Bool}
    (size_eq : origin.size = source.count) :
    formula.evaluate? (.ofModel origin) = some false := by
  rw [Formula.evaluate?_ofModel (by rw [size_eq]; exact within)]
  cases value : formula.eval (.ofModel origin) with
  | false => rfl
  | true =>
      obtain ⟨other, holds⟩ := faithful.complete _ value
      exact (refuted other holds).elim

end Encoding

/-- What a verdict on the clauses of a formula over source atoms means for the formula, given the
solver that it leaves. -/
def Decides (settings : Settings) (source : AtomTable) (formula : Formula) (cnf : Cnf)
    (final : Search.Solver) : Search.Verdict → Prop
  | .satisfiable =>
      ∃ model, final.model = .ok model ∧ model.size = cnf.atomCount ∧
        cnf.holdsIn? model = some true ∧
        formula.evaluate? (.ofModel (cut source.count model)) = some true
  | .unsatisfiable =>
      ∀ origin : Array Bool, origin.size = source.count →
        formula.evaluate? (.ofModel origin) = some false
  | .timeUp => False
  | .unknown => settings.decisionLimit.value ≤ final.counters.decisions.toNat

/-- A solver that has satisfied safe clauses of a formula gives a model of the formula. -/
theorem decides_of_satisfied {source : AtomTable} {formula : Formula} {cnf : Cnf}
    (safe : Encoding.Safe source formula cnf) (within : formula.within source.count = true)
    {final : Search.Solver} (cnf_eq : final.cnf = cnf)
    (size_eq : final.valuation.size = cnf.atomCount) (recorded : final.phase = .satisfiable)
    (attested : final.Attests .satisfiable) (settings : Settings) :
    Decides settings source formula cnf final .satisfiable := by
  subst cnf_eq
  obtain ⟨model_size, admitted⟩ := final.valuation.completedBy_toModel
  have model_size := model_size.trans size_eq
  have holds : final.cnf.Holds (.ofModel final.valuation.toModel) :=
    fun clause member => Clause.holds_of_satisfied (attested clause member) admitted
  refine ⟨final.valuation.toModel, ?_, model_size,
    (safe.in_range.holdsIn?_eq_true_iff model_size).mpr holds,
    safe.evaluate?_cut within model_size holds⟩
  rw [Search.Solver.model, recorded]

/-- A text that is a formula is compiled, if there are the atoms that it needs, loaded and, in time,
solved without a fault, and the verdict is true of the formula: a model is one of the formula,
unsatisfiable formulas have none, and without an answer the limit of decisions is reached. -/
theorem text_decided {text : String} {parsed : Grammar.Parsed}
    (parse_eq : Grammar.parse? text = some (.ok parsed)) {settings : Settings}
    (direct : settings.iffTemplate.value = .direct) (log : Option (Array Search.Event))
    {clock : Nat → Duration} (in_time : ∀ count, clock count ≤ settings.timeLimit.value) :
    Encoding.Compiles settings parsed fun compiled => ∃ solver verdict final,
      Search.Solver.load settings compiled.cnf = .ok solver ∧
      { solver with log }.solve? clock = some (.ok verdict, final) ∧
      Decides settings parsed.table parsed.formula compiled.cnf final verdict := by
  have within := (Grammar.sound_of_parse? parse_eq).within
  refine (Encoding.compiles_faithful parse_eq direct).mono fun compiled faithful => ?_
  obtain ⟨solver, loaded⟩ : ∃ solver, Search.Solver.load settings compiled.cnf = .ok solver :=
    ⟨_, Search.Solver.load_eq_ok_iff.mpr ⟨faithful.in_range, rfl⟩⟩
  obtain ⟨verdict, final, solve_eq, not_late, attested, phase_eq, cnf_eq, settings_eq, size_eq⟩ :=
    Search.Solver.exists_solve?_of_load loaded log in_time
  refine ⟨solver, verdict, final, loaded, solve_eq, ?_⟩
  cases verdict with
  | timeUp => exact not_late rfl
  | unknown =>
      rw [← settings_eq]
      exact attested.2
  | unsatisfiable =>
      intro origin origin_size
      rw [Search.Solver.Attests, cnf_eq] at attested
      exact faithful.evaluate?_eq_false within attested origin_size
  | satisfiable =>
      exact decides_of_satisfied faithful.toSafe within cnf_eq size_eq phase_eq attested settings

theorem text_decided_contradiction :
    Grammar.parse? "!(p -> p)" = some
        (.ok { formula := .neg (.bin .implies (.var 0) (.var 0)), table := .ofNames ["p"] }) ∧
      ({} : Settings).iffTemplate.value = .direct ∧
      (∀ count : Nat, (fun _ => ⟨1⟩ : Nat → Duration) count ≤ ({} : Settings).timeLimit.value) ∧
      ∃ compiled,
        Encoding.clausify? {} (.ofNames ["p"]) (.neg (.bin .implies (.var 0) (.var 0))) =
            some (.ok compiled) ∧
          ∃ solver verdict final,
            Search.Solver.load {} compiled.cnf = .ok solver ∧
            { solver with log := some #[] }.solve? (fun _ => ⟨1⟩) = some (.ok verdict, final) ∧
            Decides {} (.ofNames ["p"]) (.neg (.bin .implies (.var 0) (.var 0))) compiled.cnf final
              verdict := by
  have parse_eq : Grammar.parse? "!(p -> p)" = some
      (.ok { formula := .neg (.bin .implies (.var 0) (.var 0)), table := .ofNames ["p"] }) := by
    with_unfolding_all rfl
  have direct : ({} : Settings).iffTemplate.value = .direct := rfl
  have in_time : ∀ count : Nat,
      (fun _ => ⟨1⟩ : Nat → Duration) count ≤ ({} : Settings).timeLimit.value := by
    intro count
    change (⟨1⟩ : Duration) ≤ Duration.longest
    decide
  exact ⟨parse_eq, direct, in_time,
    (text_decided parse_eq direct (some #[]) in_time).exists_clausify? (by decide)⟩

section RunningOut

variable {last : Nat}

/-- The implications between as many numbers as there are atoms leave no atom for themselves. -/
theorem fewer_counting (full : atomLimit = last + 2) :
    atomLimit < (Grammar.counting (last + 1)).parsed.atomsNeeded := by
  have count_eq : (Grammar.counting (last + 1)).parsed.table.count = last + 2 :=
    Grammar.count_counting (last + 1)
  have whole : (Grammar.counting (last + 1)).parsed.formula ∈
      (Grammar.counting (last + 1)).parsed.formula.compounds.eraseDups :=
    List.mem_eraseDups.mpr (Formula.mem_compounds_self rfl)
  have parts := List.length_pos_of_mem whole
  rw [Grammar.Parsed.atomsNeeded, count_eq]
  omega

theorem parse?_counting (full : atomLimit = last + 2) :
    Grammar.parse? (Grammar.countingText (last + 1)) =
      some (.ok (Grammar.counting (last + 1)).parsed) := by
  refine Grammar.parse?_eq_ok_iff.mpr ⟨_, Grammar.derives_counting (last + 1), ?_, rfl⟩
  rw [AtomTable.Fits, Grammar.count_counting]
  exact Nat.le_of_eq full.symm

theorem clausify?_counting (full : atomLimit = last + 2) :
    Encoding.clausify? {} (Grammar.counting (last + 1)).parsed.table
      (Grammar.counting (last + 1)).parsed.formula = some (.error .noAtomLeft) := by
  have parse_eq := parse?_counting full
  have sound := Grammar.sound_of_parse? parse_eq
  have fewer := fewer_counting full
  rw [← sound.needed_eq] at fewer
  rcases Encoding.clausify?_cases (.self sound.plain) (Grammar.fits_of_parse? parse_eq)
    sound.within {} with ⟨cnf, read, _⟩ | ⟨enough, _⟩ | ⟨_, failed⟩
  · cases read
  · exact absurd enough (Nat.not_le_of_lt fewer)
  · exact failed

/-- A text may be read, with as many names as there are atoms, and not be compiled. -/
theorem text_decided_noAtomLeft :
    ({} : Settings).iffTemplate.value = .direct ∧
      ∃ parsed, Grammar.parse? (Grammar.countingText (atomLimit - 1)) = some (.ok parsed) ∧
        Encoding.clausify? {} parsed.table parsed.formula = some (.error .noAtomLeft) := by
  obtain ⟨last, full⟩ : ∃ last, atomLimit = last + 2 := ⟨atomLimit - 2, by decide⟩
  have last_eq : atomLimit - 1 = last + 1 := by omega
  rw [last_eq]
  exact ⟨rfl, _, parse?_counting full, clausify?_counting full⟩

end RunningOut

/-- Chaining the equivalences of a text in which they stand only positively loses models but invents
none: a model of the chained clauses is one of the formula, and clauses are called satisfiable, in
whatever time, only with such a model. -/
theorem text_chained_sound {text : String} {parsed : Grammar.Parsed}
    (parse_eq : Grammar.parse? text = some (.ok parsed))
    (positive : parsed.formula.iffPositive true = true) :
    Encoding.Delivers .chained parsed.table parsed.formula (fun cnf _ =>
      ∀ model : Array Bool, model.size = cnf.atomCount → cnf.holdsIn? model = some true →
        parsed.formula.evaluate? (.ofModel (cut parsed.table.count model)) = some true) ∧
    ∀ (settings : Settings) (log : Option (Array Search.Event)) (clock : Nat → Duration),
      settings.iffTemplate.value = .chained →
        Encoding.Compiles settings parsed fun compiled => ∃ solver verdict final,
          Search.Solver.load settings compiled.cnf = .ok solver ∧
          { solver with log }.solve? clock = some (.ok verdict, final) ∧
          (verdict = .satisfiable →
            Decides settings parsed.table parsed.formula compiled.cnf final .satisfiable) := by
  have within := (Grammar.sound_of_parse? parse_eq).within
  constructor
  · refine Encoding.delivers_of_parse? parse_eq .start within
      fun continues _ model size_eq holds => ?_
    have safe := Encoding.safe_transformed_chained continues within positive
    exact safe.evaluate?_cut within size_eq
      ((safe.in_range.holdsIn?_eq_true_iff size_eq).mp holds)
  · intro settings log clock chained
    refine (Encoding.compiles_safe_chained parse_eq positive chained).mono fun compiled safe => ?_
    have loaded : Search.Solver.load settings compiled.cnf =
        .ok { settings, cnf := compiled.cnf, valuation := .blank compiled.cnf.atomCount } :=
      Search.Solver.load_eq_ok_iff.mpr ⟨safe.in_range, rfl⟩
    obtain ⟨verdict, final, solve_eq, attested, sound, phase_eq, cnf_eq, _⟩ :=
      ((Search.Solver.sound_of_load loaded).listening log).exists_solve? rfl clock
    refine ⟨_, verdict, final, loaded, solve_eq, ?_⟩
    rintro rfl
    exact decides_of_satisfied safe within cnf_eq
      (sound.size_eq.trans (congrArg Cnf.atomCount cnf_eq)) phase_eq attested settings

theorem text_chained_sound_equivalence :
    Grammar.parse? "p <-> q" =
        some (.ok { formula := .bin .iff (.var 0) (.var 1), table := .ofNames ["p", "q"] }) ∧
      (Formula.bin .iff (.var 0) (.var 1)).iffPositive true = true ∧
      (∃ cnf final,
        Encoding.tseitin? .chained (.ofNames ["p", "q"]) (.bin .iff (.var 0) (.var 1)) =
            some (.ok cnf, final) ∧
          ∀ model : Array Bool, model.size = cnf.atomCount → cnf.holdsIn? model = some true →
            (Formula.bin .iff (.var 0) (.var 1)).evaluate?
              (.ofModel (cut (AtomTable.ofNames ["p", "q"]).count model)) = some true) ∧
      ∀ (settings : Settings) (log : Option (Array Search.Event)) (clock : Nat → Duration),
        settings.iffTemplate.value = .chained →
          ∃ compiled,
            Encoding.clausify? settings (.ofNames ["p", "q"]) (.bin .iff (.var 0) (.var 1)) =
                some (.ok compiled) ∧
              ∃ solver verdict final,
                Search.Solver.load settings compiled.cnf = .ok solver ∧
                { solver with log }.solve? clock = some (.ok verdict, final) ∧
                (verdict = .satisfiable →
                  Decides settings (.ofNames ["p", "q"]) (.bin .iff (.var 0) (.var 1))
                    compiled.cnf final .satisfiable) := by
  have parse_eq : Grammar.parse? "p <-> q" =
      some (.ok { formula := .bin .iff (.var 0) (.var 1), table := .ofNames ["p", "q"] }) := by
    with_unfolding_all rfl
  obtain ⟨delivers, compiles⟩ := text_chained_sound parse_eq (by decide)
  exact ⟨parse_eq, by decide, delivers.enough (by decide),
    fun settings log clock chained =>
      (compiles settings log clock chained).exists_clausify? (by decide)⟩

/-- Settings that chain equivalences. -/
def chainedSettings : Settings :=
  { iffTemplate := { ({} : Settings).iffTemplate with value := .chained } }

/-- A negated equivalence may be called satisfiable when it is chained, although it has no model. -/
theorem text_chained_unsound :
    Grammar.parse? "!(a<->a)" =
        some (.ok { formula := .neg (.bin .iff (.var 0) (.var 0)), table := .ofNames ["a"] }) ∧
      (∃ cnf final,
        Encoding.tseitin? .chained (.ofNames ["a"]) (.neg (.bin .iff (.var 0) (.var 0))) =
            some (.ok cnf, final) ∧
          (#[false, false, true] : Array Bool).size = cnf.atomCount ∧
          cnf.holdsIn? #[false, false, true] = some true ∧
          (Formula.neg (.bin .iff (.var 0) (.var 0))).evaluate?
            (.ofModel (cut (AtomTable.ofNames ["a"]).count #[false, false, true])) =
              some false) ∧
      (∀ origin : Array Bool, origin.size = 1 →
        (Formula.neg (.bin .iff (.var 0) (.var 0))).evaluate? (.ofModel origin) = some false) ∧
      chainedSettings.iffTemplate.value = .chained ∧
      ∃ compiled solver final,
        Encoding.clausify? chainedSettings (.ofNames ["a"])
            (.neg (.bin .iff (.var 0) (.var 0))) = some (.ok compiled) ∧
          Search.Solver.load chainedSettings compiled.cnf = .ok solver ∧
          solver.solve? (fun _ => ⟨1⟩) = some (.ok .satisfiable, final) := by
  have parse_eq : Grammar.parse? "!(a<->a)" =
      some (.ok { formula := .neg (.bin .iff (.var 0) (.var 0)), table := .ofNames ["a"] }) := by
    with_unfolding_all rfl
  refine ⟨parse_eq, ?_, ?_, rfl, ?_⟩
  · exact ⟨_, _, rfl, rfl, by decide +kernel, by decide +kernel⟩
  · intro origin origin_size
    rw [Formula.evaluate?_ofModel (by rw [origin_size]; decide)]
    simp [Formula.eval, Connective.eval]
  · let cnf : Cnf :=
      { atomCount := 3
        clauses :=
          [[.negative 0, .positive 0], [.positive 0, .negative 0], [.negative 0, .positive 1],
            [.positive 0, .negative 1], [.negative 1, .negative 2], [.positive 1, .positive 2],
            [.positive 2]] }
    have solved : (Search.Solver.solve? (fun _ => ⟨1⟩)
        { settings := chainedSettings, cnf, valuation := .blank 3 }).map Prod.fst =
          some (.ok .satisfiable) := by
      decide +kernel
    obtain ⟨⟨_, final⟩, solve_eq, rfl⟩ := Option.map_eq_some_iff.mp solved
    exact ⟨_, _, final, rfl, rfl, solve_eq⟩

end PropSat
