import PropSat.CommandLine.Session
import PropSat.Proofs.Encoding.Sharing
import PropSat.Proofs.EndToEnd
import PropSat.Proofs.Random.Drawing
import PropSat.Random.Xoshiro

/-!
# Outcomes of runs

While there are enough atoms, a run fails only on arguments that are refused or on a text that is not
a formula.  Otherwise the formula is compiled, loaded and solved without a fault.  The answer lists a
value for each name of the text, in the order of the first occurrences, and for no auxiliary atom;
unless chaining loses models or a limit is hit, it is right about the formula.
-/

namespace PropSat

/-- Value of a formula that was read, where its names have given values. -/
def Grammar.Parsed.eval (parsed : Parsed) (values : String → Bool) : Bool :=
  parsed.formula.eval fun atom => values (parsed.table.nameAt atom)

/-- The table of what is read has the distinct names of the text in the order of their first
occurrence. -/
theorem Grammar.exists_names_of_parse? {text : String} {parsed : Parsed}
    (parse_eq : parse? text = some (.ok parsed)) :
    ∃ tokens, Spells text.toList tokens ∧ parsed.table.names.toList = (names tokens).eraseDups := by
  obtain ⟨expression, spells, _, rfl⟩ := parse?_eq_ok_iff.mp parse_eq
  exact ⟨expression.tokens, spells, rfl⟩

/-- Whether there are enough atoms for a text: for its names, and if it is a formula for the compound
parts as well. -/
structure Grammar.EnoughAtoms (text : String) : Prop where
  /-- There are atoms for the names. -/
  names : nameCount text ≤ atomLimit
  /-- There are atoms for the names and the compound parts of the formula. -/
  parts : ∀ parsed, parse? text = some (.ok parsed) → parsed.atomsNeeded ≤ atomLimit

namespace AtomTable

theorem auxiliaryName_of_sourceName {name : String} (source : SourceName name) :
    auxiliaryName name = false := by
  obtain ⟨first, rest, spelled⟩ := List.exists_cons_of_ne_nil source.1
  have alphanumeric := source.2 first (by rw [spelled]; exact List.mem_cons_self)
  rw [auxiliaryName, spelled]
  simp [alphanumeric]

/-- Whether a table has auxiliary atoms only behind those of another. -/
def Augments (table source : AtomTable) : Prop :=
  ∃ added, table.names.toList = source.names.toList ++ added ∧
    ∀ name ∈ added, auxiliaryName name = true

theorem Augments.refl (table : AtomTable) : table.Augments table :=
  ⟨[], (List.append_nil _).symm, by simp⟩

theorem mem_entries_iff {table : AtomTable} {entry : Nat × String} :
    entry ∈ table.entries ↔ table.name? entry.1 = some entry.2 := by
  rw [entries, name?_eq, List.mem_map]
  constructor
  · rintro ⟨placed, member, rfl⟩
    exact List.mem_zipIdx_iff_getElem?.mp member
  · intro named
    exact ⟨(entry.2, entry.1), List.mem_zipIdx_iff_getElem?.mpr named, rfl⟩

theorem map_snd_entries (table : AtomTable) :
    table.entries.map Prod.snd = table.names.toList := by
  rw [entries, List.map_map]
  exact List.zipIdx_map_fst 0 _

/-- The atoms that are not auxiliary are the ones that were there before. -/
theorem Augments.filter_entries {table source : AtomTable} (augments : table.Augments source)
    (plain : source.Plain) :
    table.entries.filter (fun entry => !auxiliaryName entry.2) = source.entries := by
  obtain ⟨added, names_eq, auxiliary⟩ := augments
  rw [entries, names_eq, List.zipIdx_append, List.map_append, List.filter_append]
  have kept : source.entries.filter (fun entry => !auxiliaryName entry.2) = source.entries := by
    apply List.filter_eq_self.mpr
    intro entry member
    have listed : entry.2 ∈ source.names.toList := by
      rw [← map_snd_entries]
      exact List.mem_map_of_mem member
    rw [auxiliaryName_of_sourceName (plain.alphanumeric _ listed)]
    rfl
  refine (congrArg₂ (· ++ ·) kept (List.filter_eq_nil_iff.mpr ?_)).trans (List.append_nil _)
  intro entry member
  obtain ⟨placed, placed_mem, rfl⟩ := List.mem_map.mp member
  simp [auxiliary _ (List.fst_mem_of_mem_zipIdx placed_mem)]

theorem Continues.grow_augments {table source : AtomTable} (continues : table.Continues source)
    {formula : Formula} (within : formula.within source.count = true) :
    (table.grow formula).Augments table := by
  refine ⟨_, continues.names_grow within, List.forall_mem_map.mpr fun part member => ?_⟩
  exact Formula.auxiliaryName_canonical _
    (Formula.isCompound_of_mem_compounds (mem_compounds_of_mem_missing member))

end AtomTable

namespace Encoding

/-- The clauses of a text are in range, with either template, and the table only gets auxiliary
atoms. -/
theorem compiles_augments {text : String} {parsed : Grammar.Parsed}
    (parse_eq : Grammar.parse? text = some (.ok parsed)) (settings : Settings) :
    Compiles settings parsed fun compiled =>
      compiled.cnf.InRange ∧ compiled.table.Augments parsed.table := by
  have ⟨plain, within⟩ := Grammar.sound_of_parse? parse_eq
  have continues := AtomTable.Continues.self plain
  apply compiles_of_parse? parse_eq
  · exact fun cnf read => ⟨(asCnf_sound read).2.1, .refl parsed.table⟩
  · exact ⟨transformed_inRange plain.distinct within _, continues.grow_augments within⟩

end Encoding

namespace CommandLine

open Search (Solver Verdict)

section Values

/-- One line for each name, with its value. -/
def valueText (names : List String) (values : String → Bool) : String :=
  String.join (names.map fun name => name ++ ": " ++ (if values name then "1" else "0") ++ "\n")

/-- Values that a model gives to the names of a table. -/
def valuesIn (table : AtomTable) (model : Array Bool) (name : String) : Bool :=
  model[Grammar.atomIn table name]? = some true

/-- What is written about a model is a line for each source name. -/
theorem modelText_eq {table source : AtomTable} (augments : table.Augments source)
    (plain : source.Plain) (model : Array Bool) :
    modelText table model = valueText source.names.toList (valuesIn source model) := by
  have written : modelText table model =
      String.join ((table.entries.filter fun entry => !AtomTable.auxiliaryName entry.2).map
        fun entry => entry.2 ++ ": " ++
          (if model[entry.1]? = some true then "1" else "0") ++ "\n") := rfl
  rw [written, augments.filter_entries plain, valueText, ← AtomTable.map_snd_entries, List.map_map]
  refine congrArg String.join (List.map_congr_left fun entry member => ?_)
  have atom_eq := Grammar.atomIn_eq plain.distinct (AtomTable.mem_entries_iff.mp member)
  simp only [Function.comp_apply, valuesIn, atom_eq, decide_eq_true_eq]

/-- A formula has the value that the values of its names give it. -/
theorem eval_valuesIn {parsed : Grammar.Parsed} (sound : parsed.Sound) {model : Array Bool}
    (enough : parsed.table.count ≤ model.size) :
    parsed.eval (valuesIn parsed.table model) = parsed.formula.eval (.ofModel model) := by
  refine Formula.eval_congr (fun atom inside => ?_) sound.within
  have atom_eq := Grammar.atomIn_eq sound.plain.distinct (AtomTable.name?_eq_nameAt inside)
  have in_model : atom < model.size := Nat.lt_of_lt_of_le inside enough
  simp [valuesIn, atom_eq, Assignment.ofModel, in_model]

end Values

section Answers

variable {options : Options} {text : String} {parsed : Grammar.Parsed} {clock : Nat → Duration}

/-- What is written before the answer, given the solver that the search leaves. -/
def Prepared.lead (prepared : Prepared) (final : Solver) : String :=
  prepared.output ++
    (if prepared.options.quiet = 0 then
      "\nTrace:\n" ++ traceText prepared.cnf (final.log.getD #[]).toList
    else "") ++
    if prepared.options.quiet < 2 then "\n" else ""

/-- What is written behind the answer. -/
def Prepared.closing (prepared : Prepared) (final : Solver) : String :=
  if prepared.options.quiet = 0 then "\n" ++ countText final.counters "" else ""

/-- The answer for a verdict. -/
def Prepared.answer (prepared : Prepared) (final : Solver) : Verdict → String
  | .satisfiable => "SAT\n" ++ modelText prepared.table final.valuation.toModel
  | .unsatisfiable => "NON-SAT\n"
  | verdict => "UNKNOWN (" ++ verdict.text ++ ")\n"

/-- A verdict is answered without a failure if it is recorded when there is a model. -/
theorem conclude_eq {prepared : Prepared} {final : Solver} {verdict : Verdict}
    (recorded : verdict = .satisfiable → final.phase = .satisfiable) :
    conclude prepared "" (.ok verdict) final =
      { code := 0
        output := prepared.lead final ++ prepared.answer final verdict ++
          prepared.closing final } := by
  cases verdict with
  | satisfiable =>
      have model_eq : final.model = .ok final.valuation.toModel := by
        rw [Solver.model, recorded rfl]
      simp [conclude, model_eq, Prepared.lead, Prepared.answer, Prepared.closing,
        String.append_assoc]
  | unsatisfiable | timeUp | unknown =>
      simp [conclude, Prepared.lead, Prepared.answer, Prepared.closing, String.append_assoc]

/-- Whether a search gave up since it ran into one of its limits. -/
def LimitHit (clock : Nat → Duration) (settings : Settings) (final : Solver) : Verdict → Prop
  | .timeUp => ∃ count, ¬ clock count ≤ settings.timeLimit.value
  | .unknown => settings.decisionLimit.value ≤ final.counters.decisions.toNat
  | _ => False

section Refusal

variable {σ : Type} [Random.Source σ] (seeding : UInt64 → σ)

/-- Whether a run on some line of input is refused: for its arguments, or since its text is no
formula. -/
def Refused (arguments : List String) (line : String) : Prop :=
  (∃ fault, Options.ofArguments arguments = .error fault) ∨
    ∃ options text fault, Options.ofArguments arguments = .ok options ∧
      options.text? seeding (some line) = some text ∧
      Grammar.parse? text = some (.error fault)

/-- Whether there are enough atoms for the text of a run on some line of input. -/
def Supplied (arguments : List String) (line : String) : Prop :=
  ∀ options text, Options.ofArguments arguments = .ok options →
    options.text? seeding (some line) = some text → Grammar.EnoughAtoms text

/-- A lawful source gives a text for every seed. -/
theorem exists_text? [Random.LawfulSource σ] (options : Options) (line : String) :
    ∃ text, options.text? seeding (some line) = some text := by
  cases seed_eq : options.seed with
  | none => cases formula_eq : options.formula <;> simp [Options.text?, seed_eq, formula_eq]
  | some seed =>
      have drawing : (Random.cnfText {} : Random.Draw σ String).Yields _ :=
        Random.yields_cnfText (by decide) (by decide) (by decide)
      obtain ⟨text, next, drawn, _⟩ := drawing (seeding (.ofNat seed))
      exact ⟨text, by rw [Options.text?, seed_eq]; simp [drawn]⟩

end Refusal

/-- A formula is compiled and loaded without a fault. -/
theorem exists_prepareText (parse_eq : Grammar.parse? text = some (.ok parsed))
    (enough : parsed.atomsNeeded ≤ atomLimit) (options : Options) :
    ∃ compiled solver log prepared,
      Encoding.clausify? options.settings parsed.table parsed.formula = some (.ok compiled) ∧
      Solver.load options.settings compiled.cnf = .ok solver ∧
      compiled.table.Augments parsed.table ∧ prepareText options text = .ok prepared ∧
      prepared.table = compiled.table ∧ prepared.solver = { solver with log } := by
  obtain ⟨compiled, compiled_eq, in_range, augments⟩ :=
    (Encoding.compiles_augments parse_eq options.settings).exists_clausify? enough
  obtain ⟨solver, loaded⟩ : ∃ solver, Solver.load options.settings compiled.cnf = .ok solver :=
    ⟨_, Solver.load_eq_ok_iff.mpr ⟨in_range, rfl⟩⟩
  refine ⟨compiled, solver, if options.quiet = 0 then some (solver.log.getD #[]) else solver.log,
    ?_⟩
  obtain ⟨prepared, prepared_eq, table_eq, solver_eq⟩ :
      ∃ prepared, prepareText options text = .ok prepared ∧ prepared.table = compiled.table ∧
        prepared.solver = if options.quiet = 0 then solver.listen else solver := by
    simp only [prepareText, parse_eq, compiled_eq, loaded]
    exact ⟨_, rfl, rfl, rfl⟩
  refine ⟨prepared, compiled_eq, loaded, augments, prepared_eq, table_eq, ?_⟩
  rw [solver_eq]
  split <;> rfl

/-- Every formula gets an answer.  When equivalences are not chained and no limit is hit, it is a
model, by the names of the formula, or that there is none. -/
theorem exists_answer (parse_eq : Grammar.parse? text = some (.ok parsed))
    (enough : parsed.atomsNeeded ≤ atomLimit) (options : Options) (clock : Nat → Duration) :
    ∃ prepared verdict final, prepareText options text = .ok prepared ∧
      prepared.solver.solve? clock = some (.ok verdict, final) ∧
      (verdict = .satisfiable → final.phase = .satisfiable) ∧
      (options.settings.iffTemplate.value = .direct →
        ¬ LimitHit clock options.settings final verdict →
          (∃ values, parsed.eval values = true ∧ prepared.answer final verdict =
            "SAT\n" ++ valueText parsed.table.names.toList values) ∨
          (∀ values, parsed.eval values = false) ∧
            prepared.answer final verdict = "NON-SAT\n") := by
  have sound := Grammar.sound_of_parse? parse_eq
  have ⟨plain, within⟩ := sound
  obtain ⟨compiled, solver, log, prepared, compiled_eq, loaded, augments, prepared_eq, table_eq,
    solver_eq⟩ := exists_prepareText parse_eq enough options
  have loaded_sound := (Solver.sound_of_load loaded).listening log
  obtain ⟨_, rfl⟩ := Solver.load_eq_ok_iff.mp loaded
  obtain ⟨verdict, final, solve_eq, attested, last_sound, phase_eq, cnf_eq, settings_eq, late⟩ :=
    loaded_sound.exists_solve? rfl clock
  rw [← solver_eq] at solve_eq
  refine ⟨prepared, verdict, final, prepared_eq, solve_eq, ?_, ?_⟩
  · rintro rfl
    exact phase_eq
  intro direct no_limit
  obtain ⟨_, same_eq, faithful⟩ :=
    (Encoding.compiles_faithful parse_eq direct).exists_clausify? enough
  rw [compiled_eq] at same_eq
  cases same_eq
  cases verdict with
  | timeUp => exact (no_limit (late rfl)).elim
  | unknown =>
      apply (no_limit ?_).elim
      have reached := attested.2
      rw [settings_eq] at reached
      exact reached
  | unsatisfiable =>
      refine .inr ⟨fun values => ?_, rfl⟩
      cases value : parsed.eval values with
      | false => rfl
      | true =>
          obtain ⟨other, holds⟩ := faithful.complete _ value
          rw [Solver.Attests, cnf_eq] at attested
          exact (attested other holds).elim
  | satisfiable =>
      obtain ⟨model, model_eq, model_size, _, holds⟩ := decides_of_satisfied faithful.toSafe within
        cnf_eq (last_sound.size_eq.trans (congrArg Cnf.atomCount cnf_eq)) phase_eq attested
        options.settings
      have enough : parsed.table.count ≤ model.size := model_size ▸ faithful.enough
      rw [evaluate?_cut enough within,
        Formula.evaluate?_ofModel (Formula.within_mono enough within)] at holds
      rw [Solver.model, phase_eq] at model_eq
      cases model_eq
      refine .inl ⟨_, (eval_valuesIn sound enough).trans (Option.some.inj holds), ?_⟩
      rw [Prepared.answer, table_eq, modelText_eq augments plain]

end Answers

section Runs

variable {σ : Type} [Random.Source σ] {seeding : UInt64 → σ} {clock : Nat → Duration}
  {arguments : List String} {input : List UInt8} {line text : String} {options : Options}

theorem code_of_refused (readable : firstLine? input = some line)
    (refused : Refused seeding arguments line) : (run seeding clock arguments input).code = 1 := by
  rcases refused with ⟨fault, arguments_eq⟩ | ⟨options, text, fault, arguments_eq, text_eq, failed⟩
  · simp [run, readArguments, arguments_eq]
  · simp [run, readArguments, arguments_eq, prepare, readable, text_eq, prepareText, failed]

theorem sat_append_ne (rest : String) : "SAT\n" ++ rest ≠ "NON-SAT\n" := by
  intro same
  have characters := congrArg String.toList same
  simp at characters

/-- An answer that gives a model or denies it rightly tells whether there is one. -/
theorem answer_iff {parsed : Grammar.Parsed} {names : List String} {answer : String}
    (right : (∃ values, parsed.eval values = true ∧
        answer = "SAT\n" ++ valueText names values) ∨
      (∀ values, parsed.eval values = false) ∧ answer = "NON-SAT\n") :
    ((∃ values, parsed.eval values = true) ↔
      ∃ values, parsed.eval values = true ∧ answer = "SAT\n" ++ valueText names values) ∧
    ((∀ values, parsed.eval values = false) ↔ answer = "NON-SAT\n") := by
  rcases right with ⟨values, holds, answer_eq⟩ | ⟨refuted, answer_eq⟩
  · refine ⟨⟨fun _ => ⟨values, holds, answer_eq⟩, ?_⟩, fun refuted => ?_, fun other_eq => ?_⟩
    · rintro ⟨other, other_holds, _⟩
      exact ⟨other, other_holds⟩
    · rw [refuted values] at holds
      cases holds
    · exact (sat_append_ne _ (answer_eq.symm.trans other_eq)).elim
  · refine ⟨⟨?_, ?_⟩, fun _ => answer_eq, fun _ => refuted⟩
    · rintro ⟨values, holds⟩
      rw [refuted values] at holds
      cases holds
    · rintro ⟨values, holds, _⟩
      exact ⟨values, holds⟩

/-- A run on a formula exits with 0 and writes the answer. -/
theorem exists_run_of_parse? (readable : firstLine? input = some line)
    (arguments_eq : Options.ofArguments arguments = .ok options)
    (text_eq : options.text? seeding (some line) = some text) {parsed : Grammar.Parsed}
    (parse_eq : Grammar.parse? text = some (.ok parsed))
    (enough : parsed.atomsNeeded ≤ atomLimit) :
    ∃ prepared verdict final, prepareText options text = .ok prepared ∧
      prepared.solver.solve? clock = some (.ok verdict, final) ∧
      run seeding clock arguments input =
        { code := 0
          output := prepared.lead final ++ prepared.answer final verdict ++
            prepared.closing final } ∧
      (options.settings.iffTemplate.value = .direct →
        ¬ LimitHit clock options.settings final verdict →
          (∃ values, parsed.eval values = true ∧ prepared.answer final verdict =
            "SAT\n" ++ valueText parsed.table.names.toList values) ∨
          (∀ values, parsed.eval values = false) ∧
            prepared.answer final verdict = "NON-SAT\n") := by
  obtain ⟨prepared, verdict, final, prepared_eq, solve_eq, recorded, right⟩ :=
    exists_answer parse_eq enough options clock
  refine ⟨prepared, verdict, final, prepared_eq, solve_eq, ?_, right⟩
  rw [← conclude_eq recorded]
  simp [run, readArguments, arguments_eq, prepare, readable, text_eq, prepared_eq, solve_eq,
    conclude?]

/-- A run that is not refused exits with 0. -/
theorem code_of_accepted [Random.LawfulSource σ] (readable : firstLine? input = some line)
    (clock : Nat → Duration) (supplied : Supplied seeding arguments line)
    (accepted : ¬ Refused seeding arguments line) :
    (run seeding clock arguments input).code = 0 := by
  cases arguments_eq : Options.ofArguments arguments with
  | error fault => exact (accepted (.inl ⟨fault, arguments_eq⟩)).elim
  | ok options =>
      obtain ⟨text, text_eq⟩ := exists_text? seeding options line
      have enough := supplied options text arguments_eq text_eq
      obtain ⟨outcome, parse_eq⟩ :=
        Option.ne_none_iff_exists'.mp (Grammar.parse?_ne_none enough.names)
      cases outcome with
      | error fault =>
          exact (accepted (.inr ⟨options, text, fault, arguments_eq, text_eq, parse_eq⟩)).elim
      | ok parsed =>
          obtain ⟨_, _, _, _, _, run_eq, _⟩ := exists_run_of_parse? readable arguments_eq text_eq
            parse_eq (enough.parts parsed parse_eq)
          rw [run_eq]

/-- A run whose text does not need more atoms than there are is refused for its arguments or its
text, and then only its exit code is 1; else it is 0.  What is written about a formula ends with an
answer, which gives a model by the distinct names of the text exactly if there is one, unless
equivalences are chained or a limit is hit.  A random text may come from any lawful source. -/
theorem run_answers [Random.LawfulSource σ] (readable : firstLine? input = some line)
    (clock : Nat → Duration) (arguments : List String)
    (supplied : Supplied seeding arguments line) :
    ((run seeding clock arguments input).code = 1 ↔ Refused seeding arguments line) ∧
    (¬ Refused seeding arguments line → (run seeding clock arguments input).code = 0) ∧
    ∀ options, Options.ofArguments arguments = .ok options →
      ∃ text, options.text? seeding (some line) = some text ∧
        ∀ parsed, Grammar.parse? text = some (.ok parsed) →
          ∃ prepared verdict final tokens,
            prepareText options text = .ok prepared ∧
            prepared.solver.solve? clock = some (.ok verdict, final) ∧
            Grammar.Spells text.toList tokens ∧
            (run seeding clock arguments input).output =
              prepared.lead final ++ prepared.answer final verdict ++ prepared.closing final ∧
            (options.settings.iffTemplate.value = .direct →
              ¬ LimitHit clock options.settings final verdict →
              ((∃ values, parsed.eval values = true) ↔
                ∃ values, parsed.eval values = true ∧ prepared.answer final verdict =
                  "SAT\n" ++ valueText (Grammar.names tokens).eraseDups values) ∧
              ((∀ values, parsed.eval values = false) ↔
                prepared.answer final verdict = "NON-SAT\n")) := by
  have answered := fun accepted => code_of_accepted readable clock supplied accepted
  refine ⟨⟨fun code_eq => ?_, code_of_refused readable⟩, answered, ?_⟩
  · by_contra accepted
    rw [answered accepted] at code_eq
    cases code_eq
  · intro options arguments_eq
    obtain ⟨text, text_eq⟩ := exists_text? seeding options line
    have enough := supplied options text arguments_eq text_eq
    refine ⟨text, text_eq, fun parsed parse_eq => ?_⟩
    obtain ⟨prepared, verdict, final, prepared_eq, solve_eq, run_eq, right⟩ :=
      exists_run_of_parse? readable arguments_eq text_eq parse_eq (enough.parts parsed parse_eq)
    obtain ⟨tokens, spells, names_eq⟩ := Grammar.exists_names_of_parse? parse_eq
    rw [names_eq] at right
    exact ⟨prepared, verdict, final, tokens, prepared_eq, solve_eq, spells,
      congrArg Outcome.output run_eq, fun direct no_limit => answer_iff (right direct no_limit)⟩

/-- A run on a line of input, without arguments, answers with the one model of a conjunction. -/
theorem run_answers_conjunction :
    firstLine? [97, 38, 98, 10] = some "a&b" ∧
      Supplied Random.Xoshiro.ofSeed [] "a&b" ∧
      (run Random.Xoshiro.ofSeed (fun _ => ⟨1⟩) [] [97, 38, 98, 10]).code = 0 ∧
      ∃ lead closing values, values "a" = true ∧ values "b" = true ∧
        (run Random.Xoshiro.ofSeed (fun _ => ⟨1⟩) [] [97, 38, 98, 10]).output =
          lead ++ ("SAT\n" ++ valueText ["a", "b"] values) ++ closing := by
  have readable : firstLine? [97, 38, 98, 10] = some "a&b" := by decide +kernel
  have parse_eq : Grammar.parse? "a&b" =
      some (.ok { formula := .bin .and (.var 0) (.var 1), table := ⟨#["a", "b"]⟩ }) := by
    with_unfolding_all rfl
  have two_names : Grammar.nameCount "a&b" = 2 := by with_unfolding_all rfl
  have supplied : Supplied Random.Xoshiro.ofSeed [] "a&b" := by
    intro options text arguments_eq text_eq
    cases arguments_eq
    cases text_eq
    refine ⟨by rw [two_names]; decide, fun parsed accepted => ?_⟩
    rw [parse_eq] at accepted
    cases accepted
    decide
  obtain ⟨code_iff, code_eq, answered⟩ := run_answers readable (fun _ => ⟨1⟩) [] supplied
  have spells : Grammar.Spells "a&b".toList [.name "a", .connective .and, .name "b"] :=
    Grammar.spells_iff.mpr (by with_unfolding_all rfl)
  have verdict_eq : ((prepareText {} "a&b").toOption.bind fun prepared =>
      (prepared.solver.solve? fun _ => ⟨1⟩).map fun ended => ended.1.toOption) =
        some (some .satisfiable) := by decide +kernel
  obtain ⟨text, text_eq, answered⟩ := answered {} rfl
  cases text_eq
  obtain ⟨prepared, verdict, final, tokens, prepared_eq, solve_eq, tokens_spells, output_eq, right⟩ :=
    answered _ parse_eq
  obtain rfl := tokens_spells.tokens_eq spells
  have satisfiable : verdict = .satisfiable := by
    rw [prepared_eq] at verdict_eq
    simpa [Except.toOption, solve_eq] using verdict_eq
  obtain rfl := satisfiable
  obtain ⟨values, holds, answer_eq⟩ := (right rfl fun hit => hit).1.mp ⟨fun _ => true, rfl⟩
  have both : (values "a" && values "b") = true := holds
  rw [Bool.and_eq_true] at both
  refine ⟨readable, supplied, code_eq ?_, prepared.lead final, prepared.closing final, values,
    both.1, both.2, ?_⟩
  · rintro (⟨fault, refused⟩ | ⟨options, text, fault, arguments_eq, text_eq, failed⟩)
    · cases refused
    · cases arguments_eq
      cases text_eq
      rw [parse_eq] at failed
      cases failed
  · rw [output_eq, answer_eq]
    rfl

end Runs
end CommandLine
end PropSat
