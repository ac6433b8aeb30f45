import PropSat.Proofs.Encoding.Demand

/-!
# Models of a transformation

The exactness of a transformation is stated here for models as the program has them: arrays with a
value for each atom of the table.  A model is cut to the source atoms by taking its front part, and
a source model is continued by the values of the compound parts.
-/

namespace PropSat

/-- The values of the first atoms of a model. -/
def cut (count : Nat) (model : Array Bool) : Array Bool := model.extract 0 count

section Cutting

variable {count : Nat} {model : Array Bool}

theorem size_cut (enough : count ≤ model.size) : (cut count model).size = count := by
  simp [cut, enough]

theorem ofModel_cut (enough : count ≤ model.size) {atom : Nat} (inside : atom < count) :
    Assignment.ofModel (cut count model) atom = Assignment.ofModel model atom := by
  have in_model : atom < model.size := by omega
  have in_cut : atom < min count model.size := by omega
  simp [Assignment.ofModel, cut, in_cut, in_model]

theorem ofModel_ofFn {assignment : Assignment} {atom : Nat} (inside : atom < count) :
    Assignment.ofModel (Array.ofFn fun index : Fin count => assignment index) atom =
      assignment atom := by
  simp [Assignment.ofModel, inside]

theorem eq_of_ofModel {left right : Array Bool} (size_eq : left.size = right.size)
    (agree : ∀ atom < left.size, Assignment.ofModel left atom = Assignment.ofModel right atom) :
    left = right := by
  apply Array.ext size_eq
  intro atom in_left in_right
  simpa [Assignment.ofModel, in_left, in_right] using agree atom in_left

/-- A formula over the first atoms has the same value on the cut model. -/
theorem evaluate?_cut (enough : count ≤ model.size) {formula : Formula}
    (within : formula.within count = true) :
    formula.evaluate? (.ofModel (cut count model)) = formula.evaluate? (.ofModel model) := by
  rw [Formula.evaluate?_ofModel (Formula.within_mono enough within),
    Formula.evaluate?_ofModel (by rw [size_cut enough]; exact within)]
  exact congrArg some (Formula.eval_congr (fun atom inside => ofModel_cut enough inside) within)

end Cutting

/-- Clauses over the atoms below a count do not tell assignments apart that agree there. -/
theorem Cnf.InRange.holds_congr {cnf : Cnf} (in_range : cnf.InRange) {left right : Assignment}
    (agree : ∀ atom < cnf.atomCount, left atom = right atom) :
    cnf.Holds left ↔ cnf.Holds right := by
  have same : ∀ clause ∈ cnf.clauses, ∀ literal ∈ clause,
      (literal.Holds left ↔ literal.Holds right) := by
    intro clause member literal occurs
    rw [Literal.Holds, Literal.Holds, agree _ (in_range clause member literal occurs)]
  constructor
  · intro holds clause member
    obtain ⟨literal, occurs, literal_holds⟩ := holds clause member
    exact ⟨literal, occurs, (same clause member literal occurs).mp literal_holds⟩
  · intro holds clause member
    obtain ⟨literal, occurs, literal_holds⟩ := holds clause member
    exact ⟨literal, occurs, (same clause member literal occurs).mpr literal_holds⟩

/-- On a model, clauses hold exactly if the program's check says so. -/
theorem Cnf.InRange.holdsIn?_eq_true_iff {cnf : Cnf} (in_range : cnf.InRange) {model : Array Bool}
    (size_eq : model.size = cnf.atomCount) :
    cnf.holdsIn? model = some true ↔ cnf.Holds (.ofModel model) := by
  obtain ⟨answer, answer_eq, answer_iff⟩ := Cnf.holdsIn?_eq in_range size_eq
  rw [answer_eq, Option.some.injEq, answer_iff]

namespace AtomTable

/-- Whether a model gives a value to the atom that bears the canonical form of a formula. -/
def GivenIn (table : AtomTable) (model : Array Bool) (formula : Formula) (value : Bool) : Prop :=
  ∃ atom, table.atomOf? formula = some atom ∧ model[atom]? = some value

/-- Whether a model gives the atom that bears the canonical form of a formula the value that the
formula has on it. -/
def ValuedIn (table : AtomTable) (model : Array Bool) (formula : Formula) : Prop :=
  ∃ name atom value, formula.canonical? table = some name ∧ table.find? name = some atom ∧
    model[atom]? = some value ∧ formula.evaluate? (.ofModel model) = some value

namespace Distinct

variable {table : AtomTable} {part formula : Formula} {model : Array Bool}

/-- After a transformation, the atom that bears the form of a part is the one that represents it. -/
theorem givenIn_grow_iff (distinct : table.Distinct) (within : formula.within table.count = true)
    (member : part ∈ formula.compounds) (size_eq : model.size = (table.grow formula).count)
    {value : Bool} :
    (table.grow formula).GivenIn model part value ↔
      Assignment.ofModel model ((table.grow formula).representative part) = value := by
  have inside := name?_lt_count (distinct.name?_representative_grow within member)
  rw [← size_eq] at inside
  have at_atom : model[(table.grow formula).representative part]? =
      some (Assignment.ofModel model ((table.grow formula).representative part)) := by
    simp [Assignment.ofModel, inside]
  rw [GivenIn, distinct.atomOf?_grow within member]
  constructor
  · rintro ⟨atom, same, value_eq⟩
    cases same
    rw [at_atom] at value_eq
    exact Option.some.inj value_eq
  · rintro rfl
    exact ⟨_, rfl, at_atom⟩

theorem valuedIn_grow_iff (distinct : table.Distinct) (within : formula.within table.count = true)
    (member : part ∈ formula.compounds) (size_eq : model.size = (table.grow formula).count) :
    (table.grow formula).ValuedIn model part ↔
      Assignment.ofModel model ((table.grow formula).representative part) =
        part.eval (.ofModel model) := by
  have part_within := Formula.within_mono (table.below_grow formula).count_le
    (Formula.within_of_mem_compounds within member)
  have evaluated : part.evaluate? (.ofModel model) = some (part.eval (.ofModel model)) :=
    Formula.evaluate?_ofModel (by rw [size_eq]; exact part_within)
  rw [← distinct.givenIn_grow_iff within member size_eq]
  constructor
  · rintro ⟨name, atom, value, name_eq, atom_eq, value_eq, part_eq⟩
    rw [evaluated] at part_eq
    cases part_eq
    exact ⟨atom, Option.bind_eq_some_iff.mpr ⟨name, name_eq, atom_eq⟩, value_eq⟩
  · rintro ⟨atom, denoted, value_eq⟩
    obtain ⟨name, name_eq, atom_eq⟩ := Option.bind_eq_some_iff.mp denoted
    exact ⟨name, atom, _, name_eq, atom_eq, value_eq, evaluated⟩

end Distinct
end AtomTable

namespace Encoding

variable {table source : AtomTable} {formula : Formula}

/-- A model satisfies the clauses of a transformation exactly if it satisfies the formula and has
the value of every compound part at the atom named by it. -/
theorem holdsIn?_transformed_iff (distinct : table.Distinct)
    (within : formula.within table.count = true) {model : Array Bool}
    (size_eq : model.size = (table.grow formula).count) :
    (transformed .direct table formula).holdsIn? model = some true ↔
      formula.evaluate? (.ofModel model) = some true ∧
        ∀ part ∈ formula.compounds, (table.grow formula).ValuedIn model part := by
  have final_within := Formula.within_mono (table.below_grow formula).count_le within
  rw [(transformed_inRange distinct within .direct).holdsIn?_eq_true_iff size_eq,
    transformed_holds_iff distinct within,
    Formula.evaluate?_ofModel (by rw [size_eq]; exact final_within), Option.some.injEq]
  apply and_congr_right
  intro _
  constructor
  · exact fun parts part member =>
      (distinct.valuedIn_grow_iff within member size_eq).mpr (parts part member)
  · exact fun parts part member =>
      (distinct.valuedIn_grow_iff within member size_eq).mp (parts part member)

/-- If a source model and values of the compound parts satisfy the clauses of a formula, then the
source model is continued by a model of them. -/
theorem exists_model_of_holds_extended (continues : table.Continues source)
    (within : formula.within source.count = true) {template : IffTemplate}
    {value : Assignment → Formula → Bool} {origin : Array Bool}
    (size_eq : origin.size = source.count)
    (holds : (transformed template table formula).Holds
      (extended value table formula (.ofModel origin))) :
    ∃ model : Array Bool, model.size = (table.grow formula).count ∧
      cut source.count model = origin ∧
      (transformed template table formula).holdsIn? model = some true := by
  let assignment := extended value table formula (.ofModel origin)
  let model := Array.ofFn fun index : Fin (table.grow formula).count => assignment index
  have model_size : model.size = (table.grow formula).count := Array.size_ofFn
  have enough : source.count ≤ model.size := by
    rw [model_size]
    exact (continues.grow formula).below.count_le
  refine ⟨model, model_size, ?_, ?_⟩
  · apply eq_of_ofModel ((size_cut enough).trans size_eq.symm)
    intro atom inside
    rw [size_cut enough] at inside
    rw [ofModel_cut enough inside, ofModel_ofFn (by omega)]
    exact extended_eq_of_lt continues within atom inside
  · have in_range := transformed_inRange continues.distinct (continues.within within) template
    rw [in_range.holdsIn?_eq_true_iff model_size]
    apply (in_range.holds_congr _).mpr holds
    exact fun atom inside => ofModel_ofFn inside

/-- A source model of a formula can be continued to a model of its clauses. -/
theorem exists_continued_model (continues : table.Continues source)
    (within : formula.within source.count = true) {origin : Array Bool}
    (size_eq : origin.size = source.count)
    (satisfied : formula.evaluate? (.ofModel origin) = some true) :
    ∃ model : Array Bool, model.size = (table.grow formula).count ∧
      cut source.count model = origin ∧
      (transformed .direct table formula).holdsIn? model = some true := by
  rw [Formula.evaluate?_ofModel (by rw [size_eq]; exact within)] at satisfied
  exact exists_model_of_holds_extended continues within size_eq
    (transformed_holds_extended continues within (Option.some.inj satisfied))

/-- Whether clauses over a table define a formula over source atoms, together with all of its
compound parts and nothing else. -/
structure Exact (source final : AtomTable) (formula : Formula) (cnf : Cnf) : Prop where
  /-- The clauses speak about the atoms of the table. -/
  count_eq : cnf.atomCount = final.count
  /-- The models are those of the formula that have the value of every part at its atom. -/
  models : ∀ model : Array Bool, model.size = cnf.atomCount →
    (cnf.holdsIn? model = some true ↔
      formula.evaluate? (.ofModel model) = some true ∧
        ∀ part ∈ formula.compounds, final.ValuedIn model part)
  /-- Every source model of the formula can be continued to a model of the clauses. -/
  continued : ∀ origin : Array Bool, origin.size = source.count →
    formula.evaluate? (.ofModel origin) = some true →
      ∃ model : Array Bool, model.size = cnf.atomCount ∧ cut source.count model = origin ∧
        cnf.holdsIn? model = some true
  /-- Models of the clauses that continue the same source model agree on the parts. -/
  unique : ∀ first second : Array Bool, first.size = cnf.atomCount →
    second.size = cnf.atomCount → cut source.count first = cut source.count second →
      cnf.holdsIn? first = some true → cnf.holdsIn? second = some true →
        ∀ part ∈ formula.compounds, ∀ name atom, part.canonical? final = some name →
          final.find? name = some atom → first[atom]? = second[atom]?
  /-- Every model of the clauses, cut to the source atoms, is one of the formula. -/
  sound : ∀ model : Array Bool, model.size = cnf.atomCount → cnf.holdsIn? model = some true →
    formula.evaluate? (.ofModel (cut source.count model)) = some true

theorem exact_transformed (continues : table.Continues source)
    (within : formula.within source.count = true) :
    Exact source (table.grow formula) formula (transformed .direct table formula) := by
  have table_within := continues.within within
  have enough : source.count ≤ (table.grow formula).count :=
    (continues.grow formula).below.count_le
  have models := fun (model : Array Bool) (size_eq : model.size = (table.grow formula).count) =>
    holdsIn?_transformed_iff continues.distinct table_within size_eq
  refine ⟨rfl, models, fun origin => exists_continued_model continues within, ?_, ?_⟩
  · intro first second first_size second_size same_cut first_holds second_holds part member name
      atom name_eq atom_eq
    have part_within := Formula.within_of_mem_compounds within member
    obtain ⟨first_name, first_atom, first_value, first_name_eq, first_atom_eq, at_first,
      first_part⟩ := ((models first first_size).mp first_holds).2 part member
    obtain ⟨second_name, second_atom, second_value, second_name_eq, second_atom_eq, at_second,
      second_part⟩ := ((models second second_size).mp second_holds).2 part member
    rw [name_eq] at first_name_eq second_name_eq
    cases first_name_eq
    cases second_name_eq
    rw [atom_eq] at first_atom_eq second_atom_eq
    cases first_atom_eq
    cases second_atom_eq
    rw [at_first, at_second, ← first_part, ← second_part,
      ← evaluate?_cut (first_size.symm ▸ enough) part_within, same_cut,
      evaluate?_cut (second_size.symm ▸ enough) part_within]
  · intro model size_eq holds
    rw [evaluate?_cut (size_eq.symm ▸ enough) within]
    exact ((models model size_eq).mp holds).1

/-- Over the names of a text, and whatever was transformed before, the transformation of a formula
succeeds and is exact if there are the atoms that it needs. -/
theorem tseitin?_exact {text : String} {parsed : Grammar.Parsed}
    (parse_eq : Grammar.parse? text = some (.ok parsed)) (reached : parsed.table.Reached table)
    (within : formula.within parsed.table.count = true) :
    Delivers .direct table formula fun cnf final => Exact parsed.table final formula cnf :=
  delivers_of_parse? parse_eq reached within fun continues _ => exact_transformed continues within

theorem tseitin?_exact_of_shared_part :
    Grammar.parse? "a->b" = some
        (.ok { formula := .bin .implies (.var 0) (.var 1), table := .ofNames ["a", "b"] }) ∧
      (AtomTable.ofNames ["a", "b"]).Reached (.ofNames ["a", "b", "!b"]) ∧
      (Formula.bin .iff (.var 0) (.neg (.var 1))).within 2 = true ∧
      ∃ cnf final,
        tseitin? .direct (.ofNames ["a", "b", "!b"]) (.bin .iff (.var 0) (.neg (.var 1))) =
            some (.ok cnf, final) ∧
          Exact (.ofNames ["a", "b"]) final (.bin .iff (.var 0) (.neg (.var 1))) cnf := by
  have parse_eq : Grammar.parse? "a->b" = some
      (.ok { formula := .bin .implies (.var 0) (.var 1), table := .ofNames ["a", "b"] }) := by
    with_unfolding_all rfl
  have negated : tseitin? .direct (.ofNames ["a", "b"]) (.neg (.var 1)) =
      some
        (.ok
          { atomCount := 3
            clauses := [[.negative 1, .negative 2], [.positive 1, .positive 2], [.positive 2]] },
          .ofNames ["a", "b", "!b"]) := by rfl
  have reached : (AtomTable.ofNames ["a", "b"]).Reached (.ofNames ["a", "b", "!b"]) :=
    .transform .start (by decide) negated
  have within : (Formula.bin .iff (.var 0) (.neg (.var 1))).within 2 = true := by decide
  exact ⟨parse_eq, reached, within, (tseitin?_exact parse_eq reached within).enough (by decide)⟩

end Encoding
end PropSat
