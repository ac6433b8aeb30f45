import PropSat.Proofs.Encoding.Faithfulness
import PropSat.Proofs.Formula.Chained

/-!
# What chained clauses say

Clauses that chain the equivalences of a formula are exact for another reading of it: an equivalence
counts as its second operand, and its operands have to agree wherever it stands.  The two readings
differ where an equivalence stands negatively, and otherwise every model of the chained clauses is
one of the formula.
-/

namespace PropSat
namespace Encoding
namespace Gate

section Clauses

variable {assignment : Assignment}

/-- Chained clauses tie both operands of an equivalence to its output. -/
theorem chained_hold_iff {left right output : Literal} :
    (∀ clause ∈ equivalence .chained left right output, clause.Holds assignment) ↔
      left.value assignment = right.value assignment ∧
        output.value assignment = right.value assignment := by
  simp only [equivalence, List.forall_mem_cons, Clause.holds_cons, Literal.value_negate]
  cases left.value assignment <;> cases right.value assignment <;>
    cases output.value assignment <;> simp

/-- Only the clauses of equivalences depend on the template. -/
theorem clauses_binary_eq {connective : Connective} (other : connective ≠ .iff)
    (template : IffTemplate) (left right output : Literal) :
    (binary connective left right output).clauses template =
      (binary connective left right output).clauses .direct := by
  cases connective with
  | and | or | implies => rfl
  | iff => exact (other rfl).elim

/-- The chained clauses of a gate say that its output has the chained value, and that the operands
of an equivalence agree. -/
theorem chained_clauses_hold_iff {connective : Connective} {left right output : Nat} :
    (∀ clause ∈ (binary connective (.positive left) (.positive right)
        (.positive output)).clauses .chained, clause.Holds assignment) ↔
      (connective = .iff → assignment left = assignment right) ∧
        assignment output = connective.chainedEval (assignment left) (assignment right) := by
  by_cases same : connective = .iff
  · rw [same, clauses, chained_hold_iff]
    simp only [Literal.value_positive, Connective.chainedEval, true_imp_iff]
  · rw [clauses_binary_eq same, clauses_hold_iff, holds_binary_iff,
      Connective.chainedEval_eq same]
    exact (and_iff_right fun equal => (same equal).elim).symm

end Clauses
end Gate
end Encoding

namespace Formula

variable {atomOf : Formula → Nat} {bound : Nat} {formula : Formula}

/-- What chained clauses say of a part: it has its chained value at its atom, and if it is an
equivalence then its operands agree. -/
def ChainedAt (atomOf : Formula → Nat) (assignment : Assignment) (part : Formula) : Prop :=
  (∀ left right, part = bin .iff left right →
    left.chainedEval assignment = right.chainedEval assignment) ∧
  assignment (atomOf part) = part.chainedEval assignment

/-- The chained clauses of the gates of a formula say of every compound part what they say of the
gate of that part. -/
theorem chained_gates_hold_iff {assignment : Assignment}
    (var_eq : ∀ atom < bound, atomOf (var atom) = atom) (within : formula.within bound = true) :
    (∀ gate ∈ formula.gates atomOf, ∀ clause ∈ gate.clauses .chained,
        clause.Holds assignment) ↔
      ∀ part ∈ formula.compounds, part.ChainedAt atomOf assignment := by
  refine forall_gates_iff ?_ ?_ within
  · intro inner inner_within parts
    have inner_eq := value_of_parts var_eq inner_within (fun part member => (parts part member).2)
      fun _ => rfl
    rw [Encoding.Gate.negation_hold_iff, Literal.value_positive, Literal.value_positive,
      inner_eq, ChainedAt, chainedEval]
    refine (and_iff_right ?_).symm
    rintro left right ⟨⟩
  · intro connective left right left_within right_within left_parts right_parts
    have left_eq := value_of_parts var_eq left_within
      (fun part member => (left_parts part member).2) fun _ => rfl
    have right_eq := value_of_parts var_eq right_within
      (fun part member => (right_parts part member).2) fun _ => rfl
    rw [Encoding.Gate.chained_clauses_hold_iff, left_eq, right_eq, ChainedAt, chainedEval]
    apply and_congr_left
    intro _
    constructor
    · rintro agree _ _ ⟨rfl, rfl, rfl⟩
      exact agree rfl
    · rintro agree rfl
      exact agree left right rfl

/-- What chained clauses say of all compound parts is that the operands of all equivalences agree
and that every part has its chained value. -/
theorem forall_chainedAt_iff {assignment : Assignment} :
    (∀ part ∈ formula.compounds, part.ChainedAt atomOf assignment) ↔
      formula.Linked assignment ∧
        ∀ part ∈ formula.compounds, assignment (atomOf part) = part.chainedEval assignment := by
  simp only [ChainedAt, forall₂_and]
  apply and_congr_left
  intro _
  constructor
  · exact fun linked left right member => linked _ member left right rfl
  · rintro linked _ member left right rfl
    exact linked left right member

/-- Chaining changes the clauses of a gate exactly if it is one of an equivalence. -/
theorem chained_gates_eq_iff (within : formula.within bound = true) :
    (∀ gate ∈ formula.gates atomOf, gate.clauses .chained = gate.clauses .direct) ↔
      ∀ part ∈ formula.compounds, ∀ left right, part ≠ bin .iff left right := by
  refine forall_gates_iff ?_ ?_ within
  · intro inner _ _
    refine iff_of_true rfl ?_
    rintro left right ⟨⟩
  · intro connective left right _ _ _ _
    constructor
    · rintro same _ _ ⟨rfl, rfl, rfl⟩
      simp [Encoding.Gate.clauses, Encoding.Gate.equivalence] at same
    · intro other
      exact Encoding.Gate.clauses_binary_eq
        (fun same => other left right (by rw [same])) .chained _ _ _

end Formula

namespace Encoding

variable {table source : AtomTable} {formula : Formula} {assignment : Assignment}

/-- The chained clauses of a transformation hold exactly when the formula, read as chained, does,
the operands of all equivalences agree, and every compound part has its chained value at the atom
that represents it. -/
theorem chained_holds_iff (distinct : table.Distinct)
    (within : formula.within table.count = true) :
    (transformed .chained table formula).Holds assignment ↔
      formula.chainedEval assignment = true ∧ formula.Linked assignment ∧
        ∀ part ∈ formula.compounds,
          assignment ((table.grow formula).representative part) =
            part.chainedEval assignment := by
  have final_within := Formula.within_mono (table.below_grow formula).count_le within
  have var_eq := representative_grow_var distinct formula
  rw [transformed_holds_iff_gates, Formula.chained_gates_hold_iff var_eq final_within,
    Formula.forall_chainedAt_iff, and_comm]
  apply and_congr_left
  rintro ⟨_, parts⟩
  rw [Formula.value_of_parts var_eq final_within parts fun _ => rfl]

/-- Values of source atoms under which a formula is read as true and its equivalences have operands
that agree can be continued to a model of its chained clauses. -/
theorem chained_holds_extended (continues : table.Continues source)
    (within : formula.within source.count = true) (read : formula.chainedEval assignment = true)
    (linked : formula.Linked assignment) :
    (transformed .chained table formula).Holds
      (extended Formula.chainedEval table formula assignment) := by
  have agree : ∀ atom < source.count,
      extended Formula.chainedEval table formula assignment atom = assignment atom :=
    extended_eq_of_lt continues within
  rw [chained_holds_iff continues.distinct (continues.within within),
    Formula.chainedEval_congr agree within]
  exact ⟨read, linked.congr (fun atom inside => (agree atom inside).symm) within,
    extended_representative (fun agree => Formula.chainedEval_congr agree) continues within⟩

/-- A formula without equivalences has the same clauses whether or not they are chained. -/
theorem transformed_chained_eq (within : formula.within table.count = true)
    (plain : ∀ left right, .bin .iff left right ∉ formula.compounds) :
    transformed .chained table formula = transformed .direct table formula := by
  have gates_eq : ∀ gate ∈ formula.gates (table.grow formula).representative,
      gate.clauses .chained = gate.clauses .direct := by
    apply (Formula.chained_gates_eq_iff within).mpr
    rintro _ member left right rfl
    exact plain left right member
  rw [transformed, transformed, GateSet.clauses_eq, GateSet.clauses_eq]
  congr 2
  apply List.flatMap_congr
  intro gate member
  exact gates_eq gate (GateSet.mem_gates_insertAll_empty_iff.mp member)

/-- Whether clauses over a table define the chained reading of a formula over source atoms, together
with that of all of its compound parts. -/
structure Chaining (source final : AtomTable) (formula : Formula) (cnf : Cnf) : Prop where
  /-- The clauses speak about the atoms of the table. -/
  count_eq : cnf.atomCount = final.count
  /-- The models are those in which the formula is read as true, the operands of its equivalences
  agree and every compound part has the value it is read as at its atom. -/
  models : ∀ model : Array Bool, model.size = cnf.atomCount →
    (cnf.holdsIn? model = some true ↔
      formula.chainedEval (.ofModel model) = true ∧ formula.Linked (.ofModel model) ∧
        ∀ part ∈ formula.compounds,
          final.GivenIn model part (part.chainedEval (.ofModel model)))
  /-- The source models that can be continued are those in which the formula is read as true and the
  operands of its equivalences agree. -/
  continued : ∀ origin : Array Bool, origin.size = source.count →
    ((∃ model : Array Bool, model.size = cnf.atomCount ∧ cut source.count model = origin ∧
        cnf.holdsIn? model = some true) ↔
      formula.chainedEval (.ofModel origin) = true ∧ formula.Linked (.ofModel origin))

theorem chaining_transformed (continues : table.Continues source)
    (within : formula.within source.count = true) :
    Chaining source (table.grow formula) formula (transformed .chained table formula) := by
  have table_within := continues.within within
  have in_range := transformed_inRange continues.distinct table_within .chained
  have enough : source.count ≤ (table.grow formula).count :=
    (continues.grow formula).below.count_le
  refine ⟨rfl, ?_, ?_⟩
  · intro model size_eq
    rw [in_range.holdsIn?_eq_true_iff size_eq, chained_holds_iff continues.distinct table_within]
    apply and_congr_right
    intro _
    apply and_congr_right
    intro _
    exact forall₂_congr fun part member =>
      (continues.distinct.givenIn_grow_iff table_within member size_eq).symm
  · intro origin origin_size
    constructor
    · rintro ⟨model, size_eq, rfl, holds⟩
      have agree : ∀ atom < source.count,
          Assignment.ofModel model atom = Assignment.ofModel (cut source.count model) atom :=
        fun atom inside => (ofModel_cut (size_eq.symm ▸ enough) inside).symm
      rw [in_range.holdsIn?_eq_true_iff size_eq,
        chained_holds_iff continues.distinct table_within] at holds
      obtain ⟨read, linked, _⟩ := holds
      rw [Formula.chainedEval_congr agree within] at read
      exact ⟨read, linked.congr agree within⟩
    · rintro ⟨read, linked⟩
      exact exists_model_of_holds_extended continues within origin_size
        (chained_holds_extended continues within read linked)

/-- Over the names of a text, the chained transformation of its formula succeeds and defines the
chained reading if there are the atoms that it needs.  Without equivalences it is the transformation
that does not chain them. -/
theorem tseitin?_chaining {text : String} {parsed : Grammar.Parsed}
    (parse_eq : Grammar.parse? text = some (.ok parsed)) :
    Delivers .chained parsed.table parsed.formula fun cnf final =>
      Chaining parsed.table final parsed.formula cnf ∧
      ((∀ left right, .bin .iff left right ∉ parsed.formula.compounds) →
        tseitin? .direct parsed.table parsed.formula = some (.ok cnf, final)) := by
  have ⟨plain, within⟩ := Grammar.sound_of_parse? parse_eq
  refine delivers_of_parse? parse_eq .start within fun continues grown_fits => ?_
  refine ⟨chaining_transformed continues within, fun without => ?_⟩
  rw [transformed_chained_eq within without]
  exact tseitin?_eq plain.distinct within grown_fits .direct

theorem tseitin?_chaining_negated :
    Grammar.parse? "a<->!a" = some
        (.ok { formula := .bin .iff (.var 0) (.neg (.var 0)), table := .ofNames ["a"] }) ∧
      ∃ cnf final,
        tseitin? .chained (.ofNames ["a"]) (.bin .iff (.var 0) (.neg (.var 0))) =
            some (.ok cnf, final) ∧
          Chaining (.ofNames ["a"]) final (.bin .iff (.var 0) (.neg (.var 0))) cnf ∧
          ((∀ left right, .bin .iff left right ∉
              (Formula.bin .iff (.var 0) (.neg (.var 0))).compounds) →
            tseitin? .direct (.ofNames ["a"]) (.bin .iff (.var 0) (.neg (.var 0))) =
              some (.ok cnf, final)) := by
  have parse_eq : Grammar.parse? "a<->!a" = some
      (.ok { formula := .bin .iff (.var 0) (.neg (.var 0)), table := .ofNames ["a"] }) := by
    with_unfolding_all rfl
  exact ⟨parse_eq, (tseitin?_chaining parse_eq).enough (by decide)⟩

/-- Where equivalences stand only positively, chained clauses have no models but those that continue
models of the formula. -/
theorem safe_transformed_chained (continues : table.Continues source)
    (within : formula.within source.count = true)
    (positive : formula.iffPositive true = true) :
    Safe source formula (transformed .chained table formula) where
  in_range := transformed_inRange continues.distinct (continues.within within) .chained
  enough := (continues.grow formula).below.count_le
  sound := by
    intro assignment holds
    obtain ⟨read, linked, _⟩ :=
      (chained_holds_iff continues.distinct (continues.within within)).mp holds
    exact Formula.eval_of_chainedEval linked positive read

/-- Clauses found with chaining are safe where equivalences stand only positively. -/
theorem compiles_safe_chained {text : String} {parsed : Grammar.Parsed}
    (parse_eq : Grammar.parse? text = some (.ok parsed))
    (positive : parsed.formula.iffPositive true = true) {settings : Settings}
    (chained : settings.iffTemplate.value = .chained) :
    Compiles settings parsed fun compiled => Safe parsed.table parsed.formula compiled.cnf := by
  have ⟨plain, within⟩ := Grammar.sound_of_parse? parse_eq
  have continues := AtomTable.Continues.self plain
  apply compiles_of_parse? parse_eq fun cnf read => (faithful_of_asCnf continues read).toSafe
  rw [chained]
  exact safe_transformed_chained continues within positive

end Encoding
end PropSat
