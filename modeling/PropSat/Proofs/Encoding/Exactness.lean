import PropSat.Proofs.Encoding.Transformation
import PropSat.Proofs.Grammar.Printing

/-!
# Exactness of the transformation

The gates of a formula hold under an assignment exactly when every compound part has its value at
the atom that represents it.  Over source names different parts are represented by different atoms,
none of them a source atom, so the values of the source atoms fix those of the parts and can always
be continued to them.
-/

namespace PropSat
namespace Formula

section Gates

variable {atomOf : Formula → Nat} {bound : Nat} {formula : Formula}

/-- To say something of all gates of a formula is to say it of all compound parts, if it is so for
each part when it holds of the parts inside. -/
theorem forall_gates_iff {P : Encoding.Gate → Prop} {Q : Formula → Prop}
    (negation : ∀ inner : Formula, inner.within bound = true →
      (∀ part ∈ inner.compounds, Q part) →
        (P (.negation (.positive (atomOf inner)) (.positive (atomOf (neg inner)))) ↔
          Q (neg inner)))
    (binary : ∀ (connective : Connective) (left right : Formula), left.within bound = true →
      right.within bound = true → (∀ part ∈ left.compounds, Q part) →
        (∀ part ∈ right.compounds, Q part) →
          (P (.binary connective (.positive (atomOf left)) (.positive (atomOf right))
            (.positive (atomOf (bin connective left right)))) ↔ Q (bin connective left right)))
    (within : formula.within bound = true) :
    (∀ gate ∈ formula.gates atomOf, P gate) ↔ ∀ part ∈ formula.compounds, Q part := by
  induction formula with
  | var atom => simp [gates, compounds]
  | neg inner induction =>
      have inner_within : inner.within bound = true := within
      simp only [gates, compounds, List.forall_mem_append, List.forall_mem_singleton,
        induction inner_within]
      exact and_congr_right (negation inner inner_within)
  | bin connective left right left_induction right_induction =>
      rw [Formula.within, Bool.and_eq_true] at within
      simp only [gates, compounds, List.forall_mem_append, List.forall_mem_singleton,
        left_induction within.1, right_induction within.2]
      apply and_congr_right
      rintro ⟨left_parts, right_parts⟩
      exact binary connective left right within.1 within.2 left_parts right_parts

/-- A formula has its value at its atom if all its compound parts do. -/
theorem value_of_parts {assignment : Assignment} {value : Formula → Bool}
    (var_eq : ∀ atom < bound, atomOf (var atom) = atom) (within : formula.within bound = true)
    (parts : ∀ part ∈ formula.compounds, assignment (atomOf part) = value part)
    (value_var : ∀ atom, value (var atom) = assignment atom) :
    assignment (atomOf formula) = value formula := by
  cases formula with
  | var atom => rw [var_eq atom (by simpa [Formula.within] using within), value_var]
  | neg inner => exact parts _ (mem_compounds_self rfl)
  | bin connective left right => exact parts _ (mem_compounds_self rfl)

/-- The gates of a formula say that every compound part has its value at its atom. -/
theorem gates_hold_iff {assignment : Assignment}
    (var_eq : ∀ atom < bound, atomOf (var atom) = atom) (within : formula.within bound = true) :
    (∀ gate ∈ formula.gates atomOf, gate.Holds assignment) ↔
      ∀ part ∈ formula.compounds, assignment (atomOf part) = part.eval assignment := by
  refine forall_gates_iff ?_ ?_ within
  · intro inner inner_within parts
    rw [Encoding.Gate.holds_negation_iff,
      value_of_parts var_eq inner_within parts fun _ => rfl, eval]
  · intro connective left right left_within right_within left_parts right_parts
    rw [Encoding.Gate.holds_binary_iff,
      value_of_parts var_eq left_within left_parts fun _ => rfl,
      value_of_parts var_eq right_within right_parts fun _ => rfl, eval]

theorem atomOf_lt_of_parts (var_lt : ∀ atom < bound, atomOf (var atom) < bound)
    (within : formula.within bound = true)
    (parts : ∀ part ∈ formula.compounds, atomOf part < bound) : atomOf formula < bound := by
  cases formula with
  | var atom => exact var_lt atom (by simpa [Formula.within] using within)
  | neg inner => exact parts _ (mem_compounds_self rfl)
  | bin connective left right => exact parts _ (mem_compounds_self rfl)

/-- The gates of a formula are about the atoms of its parts. -/
theorem within_of_mem_gates (var_lt : ∀ atom < bound, atomOf (var atom) < bound)
    (within : formula.within bound = true)
    (parts : ∀ part ∈ formula.compounds, atomOf part < bound) :
    ∀ gate ∈ formula.gates atomOf, gate.Within bound := by
  refine (forall_gates_iff ?_ ?_ within).mpr parts
  · intro inner inner_within inner_parts
    exact and_iff_right (atomOf_lt_of_parts var_lt inner_within inner_parts)
  · intro connective left right left_within right_within left_parts right_parts
    exact (and_iff_right (atomOf_lt_of_parts var_lt left_within left_parts)).trans
      (and_iff_right (atomOf_lt_of_parts var_lt right_within right_parts))

end Gates

/-- Continue an assignment by values of the compound parts of a formula, at their atoms. -/
def continued (atomOf : Formula → Nat) (formula : Formula) (value : Formula → Bool)
    (assignment : Assignment) : Assignment := fun atom =>
  match formula.compounds.find? fun part => atomOf part = atom with
  | some part => value part
  | none => assignment atom

section Continuation

variable {atomOf : Formula → Nat} {formula : Formula} {value : Formula → Bool}
  {assignment : Assignment} {bound : Nat}

theorem continued_eq_of_lt (fresh : ∀ part ∈ formula.compounds, bound ≤ atomOf part) {atom : Nat}
    (inside : atom < bound) :
    formula.continued atomOf value assignment atom = assignment atom := by
  have absent : formula.compounds.find? (fun part => atomOf part = atom) = none := by
    rw [List.find?_eq_none]
    intro part member
    have beyond := fresh part member
    simp
    omega
  rw [continued, absent]

/-- When no two parts share an atom, each has its value at its atom after the continuation. -/
theorem continued_atomOf
    (apart : ∀ first ∈ formula.compounds, ∀ second ∈ formula.compounds,
      atomOf first = atomOf second → first = second) :
    ∀ part ∈ formula.compounds,
      formula.continued atomOf value assignment (atomOf part) = value part := by
  intro part member
  rw [continued]
  split
  · rename_i found found_eq
    have same := List.find?_some found_eq
    rw [decide_eq_true_eq] at same
    rw [apart found (List.mem_of_find?_eq_some found_eq) part member same]
  · rename_i not_found
    have unlike := List.find?_eq_none.mp not_found part member
    simp at unlike

end Continuation
end Formula

namespace AtomTable

/-- Whether a table continues a table of source names without giving a name twice. -/
structure Continues (table source : AtomTable) : Prop where
  /-- The names to begin with are those of source variables. -/
  plain : source.Plain
  /-- Source atoms keep their names. -/
  below : source.Below table
  /-- No name is given twice. -/
  distinct : table.Distinct

namespace Continues

variable {table source : AtomTable}

theorem self (plain : source.Plain) : source.Continues source where
  plain := plain
  below := Below.refl source
  distinct := plain.distinct

theorem including (continues : table.Continues source) (name : String) :
    (table.including name).Continues source where
  plain := continues.plain
  below := continues.below.trans (table.below_including name)
  distinct := continues.distinct.including name

theorem includingAll (continues : table.Continues source) (names : List String) :
    (table.includingAll names).Continues source where
  plain := continues.plain
  below := continues.below.trans (table.below_includingAll names)
  distinct := continues.distinct.includingAll names

theorem grow (continues : table.Continues source) (formula : Formula) :
    (table.grow formula).Continues source :=
  continues.includingAll _

/-- A table between two that continue the source does so, too. -/
theorem between {later : AtomTable} (continues : table.Continues source)
    (later_continues : later.Continues source) {middle : AtomTable} (low : table.Below middle)
    (high : middle.Below later) : middle.Continues source where
  plain := continues.plain
  below := continues.below.trans low
  distinct := later_continues.distinct.sublist high.sublist

theorem within (continues : table.Continues source) {formula : Formula}
    (within : formula.within source.count = true) : formula.within table.count = true :=
  Formula.within_mono continues.below.count_le within

/-- An atom with the form of a compound formula is no source atom. -/
theorem le_of_name? (continues : table.Continues source) {formula : Formula}
    (compound : formula.isCompound = true) {atom : Nat} {nameOf : Nat → String}
    (named : table.name? atom = some (formula.canonical nameOf)) : source.count ≤ atom := by
  rcases Nat.lt_or_ge atom source.count with inside | beyond
  · have source_named := continues.below.name? (name?_eq_nameAt inside)
    rw [named] at source_named
    have form_eq := Option.some.inj source_named
    have source_name := continues.plain.alphanumeric _ (nameAt_mem inside)
    exact (Formula.canonical_ne_of_isCompound compound source_name form_eq).elim
  · exact beyond

/-- Formulas over source atoms that share an atom are equal. -/
theorem formula_eq (continues : table.Continues source) {first second : Formula}
    (first_within : first.within source.count = true)
    (second_within : second.within source.count = true) {atom : Nat}
    (first_named : table.name? atom = some (first.canonical table.nameAt))
    (second_named : table.name? atom = some (second.canonical table.nameAt)) : first = second := by
  rw [first_named, continues.below.canonical_eq first_within,
    continues.below.canonical_eq second_within] at second_named
  exact Formula.canonical_inj continues.plain first_within second_within
    (Option.some.inj second_named)

/-- After a transformation, no compound part is represented by a source atom. -/
theorem le_representative (continues : table.Continues source) {formula : Formula}
    (within : formula.within source.count = true) :
    ∀ part ∈ formula.compounds, source.count ≤ (table.grow formula).representative part := by
  intro part member
  exact (continues.grow formula).le_of_name? (Formula.isCompound_of_mem_compounds member)
    (continues.distinct.name?_representative_grow (continues.within within) member)

/-- After a transformation, different compound parts are represented by different atoms. -/
theorem representative_inj (continues : table.Continues source) {formula : Formula}
    (within : formula.within source.count = true) :
    ∀ first ∈ formula.compounds, ∀ second ∈ formula.compounds,
      (table.grow formula).representative first = (table.grow formula).representative second →
        first = second := by
  intro first first_member second second_member same
  have table_within := continues.within within
  have first_named := continues.distinct.name?_representative_grow table_within first_member
  have second_named := continues.distinct.name?_representative_grow table_within second_member
  rw [same] at first_named
  exact (continues.grow formula).formula_eq
    (Formula.within_of_mem_compounds within first_member)
    (Formula.within_of_mem_compounds within second_member) first_named second_named

end Continues
end AtomTable

namespace Encoding

variable {table source : AtomTable} {formula : Formula} {assignment : Assignment}

/-- The clauses of a transformation are those of the gates and one that asserts the formula. -/
theorem transformed_holds_iff_gates {template : IffTemplate} :
    (transformed template table formula).Holds assignment ↔
      (∀ gate ∈ formula.gates (table.grow formula).representative,
        ∀ clause ∈ gate.clauses template, clause.Holds assignment) ∧
          assignment ((table.grow formula).representative formula) = true := by
  simp only [Cnf.Holds, transformed, List.forall_mem_append, List.forall_mem_singleton,
    GateSet.forall_mem_clauses_iff, GateSet.mem_gates_insertAll_empty_iff, Clause.holds_cons,
    Clause.not_holds_nil, or_false, Literal.value_positive]

/-- After a transformation, every atom of the table represents itself. -/
theorem representative_grow_var (distinct : table.Distinct) (formula : Formula) :
    ∀ atom < (table.grow formula).count,
      (table.grow formula).representative (.var atom) = atom :=
  fun _ inside => (distinct.grow formula).representative_var inside

/-- The clauses of a transformation hold exactly when the formula does and every compound part has
its value at the atom that represents it. -/
theorem transformed_holds_iff (distinct : table.Distinct)
    (within : formula.within table.count = true) :
    (transformed .direct table formula).Holds assignment ↔
      formula.eval assignment = true ∧
        ∀ part ∈ formula.compounds,
          assignment ((table.grow formula).representative part) = part.eval assignment := by
  have final_within := Formula.within_mono (table.below_grow formula).count_le within
  have var_eq := representative_grow_var distinct formula
  simp only [transformed_holds_iff_gates, Gate.clauses_hold_iff,
    Formula.gates_hold_iff var_eq final_within]
  rw [and_comm]
  apply and_congr_left
  intro parts
  rw [Formula.value_of_parts var_eq final_within parts fun _ => rfl]

/-- A transformation speaks about the atoms of the table that it leaves. -/
theorem transformed_inRange (distinct : table.Distinct) (within : formula.within table.count = true)
    (template : IffTemplate) : (transformed template table formula).InRange := by
  have final_within := Formula.within_mono (table.below_grow formula).count_le within
  have var_lt : ∀ atom < (table.grow formula).count,
      (table.grow formula).representative (.var atom) < (table.grow formula).count := by
    intro atom inside
    rw [(distinct.grow formula).representative_var inside]
    exact inside
  have parts : ∀ part ∈ formula.compounds,
      (table.grow formula).representative part < (table.grow formula).count :=
    fun part member => AtomTable.name?_lt_count (distinct.name?_representative_grow within member)
  have whole := Formula.atomOf_lt_of_parts var_lt final_within parts
  have gates_within := Formula.within_of_mem_gates var_lt final_within parts
  intro clause member literal occurs
  rcases List.mem_append.mp member with defining | asserting
  · obtain ⟨entry, entry_mem, clause_mem⟩ := List.mem_flatMap.mp defining
    have gate_mem : entry.2 ∈ (({} : GateSet).insertAll
        (formula.gates (table.grow formula).representative)).gates := List.mem_map_of_mem entry_mem
    rcases GateSet.keyed_empty.mem_gates_insertAll_iff.mp gate_mem with listed | before
    · exact (gates_within _ listed).clauses template clause clause_mem literal occurs
    · cases before
  · rw [List.mem_singleton.mp asserting] at occurs
    rw [List.mem_singleton.mp occurs]
    exact whole

/-- An assignment continued by values of the compound parts of a formula, at the atoms that
represent them after its transformation. -/
def extended (value : Assignment → Formula → Bool) (table : AtomTable) (formula : Formula)
    (assignment : Assignment) : Assignment :=
  formula.continued (table.grow formula).representative (value assignment) assignment

theorem extended_eq_of_lt {value : Assignment → Formula → Bool} (continues : table.Continues source)
    (within : formula.within source.count = true) :
    ∀ atom < source.count, extended value table formula assignment atom = assignment atom :=
  fun _ inside => Formula.continued_eq_of_lt (continues.le_representative within) inside

/-- Values that depend on the source atoms only are those of the continued assignment, too. -/
theorem extended_representative {value : Assignment → Formula → Bool}
    (value_congr : ∀ {bound : Nat} {left right : Assignment} {part : Formula},
      (∀ atom < bound, left atom = right atom) → part.within bound = true →
        value left part = value right part)
    (continues : table.Continues source) (within : formula.within source.count = true) :
    ∀ part ∈ formula.compounds,
      extended value table formula assignment ((table.grow formula).representative part) =
        value (extended value table formula assignment) part := by
  intro part member
  rw [value_congr (extended_eq_of_lt continues within)
    (Formula.within_of_mem_compounds within member)]
  exact Formula.continued_atomOf (continues.representative_inj within) part member

/-- Values of source atoms that make a formula true can be continued to a model of its clauses. -/
theorem transformed_holds_extended (continues : table.Continues source)
    (within : formula.within source.count = true) (holds : formula.eval assignment = true) :
    (transformed .direct table formula).Holds
      (extended Formula.eval table formula assignment) := by
  rw [transformed_holds_iff continues.distinct (continues.within within),
    Formula.eval_congr (extended_eq_of_lt continues within) within]
  exact ⟨holds, extended_representative (fun agree => Formula.eval_congr agree) continues within⟩

end Encoding
end PropSat
