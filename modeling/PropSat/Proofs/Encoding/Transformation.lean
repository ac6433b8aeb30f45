import PropSat.Encoding.Tseitin
import PropSat.Proofs.Encoding.Gates
import PropSat.Proofs.Formula.Canonical

/-!
# What a transformation leaves

A transformation adds the canonical forms of all compound parts to the table, and its gates define
the atoms that bear them.  The result is written down here without the draft that is threaded
through the formula, for a table of which no name is given twice.  If there are not enough atoms for
the forms, the transformation fails, and some of them have been added, in their order.
-/

namespace PropSat

/-- The atom that the canonical form of a formula denotes, if it is a name of the table. -/
def AtomTable.atomOf? (table : AtomTable) (formula : Formula) : Option Nat :=
  (formula.canonical? table).bind table.find?

/-- The atom that bears the canonical form of a formula. -/
def AtomTable.representative (table : AtomTable) (formula : Formula) : Nat :=
  (table.find? (formula.canonical table.nameAt)).getD 0

/-- The table with the forms of the compound parts of a formula over named atoms, be there atoms for
them or not. -/
def AtomTable.includingForms (table : AtomTable) (nameOf : Nat → String) (formula : Formula) :
    AtomTable :=
  table.includingAll (formula.compounds.map (Formula.canonical nameOf))

/-- The table with the canonical forms of the compound parts of a formula. -/
def AtomTable.grow (table : AtomTable) (formula : Formula) : AtomTable :=
  table.includingForms table.nameAt formula

namespace Formula

open Encoding in
/-- Gates that define the atoms of the compound parts. -/
def gates (atomOf : Formula → Nat) : Formula → List Gate
  | var _ => []
  | neg inner =>
      inner.gates atomOf ++
        [.negation (.positive (atomOf inner)) (.positive (atomOf (neg inner)))]
  | bin connective left right =>
      left.gates atomOf ++ right.gates atomOf ++
        [.binary connective (.positive (atomOf left)) (.positive (atomOf right))
          (.positive (atomOf (bin connective left right)))]

end Formula

namespace AtomTable

section Forms

variable (table : AtomTable) (nameOf : Nat → String)

theorem includingForms_neg (inner : Formula) :
    table.includingForms nameOf (.neg inner) =
      (table.includingForms nameOf inner).including ((Formula.neg inner).canonical nameOf) := by
  simp only [includingForms, Formula.compounds, List.map_append, includingAll_append, List.map_cons,
    List.map_nil, includingAll_cons, includingAll_nil]

theorem includingForms_bin (connective : Connective) (left right : Formula) :
    table.includingForms nameOf (.bin connective left right) =
      ((table.includingForms nameOf left).includingForms nameOf right).including
        ((Formula.bin connective left right).canonical nameOf) := by
  simp only [includingForms, Formula.compounds, List.map_append, includingAll_append, List.map_cons,
    List.map_nil, includingAll_cons, includingAll_nil]

theorem below_includingForms (formula : Formula) :
    table.Below (table.includingForms nameOf formula) :=
  table.below_includingAll _

theorem below_includingForms_neg (inner : Formula) :
    (table.includingForms nameOf inner).Below (table.includingForms nameOf (.neg inner)) := by
  rw [includingForms_neg]
  exact below_including _ _

theorem below_includingForms_operands (connective : Connective) (left right : Formula) :
    ((table.includingForms nameOf left).includingForms nameOf right).Below
      (table.includingForms nameOf (.bin connective left right)) := by
  rw [includingForms_bin]
  exact below_including _ _

theorem below_includingForms_left (connective : Connective) (left right : Formula) :
    (table.includingForms nameOf left).Below
      (table.includingForms nameOf (.bin connective left right)) :=
  (below_includingForms _ nameOf right).trans
    (table.below_includingForms_operands nameOf connective left right)

end Forms

variable {table : AtomTable}

theorem atomOf?_eq {formula : Formula} (within : formula.within table.count = true) :
    table.atomOf? formula = table.find? (formula.canonical table.nameAt) := by
  rw [atomOf?, Formula.canonical?, if_pos within, Option.bind_some]

theorem Distinct.representative_eq (distinct : table.Distinct) {formula : Formula} {atom : Nat}
    (named : table.name? atom = some (formula.canonical table.nameAt)) :
    table.representative formula = atom := by
  rw [representative, distinct.find?_iff.mpr named, Option.getD_some]

/-- A variable represents itself. -/
theorem Distinct.representative_var (distinct : table.Distinct) {atom : Nat}
    (inside : atom < table.count) : table.representative (.var atom) = atom :=
  distinct.representative_eq (name?_eq_nameAt inside)

theorem Below.nameAt_eq {earlier later : AtomTable} (below : earlier.Below later) {atom : Nat}
    (inside : atom < earlier.count) : later.nameAt atom = earlier.nameAt atom := by
  have named := below.name? (name?_eq_nameAt inside)
  rw [name?_eq_nameAt (name?_lt_count named)] at named
  exact Option.some.inj named

theorem Below.canonical_eq {earlier later : AtomTable} (below : earlier.Below later)
    {formula : Formula} (within : formula.within earlier.count = true) :
    formula.canonical later.nameAt = formula.canonical earlier.nameAt :=
  Formula.canonical_congr (fun _ inside => below.nameAt_eq inside) within

theorem Distinct.grow (distinct : table.Distinct) (formula : Formula) :
    (table.grow formula).Distinct :=
  distinct.includingAll _

theorem below_grow (table : AtomTable) (formula : Formula) : table.Below (table.grow formula) :=
  table.below_includingForms _ formula

/-- After a transformation all compound parts are represented by atoms that bear their forms. -/
theorem Distinct.name?_representative_grow (distinct : table.Distinct) {part formula : Formula}
    (within : formula.within table.count = true) (member : part ∈ formula.compounds) :
    (table.grow formula).name? ((table.grow formula).representative part) =
      some (part.canonical (table.grow formula).nameAt) := by
  have same := (table.below_grow formula).canonical_eq
    (Formula.within_of_mem_compounds within member)
  have listed : part.canonical table.nameAt ∈ (table.grow formula).names.toList :=
    mem_names_includingAll.mpr (.inr (List.mem_map_of_mem member))
  obtain ⟨atom, named⟩ := exists_name?_of_mem listed
  rw [← same] at named
  rw [(distinct.grow formula).representative_eq named, named]

/-- After a transformation all compound parts denote the atoms that represent them. -/
theorem Distinct.atomOf?_grow (distinct : table.Distinct) {part formula : Formula}
    (within : formula.within table.count = true) (member : part ∈ formula.compounds) :
    (table.grow formula).atomOf? part = some ((table.grow formula).representative part) := by
  have part_within := Formula.within_mono (table.below_grow formula).count_le
    (Formula.within_of_mem_compounds within member)
  rw [atomOf?_eq part_within, (distinct.grow formula).find?_iff]
  exact distinct.name?_representative_grow within member

end AtomTable

namespace Encoding

section Draft

variable {final : AtomTable}

/-- Defining the form of a formula adds the gate of the atom that bears it. -/
theorem Draft.define_eq (distinct : final.Distinct) {table : AtomTable} {formula : Formula}
    (fits : (table.including (formula.canonical final.nameAt)).Fits)
    (below : (table.including (formula.canonical final.nameAt)).Below final) {name : String}
    (spelled : name = formula.canonical final.nameAt) (gates : GateSet) (gate : Literal → Gate) :
    ({ table, gates } : Draft).define name gate =
      (.ok
        { literal := .positive (final.representative formula)
          name := formula.canonical final.nameAt },
        { table := table.including (formula.canonical final.nameAt)
          gates := gates.insert (gate (.positive (final.representative formula))) }) := by
  obtain ⟨atom, named, interned⟩ := AtomTable.exists_intern fits
  rw [spelled, define, distinct.representative_eq (below.name? named)]
  simp only [interned]

theorem Draft.define_of_not_fits {table : AtomTable} {name : String} (fits : table.Fits)
    (full : ¬ (table.including name).Fits) (gates : GateSet) (gate : Literal → Gate) :
    ({ table, gates } : Draft).define name gate = (.error .noAtomLeft, { table, gates }) := by
  rw [define]
  simp only [AtomTable.intern_of_not_fits fits full]

/-- Encoding a formula adds the forms of its parts and their gates, described with the atoms of any
later table. -/
theorem encode?_eq (distinct : final.Distinct) {formula : Formula} {table : AtomTable}
    {gates : GateSet} (within : formula.within table.count = true)
    (fits : (table.includingForms final.nameAt formula).Fits)
    (below : (table.includingForms final.nameAt formula).Below final) :
    encode? formula { table, gates } =
      some
        (.ok
          { literal := .positive (final.representative formula)
            name := formula.canonical final.nameAt },
          { table := table.includingForms final.nameAt formula
            gates := gates.insertAll (formula.gates final.representative) }) := by
  induction formula generalizing table gates with
  | var atom =>
      have inside : atom < table.count := by simpa [Formula.within] using within
      have table_below : table.Below final := below
      have named := AtomTable.name?_eq_nameAt inside
      rw [← table_below.nameAt_eq inside] at named
      have final_named := table_below.name? named
      rw [encode?, named, Option.map_some,
        distinct.representative_var (AtomTable.name?_lt_count final_named)]
      rfl
  | neg inner induction =>
      have inner_below := table.below_includingForms_neg final.nameAt inner
      have spelled :
          "!" ++ inner.canonical final.nameAt = (Formula.neg inner).canonical final.nameAt :=
        rfl
      rw [encode?, induction within (fits.of_below inner_below) (inner_below.trans below)]
      rw [AtomTable.includingForms_neg] at fits below ⊢
      simp only
      rw [Draft.define_eq distinct fits below spelled, Formula.gates, GateSet.insertAll_append]
      rfl
  | bin connective left right left_induction right_induction =>
      rw [Formula.within, Bool.and_eq_true] at within
      have left_below := table.below_includingForms_left final.nameAt connective left right
      have right_below := table.below_includingForms_operands final.nameAt connective left right
      have right_within :=
        Formula.within_mono (table.below_includingForms final.nameAt left).count_le within.2
      have spelled : "(" ++ left.canonical final.nameAt ++ connective.symbol ++
          right.canonical final.nameAt ++ ")" =
            (Formula.bin connective left right).canonical final.nameAt := rfl
      rw [encode?, left_induction within.1 (fits.of_below left_below) (left_below.trans below)]
      simp only
      rw [right_induction right_within (fits.of_below right_below) (right_below.trans below)]
      rw [AtomTable.includingForms_bin] at fits below ⊢
      simp only
      rw [Draft.define_eq distinct fits below spelled, Formula.gates, GateSet.insertAll_append,
        GateSet.insertAll_append]
      rfl

/-- Encoding a formula fails if there are not enough atoms for the forms of its parts.  Some of the
forms have been added then. -/
theorem exists_encode?_error (distinct : final.Distinct) (gates : GateSet) {formula : Formula}
    {table : AtomTable} (within : formula.within table.count = true) (fits : table.Fits)
    (full : ¬ (table.includingForms final.nameAt formula).Fits)
    (below : (table.includingForms final.nameAt formula).Below final) :
    ∃ draft, encode? formula { table, gates } = some (.error .noAtomLeft, draft) ∧
      draft.table.Fits ∧ table.Below draft.table ∧
      draft.table.Below (table.includingForms final.nameAt formula) := by
  induction formula generalizing table gates with
  | var atom => exact absurd fits full
  | neg inner induction =>
      have inner_within : inner.within table.count = true := within
      have inner_below := table.below_includingForms_neg final.nameAt inner
      by_cases inner_fits : (table.includingForms final.nameAt inner).Fits
      · rw [AtomTable.includingForms_neg] at full
        rw [encode?, encode?_eq distinct inner_within inner_fits (inner_below.trans below)]
        simp only
        exact ⟨_, congrArg some (Draft.define_of_not_fits inner_fits full _ _), inner_fits,
          table.below_includingForms _ inner, inner_below⟩
      · obtain ⟨draft, failed, draft_fits, low, high⟩ :=
          induction gates within fits inner_fits (inner_below.trans below)
        exact ⟨draft, by rw [encode?, failed], draft_fits, low, high.trans inner_below⟩
  | bin connective left right left_induction right_induction =>
      rw [Formula.within, Bool.and_eq_true] at within
      have low_left := table.below_includingForms final.nameAt left
      have left_below := table.below_includingForms_left final.nameAt connective left right
      have right_below := table.below_includingForms_operands final.nameAt connective left right
      by_cases left_fits : (table.includingForms final.nameAt left).Fits
      · have right_within := Formula.within_mono low_left.count_le within.2
        rw [encode?, encode?_eq distinct within.1 left_fits (left_below.trans below)]
        simp only
        by_cases right_fits :
            ((table.includingForms final.nameAt left).includingForms final.nameAt right).Fits
        · rw [AtomTable.includingForms_bin] at full
          rw [encode?_eq distinct right_within right_fits (right_below.trans below)]
          simp only
          exact ⟨_, congrArg some (Draft.define_of_not_fits right_fits full _ _), right_fits,
            low_left.trans (AtomTable.below_includingForms _ _ right), right_below⟩
        · obtain ⟨draft, failed, draft_fits, low, high⟩ := right_induction
            (gates.insertAll (left.gates final.representative)) right_within left_fits right_fits
            (right_below.trans below)
          exact ⟨draft, by rw [failed], draft_fits, low_left.trans low, high.trans right_below⟩
      · obtain ⟨draft, failed, draft_fits, low, high⟩ :=
          left_induction gates within.1 fits left_fits (left_below.trans below)
        exact ⟨draft, by rw [encode?, failed], draft_fits, low, high.trans left_below⟩

end Draft

/-- The clauses of a transformation: definitions of the compound parts, and the whole formula. -/
def transformed (template : IffTemplate) (table : AtomTable) (formula : Formula) : Cnf where
  atomCount := (table.grow formula).count
  clauses :=
    (({} : GateSet).insertAll
        (formula.gates (table.grow formula).representative)).clauses template ++
      [[.positive ((table.grow formula).representative formula)]]

section Outcome

variable {table : AtomTable} {formula : Formula}

/-- The forms of the parts of a formula are the same with the names that they are added to. -/
theorem includingForms_grow (within : formula.within table.count = true) :
    table.includingForms (table.grow formula).nameAt formula = table.grow formula := by
  refine congrArg table.includingAll (List.map_congr_left ?_)
  intro part member
  exact (table.below_grow formula).canonical_eq (Formula.within_of_mem_compounds within member)

/-- A transformation succeeds on a formula over the atoms of a table without repeated names if there
are enough atoms. -/
theorem tseitin?_eq (distinct : table.Distinct) (within : formula.within table.count = true)
    (fits : (table.grow formula).Fits) (template : IffTemplate) :
    tseitin? template table formula =
      some (.ok (transformed template table formula), table.grow formula) := by
  have final_eq := includingForms_grow within
  have grown_below := AtomTable.Below.refl (table.grow formula)
  rw [← final_eq] at fits
  rw [tseitin?, encode?_eq (distinct.grow formula) within fits (by rw [final_eq]; exact grown_below)]
  simp only [final_eq, Option.map_some, Except.map, transformed]

/-- A transformation fails if there are not enough atoms, and leaves a table with some of the forms
that it needs. -/
theorem exists_tseitin?_error (distinct : table.Distinct) (within : formula.within table.count = true)
    (fits : table.Fits) (full : ¬ (table.grow formula).Fits) (template : IffTemplate) :
    ∃ left, tseitin? template table formula = some (.error .noAtomLeft, left) ∧
      table.Below left ∧ left.Below (table.grow formula) ∧ left.Fits := by
  have final_eq := includingForms_grow within
  have grown_below := AtomTable.Below.refl (table.grow formula)
  rw [← final_eq] at full
  obtain ⟨draft, encode_eq, left_fits, low, high⟩ :=
    exists_encode?_error (distinct.grow formula) {} within fits full
      (by rw [final_eq]; exact grown_below)
  rw [final_eq] at high
  exact ⟨draft.table, by rw [tseitin?, encode_eq]; rfl, low, high, left_fits⟩

end Outcome

end Encoding
end PropSat
