import Mathlib.Algebra.Order.Ring.Nat
import PropSat.Proofs.Encoding.Models

/-!
# Sharing

A transformation gives one atom to each distinct compound part of a formula, unless an earlier one
gave it one, and defines each of these atoms once.  In every table that transformations lead to,
a compound formula stands above the formulas that it is made of.
-/

namespace PropSat
namespace AtomTable

namespace Continues

variable {table source : AtomTable}

/-- A formula over source atoms denotes the atom that bears its form. -/
theorem atomOf?_iff (continues : table.Continues source) {formula : Formula}
    (within : formula.within source.count = true) {atom : Nat} :
    table.atomOf? formula = some atom ↔
      table.name? atom = some (formula.canonical source.nameAt) := by
  rw [atomOf?_eq (continues.within within), continues.distinct.find?_iff,
    continues.below.canonical_eq within]

theorem atomOf?_mono {later : AtomTable} (continues : table.Continues source)
    (later_continues : later.Continues source) (below : table.Below later) {formula : Formula}
    (within : formula.within source.count = true) {atom : Nat}
    (denoted : table.atomOf? formula = some atom) : later.atomOf? formula = some atom :=
  (later_continues.atomOf?_iff within).mpr (below.name? ((continues.atomOf?_iff within).mp denoted))

/-- With the forms of its compound parts, a table holds an atom for a formula. -/
theorem exists_atomOf?_includingForms (continues : table.Continues source) {formula : Formula}
    (within : formula.within source.count = true) :
    ∃ atom, (table.includingForms source.nameAt formula).atomOf? formula = some atom := by
  have final_continues : (table.includingForms source.nameAt formula).Continues source :=
    continues.includingAll _
  simp only [final_continues.atomOf?_iff within]
  cases compound : formula.isCompound with
  | true =>
      apply exists_name?_of_mem
      exact mem_names_includingAll.mpr
        (.inr (List.mem_map_of_mem (Formula.mem_compounds_self compound)))
  | false =>
      cases formula with
      | var atom =>
          have inside : atom < source.count := by simpa [Formula.within] using within
          exact ⟨atom, final_continues.below.name? (name?_eq_nameAt inside)⟩
      | neg inner => cases compound
      | bin connective left right => cases compound

end Continues

section Layers

variable {table source : AtomTable}

/-- Whether every formula over source atoms that denotes an atom stands above the formulas that it
is made of. -/
def Layered (source table : AtomTable) : Prop :=
  ∀ whole high, whole.within source.count = true → table.atomOf? whole = some high →
    ∀ child ∈ whole.children, ∃ low, table.atomOf? child = some low ∧ low < high

/-- No formula that is made of others denotes a source atom. -/
theorem layered_self (plain : source.Plain) : source.Layered source := by
  have continues := Continues.self plain
  intro whole high within denoted child member
  cases compound : whole.isCompound with
  | true =>
      have named := (continues.atomOf?_iff within).mp denoted
      have inside := name?_lt_count named
      have beyond := continues.le_of_name? compound named
      omega
  | false =>
      cases whole with
      | var atom => cases member
      | neg inner => cases compound
      | bin connective left right => cases compound

/-- A formula gets an atom above those that the formulas it is made of have already. -/
theorem Layered.including (layered : source.Layered table) (continues : table.Continues source)
    {formula : Formula} (within : formula.within source.count = true)
    (children : ∀ child ∈ formula.children, ∃ low, table.atomOf? child = some low) :
    source.Layered (table.including (formula.canonical source.nameAt)) := by
  by_cases listed : formula.canonical source.nameAt ∈ table.names.toList
  · rw [AtomTable.including, if_pos listed]
    exact layered
  have later_continues := continues.including (formula.canonical source.nameAt)
  have below := table.below_including (formula.canonical source.nameAt)
  rw [AtomTable.including, if_neg listed] at later_continues below ⊢
  intro whole high whole_within denoted child member
  have child_within := Formula.within_of_mem_children whole_within member
  have named := (later_continues.atomOf?_iff whole_within).mp denoted
  by_cases old : high < table.count
  · have old_named : table.name? high = some (whole.canonical source.nameAt) := by
      rw [← named, name?, name?, extend, Array.getElem?_push_lt old, Array.getElem?_eq_getElem old]
    obtain ⟨low, low_eq, lower⟩ := layered whole high whole_within
      ((continues.atomOf?_iff whole_within).mpr old_named) child member
    exact ⟨low, continues.atomOf?_mono later_continues below child_within low_eq, lower⟩
  · -- The atom is the one that was added, so the formula is the one that it was added for.
    have added : high = table.count := by
      have inside := name?_lt_count named
      simp [count, extend] at inside old ⊢
      omega
    have same : whole = formula := by
      rw [added, name?, count, extend, Array.getElem?_push_size] at named
      exact Formula.canonical_inj continues.plain whole_within within (Option.some.inj named).symm
    subst same
    obtain ⟨low, low_eq⟩ := children child member
    refine ⟨low, continues.atomOf?_mono later_continues below child_within low_eq, ?_⟩
    rw [added]
    exact name?_lt_count ((continues.atomOf?_iff child_within).mp low_eq)

/-- Adding the forms of all compound parts, those inside each one before it, keeps the layers. -/
theorem Layered.includingForms (layered : source.Layered table)
    (continues : table.Continues source) {formula : Formula}
    (within : formula.within source.count = true) :
    source.Layered (table.includingForms source.nameAt formula) := by
  induction formula generalizing table with
  | var atom => exact layered
  | neg inner induction =>
      rw [includingForms_neg]
      apply Layered.including (induction layered continues within) (continues.includingAll _) within
      intro child member
      rw [List.mem_singleton.mp member]
      exact continues.exists_atomOf?_includingForms within
  | bin connective left right left_induction right_induction =>
      have parts_within := within
      rw [Formula.within, Bool.and_eq_true] at parts_within
      rw [includingForms_bin]
      have left_continues : (table.includingForms source.nameAt left).Continues source :=
        continues.includingAll _
      have both_continues :
          ((table.includingForms source.nameAt left).includingForms source.nameAt right).Continues
            source := left_continues.includingAll _
      have left_layered := left_induction layered continues parts_within.1
      apply Layered.including (right_induction left_layered left_continues parts_within.2)
        both_continues within
      intro child member
      have either : child = left ∨ child = right := by simpa [Formula.children] using member
      rcases either with rfl | rfl
      · obtain ⟨low, low_eq⟩ := continues.exists_atomOf?_includingForms parts_within.1
        exact ⟨low, left_continues.atomOf?_mono both_continues (below_includingForms _ _ _)
          parts_within.1 low_eq⟩
      · exact left_continues.exists_atomOf?_includingForms parts_within.2

/-- The first names of a layered table make a layered one. -/
theorem Layered.of_below {later : AtomTable} (layered : source.Layered later)
    (continues : table.Continues source) (later_continues : later.Continues source)
    (below : table.Below later) : source.Layered table := by
  intro whole high within denoted child member
  have child_within := Formula.within_of_mem_children within member
  obtain ⟨low, low_eq, lower⟩ := layered whole high within
    (continues.atomOf?_mono later_continues below within denoted) child member
  have inside := name?_lt_count ((continues.atomOf?_iff within).mp denoted)
  have low_named := name?_eq_nameAt (Nat.lt_trans lower inside)
  have later_named := (later_continues.atomOf?_iff child_within).mp low_eq
  rw [below.name? low_named] at later_named
  rw [Option.some.inj later_named] at low_named
  exact ⟨low, (continues.atomOf?_iff child_within).mpr low_named, lower⟩

theorem Reached.layered (plain : source.Plain) (fits : source.Fits)
    (reached : Reached source table) : source.Layered table := by
  induction reached with
  | start => exact layered_self plain
  | @transform table next template formula outcome reached within transformed layered =>
      obtain ⟨continues, table_fits⟩ := reached.continues_fits plain fits
      have grown_layered : source.Layered (table.grow formula) := by
        rw [continues.grow_eq within]
        exact layered.includingForms continues within
      rcases Encoding.tseitin?_cases continues table_fits within template with
        ⟨_, succeeded⟩ | ⟨_, left, failed, left_continues, left_below, _⟩
      · rw [succeeded] at transformed
        cases transformed
        exact grown_layered
      · rw [failed] at transformed
        cases transformed
        exact grown_layered.of_below left_continues (continues.grow formula) left_below

/-- A formula stands above all of its parts. -/
theorem Layered.lt_of_mem_subformulas (layered : source.Layered table) {whole part : Formula}
    {high : Nat} (within : whole.within source.count = true)
    (denoted : table.atomOf? whole = some high) (member : part ∈ whole.subformulas)
    (proper : part ≠ whole) : ∃ low, table.atomOf? part = some low ∧ low < high := by
  induction size_eq : whole.size using Nat.strongRecOn generalizing whole high with
  | ind size induction =>
      rcases Formula.exists_child_of_mem_subformulas member with rfl | ⟨child, among, inside⟩
      · exact (proper rfl).elim
      · obtain ⟨middle, middle_eq, lower⟩ := layered whole high within denoted child among
        by_cases same : part = child
        · exact ⟨middle, same ▸ middle_eq, lower⟩
        · obtain ⟨low, low_eq, lowest⟩ := induction child.size
            (size_eq ▸ Formula.size_lt_of_mem_children among)
            (Formula.within_of_mem_children within among) middle_eq inside same rfl
          exact ⟨low, low_eq, Nat.lt_trans lowest lower⟩

end Layers

section Added

variable {table source : AtomTable} {formula : Formula}

/-- The atoms that a transformation adds are auxiliary. -/
theorem Continues.auxiliary?_grow (continues : table.Continues source)
    (within : formula.within source.count = true) {atom : Nat} (added : table.count ≤ atom)
    (inside : atom < (table.grow formula).count) :
    (table.grow formula).auxiliary? atom = some true := by
  have named := name?_eq_nameAt inside
  rw [auxiliary?, named, Option.map_some]
  rw [name?_eq, continues.names_grow within,
    List.getElem?_append_right (by rw [← count_eq]; exact added)] at named
  obtain ⟨part, member, form_eq⟩ := List.mem_map.mp (List.mem_of_getElem? named)
  rw [← form_eq, Formula.auxiliaryName_canonical _
    (Formula.isCompound_of_mem_compounds (mem_compounds_of_mem_missing member))]

end Added
end AtomTable

namespace Formula

/-- Number of clauses that define the atom of a compound formula. -/
def clauseCount : Formula → Nat
  | var _ => 0
  | neg _ => 2
  | bin .iff _ _ => 4
  | bin .and _ _ | bin .or _ _ | bin .implies _ _ => 3

open Encoding in
/-- The gate that defines the atom of a compound formula. -/
def gate? (atomOf : Formula → Nat) : Formula → Option Gate
  | var _ => none
  | neg inner => some (.negation (.positive (atomOf inner)) (.positive (atomOf (neg inner))))
  | bin connective left right =>
      some (.binary connective (.positive (atomOf left)) (.positive (atomOf right))
        (.positive (atomOf (bin connective left right))))

section Count

variable {atomOf : Formula → Nat}

theorem gates_eq_filterMap (formula : Formula) :
    formula.gates atomOf = formula.compounds.filterMap (gate? atomOf) := by
  induction formula with
  | var atom => rfl
  | neg inner induction => simp [gates, compounds, gate?, induction]
  | bin connective left right left_induction right_induction =>
      simp [gates, compounds, gate?, left_induction, right_induction]

theorem output_of_gate? {formula : Formula} {gate : Encoding.Gate}
    (gate_eq : formula.gate? atomOf = some gate) : gate.output = .positive (atomOf formula) := by
  cases formula with
  | var atom => cases gate_eq
  | neg inner | bin connective left right =>
      cases gate_eq
      rfl

theorem length_clauses_of_gate? {formula : Formula} {gate : Encoding.Gate}
    (gate_eq : formula.gate? atomOf = some gate) (template : IffTemplate) :
    (gate.clauses template).length = formula.clauseCount := by
  cases formula with
  | var atom => cases gate_eq
  | neg inner =>
      cases gate_eq
      rfl
  | bin connective left right =>
      cases gate_eq
      cases connective with
      | and | or | implies => rfl
      | iff => cases template <;> rfl

/-- Parts with different atoms have different gates. -/
theorem nodup_filterMap_gate? {parts : List Formula} (nodup : parts.Nodup)
    (apart : ∀ first ∈ parts, ∀ second ∈ parts, atomOf first = atomOf second → first = second) :
    (parts.filterMap (gate? atomOf)).Nodup := by
  rw [List.Nodup, List.pairwise_filterMap]
  refine List.Pairwise.imp_of_mem ?_ nodup
  rintro first second first_mem second_mem different gate gate_eq other other_eq rfl
  have outputs := (output_of_gate? gate_eq).symm.trans (output_of_gate? other_eq)
  exact different (apart first first_mem second second_mem (congrArg Literal.atom outputs))

theorem length_flatMap_gate? (parts : List Formula) (template : IffTemplate) :
    ((parts.filterMap (gate? atomOf)).flatMap (Encoding.Gate.clauses template)).length =
      (parts.map clauseCount).sum := by
  induction parts with
  | nil => rfl
  | cons part rest induction =>
      cases gate_eq : part.gate? atomOf with
      | none =>
          have none_counted : part.clauseCount = 0 := by
            cases part with
            | var atom => rfl
            | neg inner | bin connective left right => cases gate_eq
          rw [List.filterMap_cons_none gate_eq, induction, List.map_cons, List.sum_cons,
            none_counted, Nat.zero_add]
      | some gate =>
          rw [List.filterMap_cons_some gate_eq, List.flatMap_cons, List.length_append,
            length_clauses_of_gate? gate_eq, induction, List.map_cons, List.sum_cons]

end Count
end Formula

namespace Encoding

variable {table source : AtomTable} {formula : Formula}

/-- Each distinct compound part is defined once, whatever was defined before. -/
theorem length_clauses_transformed (continues : table.Continues source)
    (within : formula.within source.count = true) (template : IffTemplate) :
    (transformed template table formula).clauses.length =
      (formula.compounds.eraseDups.map Formula.clauseCount).sum + 1 := by
  have apart := continues.representative_inj within
  have nodup : (formula.compounds.eraseDups.filterMap
      (Formula.gate? (table.grow formula).representative)).Nodup :=
    Formula.nodup_filterMap_gate? (nodup_eraseDups _) fun first first_mem second second_mem =>
      apart first (List.mem_eraseDups.mp first_mem) second (List.mem_eraseDups.mp second_mem)
  have defined := GateSet.gates_insertAll_empty_perm
    (formula.gates (table.grow formula).representative) nodup fun gate => by
      simp only [Formula.gates_eq_filterMap, List.mem_filterMap, List.mem_eraseDups]
  rw [transformed, List.length_append, GateSet.clauses_eq,
    (defined.flatMap_right (Gate.clauses template)).length_eq, Formula.length_flatMap_gate?]
  rfl

/-- Whether a transformation leaves a table with one atom for each distinct compound part of a
formula and clauses that define each of these atoms once. -/
structure Shared (table final : AtomTable) (formula : Formula) (cnf : Cnf) : Prop where
  /-- The atoms that were there keep their names, which go on denoting them. -/
  kept : ∀ atom name, table.name? atom = some name →
    final.name? atom = some name ∧ final.find? name = some atom
  /-- One atom is added for each distinct compound part that had none, in the order in which the
  parts are first completed, under the form of the part. -/
  names_eq : final.names.toList.map some =
    table.names.toList.map some ++ (table.missing formula).map (Formula.canonical? final)
  /-- The atoms that are added are auxiliary. -/
  auxiliary : ∀ atom, table.count ≤ atom → atom < final.count → final.auxiliary? atom = some true
  /-- The atom of a compound part is above those of the parts inside it. -/
  ordered : ∀ whole ∈ formula.compounds, ∀ part ∈ whole.subformulas, part ≠ whole →
    ∃ low high, final.atomOf? part = some low ∧ final.atomOf? whole = some high ∧ low < high
  /-- The clauses speak about the atoms of the table. -/
  count_eq : cnf.atomCount = final.count
  /-- They speak about no others. -/
  in_range : cnf.InRange
  /-- Each distinct compound part has its clauses once, and there is one more clause. -/
  length_eq : cnf.clauses.length =
    (formula.compounds.eraseDups.map Formula.clauseCount).sum + 1
  /-- That one comes last and asserts the formula. -/
  asserted : ∃ root, final.atomOf? formula = some root ∧
    cnf.clauses.getLast? = some [.positive root]

theorem shared_transformed (continues : table.Continues source) (layered : source.Layered table)
    (within : formula.within source.count = true) (template : IffTemplate) :
    Shared table (table.grow formula) formula (transformed template table formula) where
  kept := by
    intro atom name named
    have still_named := (table.below_grow formula).name? named
    exact ⟨still_named, (continues.distinct.grow formula).find?_iff.mpr still_named⟩
  names_eq := by
    rw [continues.names_grow within, List.map_append, List.map_map]
    congr 1
    apply List.map_congr_left
    intro part member
    have part_within := Formula.within_of_mem_compounds within
      (AtomTable.mem_compounds_of_mem_missing member)
    rw [Formula.canonical?, if_pos ((continues.grow formula).within part_within),
      (continues.grow formula).below.canonical_eq part_within]
    rfl
  auxiliary := fun _ added inside => continues.auxiliary?_grow within added inside
  ordered := by
    intro whole whole_member part inside proper
    have whole_within := Formula.within_of_mem_compounds within whole_member
    have denoted := continues.distinct.atomOf?_grow (continues.within within) whole_member
    have grown : source.Layered (table.grow formula) := by
      rw [continues.grow_eq within]
      exact layered.includingForms continues within
    obtain ⟨low, low_eq, lower⟩ :=
      grown.lt_of_mem_subformulas whole_within denoted inside proper
    exact ⟨low, _, low_eq, denoted, lower⟩
  count_eq := rfl
  in_range := transformed_inRange continues.distinct (continues.within within) template
  length_eq := length_clauses_transformed continues within template
  asserted := by
    obtain ⟨root, denoted⟩ := continues.exists_atomOf?_includingForms within
    rw [← continues.grow_eq within] at denoted
    refine ⟨root, denoted, ?_⟩
    rw [AtomTable.atomOf?_eq ((continues.grow formula).within within)] at denoted
    rw [transformed, List.getLast?_concat, AtomTable.representative, denoted, Option.getD_some]

/-- Over the names of a text, and whatever was transformed before, the transformation of a formula
succeeds and shares the atoms and definitions of equal parts if there are the atoms that it needs. -/
theorem tseitin?_shared {text : String} {parsed : Grammar.Parsed}
    (parse_eq : Grammar.parse? text = some (.ok parsed)) (reached : parsed.table.Reached table)
    (within : formula.within parsed.table.count = true) (template : IffTemplate) :
    Delivers template table formula fun cnf final => Shared table final formula cnf := by
  have layered := reached.layered (Grammar.sound_of_parse? parse_eq).plain
    (Grammar.fits_of_parse? parse_eq)
  exact delivers_of_parse? parse_eq reached within fun continues _ =>
    shared_transformed continues layered within template

/-- An equivalence of a conjunction with itself. -/
def sameConjunction : Formula :=
  .bin .iff (.bin .and (.neg (.var 0)) (.var 1)) (.bin .and (.neg (.var 0)) (.var 1))

theorem parse?_disjunction : Grammar.parse? "a|b" =
    some (.ok { formula := .bin .or (.var 0) (.var 1), table := .ofNames ["a", "b"] }) := by
  with_unfolding_all rfl

/-- Transforming a negation of the first name leaves an atom for it. -/
theorem reached_negated : (AtomTable.ofNames ["a", "b"]).Reached (.ofNames ["a", "b", "!a"]) := by
  have negated : tseitin? .direct (.ofNames ["a", "b"]) (.neg (.var 0)) =
      some
        (.ok
          { atomCount := 3
            clauses := [[.negative 0, .negative 2], [.positive 0, .positive 2], [.positive 2]] },
          .ofNames ["a", "b", "!a"]) := by rfl
  exact .transform .start (by decide) negated

theorem tseitin?_shared_of_repeated_part :
    Grammar.parse? "a|b" =
        some (.ok { formula := .bin .or (.var 0) (.var 1), table := .ofNames ["a", "b"] }) ∧
      (AtomTable.ofNames ["a", "b"]).Reached (.ofNames ["a", "b", "!a"]) ∧
      sameConjunction.within 2 = true ∧
      ∃ cnf final,
        tseitin? .chained (.ofNames ["a", "b", "!a"]) sameConjunction = some (.ok cnf, final) ∧
          Shared (.ofNames ["a", "b", "!a"]) final sameConjunction cnf := by
  have within : sameConjunction.within 2 = true := by decide
  exact ⟨parse?_disjunction, reached_negated, within,
    (tseitin?_shared parse?_disjunction reached_negated within .chained).enough (by decide)⟩

end Encoding
end PropSat
