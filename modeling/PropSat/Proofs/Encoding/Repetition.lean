import PropSat.Proofs.Encoding.Sharing

/-!
# Transforming again

After a formula was transformed, the table has an atom for each of its parts, and further
transformations only add names behind those that are there.  So when the formula or one of its parts
is transformed again then every name is found, on the atom that was given to it first, and the
formula gets the clauses that it got before.
-/

namespace PropSat
namespace Formula

variable {part formula : Formula}

/-- The compound parts of a part are compound parts of the whole. -/
theorem compounds_subset_of_mem_subformulas (member : part ∈ formula.subformulas) :
    part.compounds ⊆ formula.compounds := by
  induction formula with
  | var atom =>
      rw [List.mem_singleton.mp member]
      exact List.Subset.refl _
  | neg inner induction =>
      rcases List.mem_append.mp member with inside | whole
      · exact List.Subset.trans (induction inside) (List.subset_append_left _ _)
      · rw [List.mem_singleton.mp whole]
        exact List.Subset.refl _
  | bin connective left right left_induction right_induction =>
      rcases List.mem_append.mp member with inside | whole
      · refine List.Subset.trans ?_ (List.subset_append_left _ _)
        rcases List.mem_append.mp inside with in_left | in_right
        · exact List.Subset.trans (left_induction in_left) (List.subset_append_left _ _)
        · exact List.Subset.trans (right_induction in_right) (List.subset_append_right _ _)
      · rw [List.mem_singleton.mp whole]
        exact List.Subset.refl _

theorem within_of_mem_subformulas {bound : Nat} (within : formula.within bound = true)
    (member : part ∈ formula.subformulas) : part.within bound = true := by
  induction formula with
  | var atom => exact List.mem_singleton.mp member ▸ within
  | neg inner induction =>
      rcases List.mem_append.mp member with inside | whole
      · exact induction within inside
      · exact List.mem_singleton.mp whole ▸ within
  | bin connective left right left_induction right_induction =>
      rcases List.mem_append.mp member with inside | whole
      · rw [Formula.within, Bool.and_eq_true] at within
        exact (List.mem_append.mp inside).elim (left_induction within.1) (right_induction within.2)
      · exact List.mem_singleton.mp whole ▸ within

theorem mem_subformulas_self (formula : Formula) : formula ∈ formula.subformulas := by
  cases formula <;> simp [subformulas]

/-- The gates only depend on the atoms of the parts. -/
theorem gates_congr {first second : Formula → Nat}
    (agree : ∀ part ∈ formula.subformulas, first part = second part) :
    formula.gates first = formula.gates second := by
  induction formula with
  | var atom => rfl
  | neg inner induction =>
      obtain ⟨inner_agree, whole_agree⟩ := List.forall_mem_append.mp agree
      rw [gates, gates, induction inner_agree, inner_agree inner inner.mem_subformulas_self,
        whole_agree _ List.mem_cons_self]
  | bin connective left right left_induction right_induction =>
      obtain ⟨inside_agree, whole_agree⟩ := List.forall_mem_append.mp agree
      obtain ⟨left_agree, right_agree⟩ := List.forall_mem_append.mp inside_agree
      rw [gates, gates, left_induction left_agree, right_induction right_agree,
        left_agree left left.mem_subformulas_self, right_agree right right.mem_subformulas_self,
        whole_agree _ List.mem_cons_self]

end Formula

namespace AtomTable

/-- Adding names that are there changes nothing. -/
theorem includingAll_eq_self {table : AtomTable} {names : List String}
    (present : ∀ name ∈ names, name ∈ table.names.toList) : table.includingAll names = table := by
  induction names with
  | nil => rfl
  | cons name names induction =>
      obtain ⟨first_present, rest_present⟩ := List.forall_mem_cons.mp present
      rw [includingAll_cons, including, if_pos first_present]
      exact induction rest_present

namespace Continues

variable {table later source : AtomTable} {part formula : Formula}

/-- After a transformation every part, a variable or a compound one, has an atom that bears its
form. -/
theorem name?_representative_grow (continues : table.Continues source)
    (within : formula.within source.count = true) (member : part ∈ formula.subformulas) :
    (table.grow formula).name? ((table.grow formula).representative part) =
      some (part.canonical source.nameAt) := by
  have part_within := Formula.within_of_mem_subformulas within member
  have grown := continues.grow formula
  rw [← grown.below.canonical_eq part_within]
  cases compound : part.isCompound with
  | true =>
      exact continues.distinct.name?_representative_grow (continues.within within)
        (Formula.compounds_subset_of_mem_subformulas member (Formula.mem_compounds_self compound))
  | false =>
      cases part with
      | var atom =>
          have inside : atom < (table.grow formula).count := by
            simpa [Formula.within] using grown.within part_within
          rw [grown.distinct.representative_var inside, name?_eq_nameAt inside]
          rfl
      | neg inner => cases compound
      | bin connective left right => cases compound

/-- Further transformations keep the atoms of the parts of a formula that was transformed. -/
theorem representative_eq_of_below (continues : table.Continues source)
    (later_continues : later.Continues source) (below : (table.grow formula).Below later)
    (within : formula.within source.count = true) (member : part ∈ formula.subformulas) :
    later.representative part = (table.grow formula).representative part := by
  apply later_continues.distinct.representative_eq
  rw [later_continues.below.canonical_eq (Formula.within_of_mem_subformulas within member)]
  exact below.name? (continues.name?_representative_grow within member)

/-- After a formula was transformed, no part of it needs another atom. -/
theorem grow_eq_self_of_below (continues : table.Continues source)
    (later_continues : later.Continues source) (below : (table.grow formula).Below later)
    (within : formula.within source.count = true) (member : part ∈ formula.subformulas) :
    later.grow part = later := by
  rw [later_continues.grow_eq (Formula.within_of_mem_subformulas within member)]
  apply includingAll_eq_self
  intro name listed
  apply List.IsPrefix.subset below
  rw [continues.grow_eq within]
  exact mem_names_includingAll.mpr (.inr (List.map_subset _
    (Formula.compounds_subset_of_mem_subformulas member) listed))

end Continues
end AtomTable

namespace Encoding

variable {table later source : AtomTable} {formula : Formula}

/-- A formula that was transformed gets the same clauses again, and needs no other atom. -/
theorem tseitin?_of_below (continues : table.Continues source)
    (later_continues : later.Continues source) (later_fits : later.Fits)
    (below : (table.grow formula).Below later) (within : formula.within source.count = true)
    (template : IffTemplate) :
    tseitin? template later formula =
      some
        (.ok
          { atomCount := later.count, clauses := (transformed template table formula).clauses },
          later) := by
  have whole := formula.mem_subformulas_self
  have same_table := continues.grow_eq_self_of_below later_continues below within whole
  have same_atoms : ∀ part ∈ formula.subformulas,
      later.representative part = (table.grow formula).representative part :=
    fun _ member => continues.representative_eq_of_below later_continues below within member
  have grown_fits : (later.grow formula).Fits := by
    rw [same_table]
    exact later_fits
  rw [tseitin?_eq later_continues.distinct (later_continues.within within) grown_fits]
  simp only [transformed]
  rw [same_table, Formula.gates_congr same_atoms, same_atoms formula whole]

/-- Whether a formula that was transformed can be transformed again without a change. -/
structure Repeats (source final : AtomTable) (template : IffTemplate) (formula : Formula)
    (cnf : Cnf) : Prop where
  /-- At once, it gets the same clauses and leaves the table as it is. -/
  again : tseitin? template final formula = some (.ok cnf, final)
  /-- No part of it needs another atom, with any template. -/
  parts : ∀ part ∈ formula.subformulas, ∀ other, ∃ clauses,
    tseitin? other final part = some (.ok clauses, final)
  /-- Whatever was transformed in between, it gets the same clauses and adds no atom. -/
  later : ∀ table, source.Reached table → final.Below table →
    tseitin? template table formula = some (.ok { cnf with atomCount := table.count }, table)

theorem repeats_transformed (source_fits : source.Fits) (continues : table.Continues source)
    (grown_fits : (table.grow formula).Fits) (within : formula.within source.count = true)
    (template : IffTemplate) :
    Repeats source (table.grow formula) template formula (transformed template table formula) := by
  have grown := continues.grow formula
  refine ⟨tseitin?_of_below continues grown grown_fits (.refl _) within template, ?_, ?_⟩
  · intro part member other
    have part_within := grown.within (Formula.within_of_mem_subformulas within member)
    have same_table := continues.grow_eq_self_of_below grown (.refl _) within member
    refine ⟨transformed other (table.grow formula) part, ?_⟩
    rw [tseitin?_eq grown.distinct part_within (by rw [same_table]; exact grown_fits), same_table]
  · intro later reached below
    obtain ⟨later_continues, later_fits⟩ := reached.continues_fits continues.plain source_fits
    exact tseitin?_of_below continues later_continues later_fits below within template

/-- Over the names of a text, and whatever was transformed before, a formula is transformed if there
are the atoms that it needs, and transforming it again gives the same clauses and leaves the table
unchanged.  Transforming a part of it adds no atom, with any template. -/
theorem tseitin?_repeats {text : String} {parsed : Grammar.Parsed}
    (parse_eq : Grammar.parse? text = some (.ok parsed)) (reached : parsed.table.Reached table)
    (within : formula.within parsed.table.count = true) (template : IffTemplate) :
    Delivers template table formula fun cnf final =>
      Repeats parsed.table final template formula cnf :=
  delivers_of_parse? parse_eq reached within fun continues grown_fits =>
    repeats_transformed (Grammar.fits_of_parse? parse_eq) continues grown_fits within template

theorem tseitin?_repeats_sameConjunction :
    Grammar.parse? "a|b" =
        some (.ok { formula := .bin .or (.var 0) (.var 1), table := .ofNames ["a", "b"] }) ∧
      (AtomTable.ofNames ["a", "b"]).Reached (.ofNames ["a", "b", "!a"]) ∧
      sameConjunction.within 2 = true ∧
      ∃ cnf final,
        tseitin? .chained (.ofNames ["a", "b", "!a"]) sameConjunction = some (.ok cnf, final) ∧
          Repeats (.ofNames ["a", "b"]) final .chained sameConjunction cnf := by
  have within : sameConjunction.within 2 = true := by decide
  exact ⟨parse?_disjunction, reached_negated, within,
    (tseitin?_repeats parse?_disjunction reached_negated within .chained).enough (by decide)⟩

end Encoding
end PropSat
