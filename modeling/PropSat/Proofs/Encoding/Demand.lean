import PropSat.Proofs.Encoding.Exactness
import PropSat.Proofs.Grammar.Recognition

/-!
# Atoms that a transformation needs

A transformation needs an atom for each distinct compound part whose form is no name of the table
yet, and succeeds exactly if there are that many.  A table that a failed transformation leaves has
the first of the names that were needed, so it continues the source names as well.
-/

namespace PropSat
namespace AtomTable

/-- The distinct compound parts of a formula whose forms are no names of a table, in the order in
which they are first completed. -/
def missing (table : AtomTable) (formula : Formula) : List Formula :=
  (formula.compounds.filter fun part => (table.atomOf? part).isNone).eraseDups

/-- How many atoms a table has with those that a formula needs. -/
def needed (table : AtomTable) (formula : Formula) : Nat :=
  table.count + (table.missing formula).length

section Missing

variable {table source : AtomTable} {formula part : Formula}

theorem mem_compounds_of_mem_missing (member : part ∈ table.missing formula) :
    part ∈ formula.compounds :=
  (List.mem_filter.mp (List.mem_eraseDups.mp member)).1

/-- Adding the forms of the compound parts of a formula with the names of a later table is the same
as adding them with those of the source. -/
theorem Continues.grow_eq (continues : table.Continues source)
    (within : formula.within source.count = true) :
    table.grow formula = table.includingForms source.nameAt formula := by
  refine congrArg table.includingAll (List.map_congr_left ?_)
  intro part member
  exact continues.below.canonical_eq (Formula.within_of_mem_compounds within member)

/-- A transformation puts the forms that are missing behind the names that are there. -/
theorem Continues.names_grow (continues : table.Continues source)
    (within : formula.within source.count = true) :
    (table.grow formula).names.toList =
      table.names.toList ++ (table.missing formula).map (Formula.canonical source.nameAt) := by
  have absent_iff : ∀ part ∈ formula.compounds,
      (!table.names.toList.elem (part.canonical source.nameAt)) =
        (table.atomOf? part).isNone := by
    intro part member
    have part_within := Formula.within_of_mem_compounds within member
    rw [atomOf?_eq (continues.within part_within), continues.below.canonical_eq part_within,
      Bool.eq_iff_iff]
    simp [find?_eq_none_iff]
  have apart : ∀ first ∈ formula.compounds.filter fun part => (table.atomOf? part).isNone,
      ∀ second ∈ formula.compounds.filter fun part => (table.atomOf? part).isNone,
        first.canonical source.nameAt = second.canonical source.nameAt → first = second := by
    intro first first_mem second second_mem
    exact Formula.canonical_inj continues.plain
      (Formula.within_of_mem_compounds within (List.mem_filter.mp first_mem).1)
      (Formula.within_of_mem_compounds within (List.mem_filter.mp second_mem).1)
  rw [continues.grow_eq within, includingForms, continues.distinct.names_includingAll,
    List.eraseDups_append, eraseDups_eq_self continues.distinct, List.removeAll, List.filter_map,
    missing, ← eraseDups_map apart]
  congr 3
  exact List.filter_congr absent_iff

theorem Continues.count_grow (continues : table.Continues source)
    (within : formula.within source.count = true) :
    (table.grow formula).count = table.needed formula := by
  rw [count_eq, continues.names_grow within, List.length_append, List.length_map, needed, count_eq]

/-- At first, every compound part is missing. -/
theorem Plain.missing_eq (plain : source.Plain) (within : formula.within source.count = true) :
    source.missing formula = formula.compounds.eraseDups := by
  have continues := Continues.self plain
  rw [missing, List.filter_eq_self.mpr]
  intro part member
  have part_within := Formula.within_of_mem_compounds within member
  rw [Option.isNone_iff_eq_none, atomOf?_eq part_within, find?_eq_none_iff]
  intro listed
  exact Formula.canonical_ne_of_isCompound (Formula.isCompound_of_mem_compounds member)
    (plain.alphanumeric _ listed) rfl

end Missing
end AtomTable

namespace Encoding

variable {table source : AtomTable} {formula : Formula}

/-- A transformation succeeds if there are the atoms that it needs, and fails otherwise. -/
theorem tseitin?_cases (continues : table.Continues source) (fits : table.Fits)
    (within : formula.within source.count = true) (template : IffTemplate) :
    (table.needed formula ≤ atomLimit ∧ tseitin? template table formula =
        some (.ok (transformed template table formula), table.grow formula)) ∨
      (atomLimit < table.needed formula ∧ ∃ left,
        tseitin? template table formula = some (.error .noAtomLeft, left) ∧
          left.Continues source ∧ left.Below (table.grow formula) ∧ left.Fits) := by
  have table_within := continues.within within
  have fits_iff : (table.grow formula).Fits ↔ table.needed formula ≤ atomLimit := by
    rw [AtomTable.Fits, continues.count_grow within]
  by_cases enough : (table.grow formula).Fits
  · exact .inl ⟨fits_iff.mp enough, tseitin?_eq continues.distinct table_within enough template⟩
  · obtain ⟨left, failed, low, high, left_fits⟩ :=
      exists_tseitin?_error continues.distinct table_within fits enough template
    exact .inr ⟨Nat.lt_of_not_le (mt fits_iff.mpr enough), left, failed,
      continues.between (continues.grow formula) low high, high, left_fits⟩

/-- Whether a transformation succeeds if there are the atoms that it needs, with clauses and a table
as told, and fails if there are not. -/
structure Delivers (template : IffTemplate) (table : AtomTable) (formula : Formula)
    (Told : Cnf → AtomTable → Prop) : Prop where
  /-- With enough atoms, the clauses and the table that it leaves are as told. -/
  enough : table.needed formula ≤ atomLimit →
    ∃ cnf final, tseitin? template table formula = some (.ok cnf, final) ∧ Told cnf final
  /-- With fewer, there are no clauses. -/
  fewer : atomLimit < table.needed formula →
    ∃ left, tseitin? template table formula = some (.error .noAtomLeft, left)

theorem delivers_transformed (continues : table.Continues source) (fits : table.Fits)
    (within : formula.within source.count = true) {template : IffTemplate}
    {Told : Cnf → AtomTable → Prop}
    (told : table.needed formula ≤ atomLimit →
      Told (transformed template table formula) (table.grow formula)) :
    Delivers template table formula Told := by
  rcases tseitin?_cases continues fits within template with
    ⟨enough, succeeded⟩ | ⟨fewer, left, failed, _⟩
  · exact ⟨fun _ => ⟨_, _, succeeded, told enough⟩, fun fewer => by omega⟩
  · exact ⟨fun enough => by omega, fun _ => ⟨left, failed⟩⟩

end Encoding

namespace AtomTable

/-- The tables that transformations of formulas over source atoms lead to, be it that they succeed
or fail. -/
inductive Reached (source : AtomTable) : AtomTable → Prop where
  /-- The source table itself. -/
  | start : Reached source source
  /-- The table that a further transformation leaves. -/
  | transform {table next : AtomTable} {template : IffTemplate} {formula : Formula}
      {outcome : Except Fault Cnf} (reached : Reached source table)
      (within : formula.within source.count = true)
      (transformed : Encoding.tseitin? template table formula = some (outcome, next)) :
      Reached source next

section Reached

variable {source table : AtomTable}

/-- A table that transformations lead to continues the source, with no more atoms than there are. -/
theorem Reached.continues_fits (plain : source.Plain) (fits : source.Fits)
    (reached : Reached source table) : table.Continues source ∧ table.Fits := by
  induction reached with
  | start => exact ⟨.self plain, fits⟩
  | transform reached within transformed induction =>
      obtain ⟨continues, table_fits⟩ := induction
      rcases Encoding.tseitin?_cases continues table_fits within _ with
        ⟨enough, succeeded⟩ | ⟨_, left, failed, left_continues, _, left_fits⟩
      · rw [succeeded] at transformed
        cases transformed
        rw [← continues.count_grow within] at enough
        exact ⟨continues.grow _, enough⟩
      · rw [failed] at transformed
        cases transformed
        exact ⟨left_continues, left_fits⟩

end Reached
end AtomTable

namespace Grammar

/-- How many atoms the names of a text and the compound parts of its formula need. -/
def Parsed.atomsNeeded (parsed : Parsed) : Nat :=
  parsed.table.count + parsed.formula.compounds.eraseDups.length

theorem Parsed.Sound.needed_eq {parsed : Parsed} (sound : parsed.Sound) :
    parsed.table.needed parsed.formula = parsed.atomsNeeded := by
  rw [AtomTable.needed, sound.plain.missing_eq sound.within, atomsNeeded]

end Grammar

namespace Encoding

variable {table : AtomTable} {formula : Formula}

/-- What is shown of clauses over a table that continues the names of a text is delivered whatever
was transformed over these names before. -/
theorem delivers_of_parse? {text : String} {parsed : Grammar.Parsed}
    (parse_eq : Grammar.parse? text = some (.ok parsed)) (reached : parsed.table.Reached table)
    (within : formula.within parsed.table.count = true) {template : IffTemplate}
    {Told : Cnf → AtomTable → Prop}
    (told : table.Continues parsed.table → (table.grow formula).Fits →
      Told (transformed template table formula) (table.grow formula)) :
    Delivers template table formula Told := by
  have plain := (Grammar.sound_of_parse? parse_eq).plain
  obtain ⟨continues, fits⟩ := reached.continues_fits plain (Grammar.fits_of_parse? parse_eq)
  refine delivers_transformed continues fits within fun enough => told continues ?_
  rwa [AtomTable.Fits, continues.count_grow within]

end Encoding
end PropSat
