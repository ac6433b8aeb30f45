import PropSat.Encoding.Clausify
import PropSat.Proofs.Encoding.Models
import PropSat.Proofs.Encoding.Recognition

/-!
# Clauses of a formula

Clauses of a formula over source atoms are found by reading them or by transforming the formula, and
they have just the models that continue those of the formula.  None are found only if the formula is
not made of clauses and there are not enough atoms to transform it.
-/

namespace PropSat
namespace Encoding

variable {formula : Formula} {table source : AtomTable}

/-- Whether clauses over the source atoms and others have no models but those that continue models
of a formula over the source atoms. -/
structure Safe (source : AtomTable) (formula : Formula) (cnf : Cnf) : Prop where
  /-- The clauses speak about the atoms below their count. -/
  in_range : cnf.InRange
  /-- The source atoms are among them. -/
  enough : source.count ≤ cnf.atomCount
  /-- The formula holds where the clauses do. -/
  sound : ∀ assignment, cnf.Holds assignment → formula.eval assignment = true

/-- Whether clauses over the source atoms and others have the models that continue those of a
formula over the source atoms. -/
structure Faithful (source : AtomTable) (formula : Formula) (cnf : Cnf) : Prop extends
    Safe source formula cnf where
  /-- Where the formula holds, the clauses do for some values of the other atoms. -/
  complete : ∀ assignment, formula.eval assignment = true → ∃ other, cnf.Holds other

theorem faithful_transformed (continues : table.Continues source)
    (within : formula.within source.count = true) :
    Faithful source formula (transformed .direct table formula) where
  in_range := transformed_inRange continues.distinct (continues.within within) .direct
  enough := (continues.grow formula).below.count_le
  sound := fun _ holds =>
    ((transformed_holds_iff continues.distinct (continues.within within)).mp holds).1
  complete := fun _ holds => ⟨_, transformed_holds_extended continues within holds⟩

theorem faithful_of_asCnf (continues : table.Continues source) {cnf : Cnf}
    (read : asCnf table formula = .ok cnf) : Faithful source formula cnf := by
  obtain ⟨count_eq, in_range, equivalent⟩ := asCnf_sound read
  refine ⟨⟨in_range, ?_, ?_⟩, ?_⟩
  · exact count_eq ▸ continues.below.count_le
  · exact fun assignment holds => (equivalent assignment).mp holds
  · exact fun assignment holds => ⟨assignment, (equivalent assignment).mpr holds⟩

/-- The clauses of a formula over source atoms are those that it is read as or those of its
transformation, for which there may be too few atoms. -/
theorem clausify?_cases (continues : table.Continues source) (fits : table.Fits)
    (within : formula.within source.count = true) (settings : Settings) :
    (∃ cnf, asCnf table formula = .ok cnf ∧
      clausify? settings table formula = some (.ok { method := .direct, cnf, table })) ∨
    (table.needed formula ≤ atomLimit ∧ clausify? settings table formula =
      some
        (.ok
          { method := .tseitin
            cnf := transformed settings.iffTemplate.value table formula
            table := table.grow formula })) ∨
    (atomLimit < table.needed formula ∧
      clausify? settings table formula = some (.error .noAtomLeft)) := by
  rw [clausify?]
  split
  · rename_i cnf _ read
    exact .inl ⟨cnf, read, rfl⟩
  · rename_i read
    exact (asCnf_ne_unknownAtom (continues.within within) read).elim
  · right
    rcases tseitin?_cases continues fits within settings.iffTemplate.value with
      ⟨enough, succeeded⟩ | ⟨fewer, left, failed, _⟩
    · rw [succeeded]
      exact .inl ⟨enough, rfl⟩
    · rw [failed]
      exact .inr ⟨fewer, rfl⟩

/-- Whether clauses as told are found for a formula that was read, except that there may be fewer
atoms than its names and compound parts need. -/
def Compiles (settings : Settings) (parsed : Grammar.Parsed) (Told : Clausified → Prop) : Prop :=
  (∃ compiled, clausify? settings parsed.table parsed.formula = some (.ok compiled) ∧
    Told compiled) ∨
  (atomLimit < parsed.atomsNeeded ∧
    clausify? settings parsed.table parsed.formula = some (.error .noAtomLeft))

theorem Compiles.exists_clausify? {settings : Settings} {parsed : Grammar.Parsed}
    {Told : Clausified → Prop} (compiles : Compiles settings parsed Told)
    (enough : parsed.atomsNeeded ≤ atomLimit) :
    ∃ compiled, clausify? settings parsed.table parsed.formula = some (.ok compiled) ∧
      Told compiled :=
  compiles.resolve_right fun failed => Nat.not_le_of_lt failed.1 enough

theorem Compiles.mono {settings : Settings} {parsed : Grammar.Parsed} {Told Other : Clausified → Prop}
    (compiles : Compiles settings parsed Told) (other : ∀ compiled, Told compiled → Other compiled) :
    Compiles settings parsed Other :=
  compiles.imp (Exists.imp fun compiled => And.imp_right (other compiled)) id

/-- What holds of the clauses that a text is read as and of those of its transformation is told of
the clauses that are found for it. -/
theorem compiles_of_parse? {text : String} {parsed : Grammar.Parsed}
    (parse_eq : Grammar.parse? text = some (.ok parsed)) {settings : Settings}
    {Told : Clausified → Prop}
    (direct : ∀ cnf, asCnf parsed.table parsed.formula = .ok cnf →
      Told { method := .direct, cnf, table := parsed.table })
    (tseitin : Told
      { method := .tseitin
        cnf := transformed settings.iffTemplate.value parsed.table parsed.formula
        table := parsed.table.grow parsed.formula }) :
    Compiles settings parsed Told := by
  have sound := Grammar.sound_of_parse? parse_eq
  rcases clausify?_cases (.self sound.plain) (Grammar.fits_of_parse? parse_eq) sound.within
    settings with ⟨cnf, read, compiled_eq⟩ | ⟨_, compiled_eq⟩ | ⟨fewer, failed⟩
  · exact .inl ⟨_, compiled_eq, direct cnf read⟩
  · exact .inl ⟨_, compiled_eq, tseitin⟩
  · rw [sound.needed_eq] at fewer
    exact .inr ⟨fewer, failed⟩

/-- Clauses found without chaining are faithful, whether or not it is tried to keep the formula as
it is. -/
theorem compiles_faithful {text : String} {parsed : Grammar.Parsed}
    (parse_eq : Grammar.parse? text = some (.ok parsed)) {settings : Settings}
    (direct : settings.iffTemplate.value = .direct) :
    Compiles settings parsed fun compiled =>
      Faithful parsed.table parsed.formula compiled.cnf := by
  have ⟨plain, within⟩ := Grammar.sound_of_parse? parse_eq
  have continues := AtomTable.Continues.self plain
  apply compiles_of_parse? parse_eq fun cnf read => faithful_of_asCnf continues read
  rw [direct]
  exact faithful_transformed continues within

end Encoding
end PropSat
