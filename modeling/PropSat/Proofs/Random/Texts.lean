import PropSat.Proofs.Encoding.Roundtrip
import PropSat.Proofs.Random.Drawing
import PropSat.Random.Xoshiro

/-!
# Texts of random formulas

What is drawn is written with names of source variables, which are apart for distinct atoms, so it
is read back from its text.  Clauses are recognised in the formula that is read, and they are
written as the same text; a formula of any shape is read from its canonical form.
-/

namespace PropSat

theorem Formula.nesting_rename (atomOf : Nat → Nat) (formula : Formula) :
    (formula.rename atomOf).nesting = formula.nesting := by
  induction formula with
  | var atom => rfl
  | neg inner induction => rw [rename, nesting, nesting, induction]
  | bin connective left right left_induction right_induction =>
      rw [rename, nesting, nesting, left_induction, right_induction]

/-- The atoms of a table with the names of some entries each bear the name of one. -/
theorem AtomTable.exists_name?_ofNames {α : Type} {nameOf : α → String} {entries : List α}
    {names : List String} (subset : names ⊆ entries.map nameOf) {atom : Nat}
    (inside : atom < (ofNames names).count) :
    ∃ entry ∈ entries, (ofNames names).name? atom = some (nameOf entry) := by
  have listed : atom < names.length := inside
  obtain ⟨entry, member, name_eq⟩ := List.mem_map.mp (subset (List.getElem_mem listed))
  refine ⟨entry, member, ?_⟩
  rw [name?_eq, name_eq]
  exact List.getElem?_eq_getElem listed

namespace Random

section Clauses

variable {bounds : Bounds} {cnf : Cnf}

theorem Bounds.Admits.occupied (admitted : bounds.Admits cnf) : cnf.Occupied where
  clauses_ne := List.ne_nil_of_length_pos admitted.clauses.1
  clause_ne clause member := List.ne_nil_of_length_pos (admitted.literals clause member).1

theorem Bounds.Admits.atom_lt (admitted : bounds.Admits cnf) {atom : Nat}
    (member : atom ∈ cnf.atoms) : atom < bounds.atoms - 1 := by
  obtain ⟨clause, clause_mem, occurs⟩ := List.mem_flatMap.mp member
  obtain ⟨literal, literal_mem, rfl⟩ := List.mem_map.mp occurs
  exact admitted.atoms clause clause_mem literal literal_mem

/-- Whether a text is read as clauses within bounds that are written as this text, over atoms named
by numbers. -/
def Bounds.AdmitsText (bounds : Bounds) (text : String) : Prop :=
  ∃ parsed cnf, Grammar.parse? text = some (.ok parsed) ∧
    Encoding.asCnf parsed.table parsed.formula = .ok cnf ∧
    cnf.named? parsed.table = some text ∧
    (0 < cnf.clauses.length ∧ cnf.clauses.length ≤ bounds.clauses) ∧
    (∀ clause ∈ cnf.clauses, 0 < clause.length ∧ clause.length ≤ bounds.literals) ∧
    ∀ atom < parsed.table.count, ∃ number < bounds.atoms - 1,
      parsed.table.name? atom = some (toString number)

theorem Bounds.Admits.text (admitted : bounds.Admits cnf) (fits : cnf.support.length ≤ atomLimit) :
    bounds.AdmitsText cnf.text := by
  obtain ⟨⟨formula, table⟩, parse_eq, rfl, read⟩ := admitted.occupied.readBack_text fits
  refine ⟨_, cnf.renumbered, parse_eq, read, cnf.named?_renumbered toString, ?_, ?_, ?_⟩
  · simpa [Cnf.renumbered, Cnf.renumber] using admitted.clauses
  · intro clause member
    obtain ⟨original, original_mem, rfl⟩ := List.mem_map.mp member
    rw [List.length_map]
    exact admitted.literals original original_mem
  · intro atom inside
    obtain ⟨number, listed, named⟩ :=
      AtomTable.exists_name?_ofNames (List.Subset.refl _) inside
    exact ⟨number, admitted.atom_lt (List.mem_eraseDups.mp listed), named⟩

/-- Whether a text is as told, or has more names than there are atoms, so that reading it breaks
off. -/
def ReadsAs (told : String → Prop) (text : String) : Prop :=
  told text ∨ (atomLimit < Grammar.nameCount text ∧ Grammar.parse? text = none)

theorem ReadsAs.told {kind : String → Prop} {text : String} (reads : ReadsAs kind text)
    (fits : Grammar.nameCount text ≤ atomLimit) : kind text :=
  reads.resolve_right fun broken_off => Nat.not_le_of_lt broken_off.1 fits

end Clauses

section Formulas

theorem sourceName_variableName (atom : Nat) : SourceName (variableName atom) := by
  obtain ⟨_, digits⟩ := sourceName_toString atom
  rw [SourceName, variableName, String.toList_append]
  refine ⟨by simp, fun character member => ?_⟩
  rcases List.mem_append.mp member with letter | digit
  · rw [List.mem_singleton.mp letter]
    rfl
  · exact digits character digit

/-- Whether a text is the canonical form of the formula that is read from it, which is nested as
deeply as is allowed at most and has the allowed variables. -/
def CanonicalText (atomCount depth : Nat) (text : String) : Prop :=
  ∃ parsed, Grammar.parse? text = some (.ok parsed) ∧
    parsed.formula.canonical? parsed.table = some text ∧
    parsed.formula.nesting ≤ depth ∧
    ∀ atom < parsed.table.count, ∃ number < atomCount,
      parsed.table.name? atom = some ("x" ++ toString number)

/-- From every lawful source, a formula is drawn if there is an atom to choose, and its text is the
canonical form of the formula that is read from it, unless it has more variables than there are
atoms. -/
theorem formulaText_canonical {σ : Type} [Source σ] [LawfulSource σ] {atomCount : Nat}
    (some_atom : 1 ≤ atomCount) (depth : Nat) :
    (formulaText atomCount depth : Draw σ String).Yields
      (ReadsAs (CanonicalText atomCount depth)) := by
  refine (yields_formulaText some_atom depth).mono ?_
  rintro text ⟨formula, nested, within, rfl⟩
  have is_expression : Grammar.IsExpression variableName formula (formula.canonical variableName) :=
    (Grammar.isOperand_canonical fun atom _ => sourceName_variableName atom).isExpression
  rcases Nat.lt_or_ge atomLimit (Grammar.nameCount (formula.canonical variableName)) with
    many | fits
  · exact .inr ⟨many, is_expression.parse?_eq_none many⟩
  rw [is_expression.nameCount_eq] at fits
  have parse_eq := is_expression.parse?_eq fits
  have sound := Grammar.sound_of_parse? parse_eq
  refine .inl ⟨_, parse_eq, ?_, ?_, ?_⟩
  · rw [Formula.canonical?, if_pos sound.within, Grammar.canonical_reading]
  · rw [Grammar.reading, Formula.nesting_rename]
    exact nested
  · intro atom inside
    obtain ⟨number, occurs, named⟩ :=
      AtomTable.exists_name?_ofNames (fun _ => List.mem_eraseDups.mp) inside
    exact ⟨number, Formula.within_iff.mp within number occurs, named⟩

theorem formulaText_canonical_seeded :
    1 ≤ 2 ∧
      (formulaText 2 3 (Xoshiro.ofSeed 17)).map Prod.fst = some "(x1<->(!x0->(x0|x0)))" ∧
      CanonicalText 2 3 "(x1<->(!x0->(x0|x0)))" := by
  have some_atom : 1 ≤ 2 := by decide
  have text_eq : (formulaText 2 3 (Xoshiro.ofSeed 17)).map Prod.fst =
      some "(x1<->(!x0->(x0|x0)))" := by
    decide +kernel
  have two_names : Grammar.nameCount "(x1<->(!x0->(x0|x0)))" = 2 := by with_unfolding_all rfl
  obtain ⟨text, next, drawn, read⟩ := formulaText_canonical some_atom 3 (Xoshiro.ofSeed 17)
  rw [drawn] at text_eq
  cases Option.some.inj text_eq
  exact ⟨some_atom, by rw [drawn]; rfl, read.told (by rw [two_names]; decide)⟩

end Formulas
end Random
end PropSat
