import PropSat.Random.Formula

/-!
# Results of draws

A draw yields results of some kind if it succeeds from every state of its source, with such a
result.  Draws that are made of draws which yield something do so, too.  From a lawful source, a
formula in conjunctive normal form is drawn within its bounds whenever they leave something to
choose from, and a formula of any shape is drawn within its depth.
-/

namespace PropSat

/-- The greatest number of connectives, negations included, on a path from the root. -/
def Formula.nesting : Formula → Nat
  | .var _ => 0
  | .neg inner => inner.nesting + 1
  | .bin _ left right => max left.nesting right.nesting + 1

namespace Random

/-- Whether a draw succeeds from every state, with a result of some kind. -/
def Draw.Yields {σ α : Type} (draw : Draw σ α) (kind : α → Prop) : Prop :=
  ∀ state, ∃ result next, draw state = some (result, next) ∧ kind result

namespace Draw.Yields

variable {σ α β : Type} {draw : Draw σ α} {kind : α → Prop}

theorem pure {result : α} (of_kind : kind result) :
    (Pure.pure result : Draw σ α).Yields kind :=
  fun state => ⟨result, state, rfl, of_kind⟩

theorem bind (yields : draw.Yields kind) {continuation : α → Draw σ β} {other : β → Prop}
    (continues : ∀ result, kind result → (continuation result).Yields other) :
    Yields (draw >>= continuation) other := by
  intro state
  obtain ⟨result, middle, draw_eq, of_kind⟩ := yields state
  obtain ⟨last, next, last_eq, of_other⟩ := continues result of_kind middle
  refine ⟨last, next, ?_, of_other⟩
  change (draw state).bind (fun drawn => continuation drawn.1 drawn.2) = _
  rw [draw_eq]
  exact last_eq

theorem map (yields : draw.Yields kind) {image : α → β} {other : β → Prop}
    (maps : ∀ result, kind result → other (image result)) : Yields (image <$> draw) other := by
  rw [map_eq_pure_bind]
  exact yields.bind fun result of_kind => .pure (maps result of_kind)

theorem mono (yields : draw.Yields kind) {other : α → Prop}
    (weakens : ∀ result, kind result → other result) : draw.Yields other := by
  intro state
  obtain ⟨result, next, draw_eq, of_kind⟩ := yields state
  exact ⟨result, next, draw_eq, weakens result of_kind⟩

theorem times (yields : draw.Yields kind) (count : Nat) :
    (draw.times count).Yields fun results =>
      results.length = count ∧ ∀ result ∈ results, kind result := by
  induction count with
  | zero => exact .pure ⟨rfl, by simp⟩
  | succ count induction =>
      exact yields.bind fun first first_kind =>
        induction.bind fun rest ⟨rest_length, rest_kind⟩ =>
          .pure ⟨congrArg (· + 1) rest_length, List.forall_mem_cons.mpr ⟨first_kind, rest_kind⟩⟩

variable [Source σ]

theorem toss (odds : Odds) : (Draw.toss odds : Draw σ Bool).Yields fun _ => True :=
  fun _ => ⟨_, _, rfl, trivial⟩

variable [LawfulSource σ] {least bound : Nat}

theorem number {span : Span} (nonempty : 0 < span.count) :
    (Draw.number span : Draw σ Nat).Yields fun number =>
      span.least ≤ number ∧ number < span.least + span.count := by
  intro state
  rw [Draw.number, if_neg (Nat.ne_of_gt nonempty)]
  have inside := LawfulSource.below_lt span.width nonempty state
  exact ⟨_, _, rfl, Nat.le_add_right _ _, Nat.add_lt_add_left inside _⟩

theorem upTo (some_number : least < bound) :
    (Draw.number (.upTo least bound) : Draw σ Nat).Yields fun number =>
      least ≤ number ∧ number < bound := by
  refine (number (Nat.sub_pos_of_lt some_number)).mono fun drawn within => ?_
  simp only [Span.upTo] at within
  omega

theorem through (some_number : least ≤ bound) :
    (Draw.number (.through least bound) : Draw σ Nat).Yields fun number =>
      least ≤ number ∧ number ≤ bound := by
  refine (number (Nat.sub_pos_of_lt (Nat.lt_succ_of_le some_number))).mono fun drawn within => ?_
  simp only [Span.through] at within
  omega

end Draw.Yields

/-- Whether clauses keep to bounds, with at least one clause and at least one literal in each. -/
structure Bounds.Admits (bounds : Bounds) (cnf : Cnf) : Prop where
  /-- There is a clause, and there are not too many. -/
  clauses : 0 < cnf.clauses.length ∧ cnf.clauses.length ≤ bounds.clauses
  /-- There is a literal in every clause, and there are not too many. -/
  literals : ∀ clause ∈ cnf.clauses, 0 < clause.length ∧ clause.length ≤ bounds.literals
  /-- Every variable is among those that there may be. -/
  atoms : ∀ clause ∈ cnf.clauses, ∀ literal ∈ clause, literal.atom < bounds.atoms - 1

section Formulas

variable {σ : Type} [Source σ] [LawfulSource σ]

theorem yields_literal {atomCount : Nat} (some_atom : 0 < atomCount) :
    (literal atomCount : Draw σ Literal).Yields fun literal => literal.atom < atomCount :=
  (Draw.Yields.upTo some_atom).bind fun _ within =>
    (Draw.Yields.toss .even).bind fun _ _ => .pure within.2

theorem yields_clause {atomCount mostLiterals : Nat} (some_atom : 0 < atomCount)
    (some_literal : 0 < mostLiterals) :
    (clause atomCount mostLiterals : Draw σ Clause).Yields fun clause =>
      (0 < clause.length ∧ clause.length ≤ mostLiterals) ∧
        ∀ literal ∈ clause, literal.atom < atomCount := by
  refine (Draw.Yields.through some_literal).bind fun literalCount within => ?_
  refine ((yields_literal some_atom).times literalCount).mono fun clause drawn => ?_
  obtain ⟨rfl, atoms_lt⟩ := drawn
  exact ⟨within, atoms_lt⟩

/-- Clauses are drawn within bounds that allow for two atoms, a clause and a literal. -/
theorem yields_cnf {bounds : Bounds} (some_atoms : 2 < bounds.atoms)
    (some_clause : 0 < bounds.clauses) (some_literal : 0 < bounds.literals) :
    (cnf bounds : Draw σ Cnf).Yields bounds.Admits := by
  refine (Draw.Yields.upTo some_atoms).bind fun atomCount atoms_within => ?_
  refine (Draw.Yields.through some_clause).bind fun clauseCount clauses_within => ?_
  have some_atom : 0 < atomCount := Nat.zero_lt_of_lt atoms_within.1
  refine ((yields_clause some_atom some_literal).times clauseCount).bind fun clauses drawn => ?_
  obtain ⟨rfl, clauses_kind⟩ := drawn
  refine .pure ⟨clauses_within, fun clause member => (clauses_kind clause member).1, ?_⟩
  intro clause member literal occurs
  have atom_lt := (clauses_kind clause member).2 literal occurs
  omega

/-- The text of clauses is drawn if there may be two atoms, a clause and a literal. -/
theorem yields_cnfText {bounds : Bounds} (some_atoms : 2 < bounds.atoms)
    (some_clause : 0 < bounds.clauses) (some_literal : 0 < bounds.literals) :
    (cnfText bounds : Draw σ String).Yields fun text =>
      ∃ cnf, bounds.Admits cnf ∧ text = cnf.text :=
  (yields_cnf some_atoms some_clause some_literal).bind fun cnf admitted =>
    .pure ⟨cnf, admitted, rfl⟩

theorem yields_leaf {atomCount : Nat} (some_atom : 0 < atomCount) (depth : Nat) :
    (leaf atomCount : Draw σ Formula).Yields fun formula =>
      formula.nesting ≤ depth ∧ formula.within atomCount = true :=
  (Draw.Yields.upTo some_atom).map fun _ within => ⟨Nat.zero_le depth, decide_eq_true within.2⟩

/-- A formula is drawn within its depth, over the atoms that are allowed. -/
theorem yields_formula {atomCount : Nat} (some_atom : 0 < atomCount) (depth : Nat) :
    (formula atomCount depth : Draw σ Formula).Yields fun formula =>
      formula.nesting ≤ depth ∧ formula.within atomCount = true := by
  induction depth with
  | zero => exact yields_leaf some_atom 0
  | succ depth induction =>
      refine (Draw.Yields.toss .oneInFive).bind fun stops _ => ?_
      cases stops with
      | true => exact yields_leaf some_atom (depth + 1)
      | false =>
          have some_kind : 0 < 5 := by decide
          refine (Draw.Yields.upTo some_kind).bind fun kind _ => ?_
          cases kind with
          | zero =>
              exact induction.map fun inner ⟨nested, within⟩ =>
                ⟨Nat.succ_le_succ nested, within⟩
          | succ kind =>
              refine induction.bind fun left ⟨left_nested, left_within⟩ => ?_
              refine induction.bind fun right ⟨right_nested, right_within⟩ => .pure ⟨?_, ?_⟩
              · exact Nat.succ_le_succ (Nat.max_le.mpr ⟨left_nested, right_nested⟩)
              · exact Bool.and_eq_true_iff.mpr ⟨left_within, right_within⟩

/-- The text of a formula is drawn if there is an atom to choose. -/
theorem yields_formulaText {atomCount : Nat} (some_atom : 0 < atomCount) (depth : Nat) :
    (formulaText atomCount depth : Draw σ String).Yields fun text =>
      ∃ formula : Formula, formula.nesting ≤ depth ∧ formula.within atomCount = true ∧
        text = formula.canonical variableName :=
  (yields_formula some_atom depth).bind fun formula ⟨nested, within⟩ =>
    .pure ⟨formula, nested, within, rfl⟩

end Formulas
end Random
end PropSat
