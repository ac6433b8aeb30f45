import PropSat.Proofs.Encoding.Gates
import PropSat.Proofs.Encoding.Rereading
import PropSat.Proofs.Grammar.Prefixes

/-!
# Clauses as text

Clauses are written as chains of literals in parentheses, and chained themselves.  A chain is read
nested to the left, and clausal form is recognised from left to right, so the same clauses come back
in the same order, over their distinct atoms in the order of their first occurrence.  An empty
clause is written as parentheses around nothing, between which an operand is missing.
-/

namespace PropSat

/-- The same sign on another atom. -/
def Literal.renumber (atomOf : Nat → Nat) (literal : Literal) : Literal where
  atom := atomOf literal.atom
  polarity := literal.polarity

namespace Cnf

/-- Clauses with every atom replaced, over a given number of atoms. -/
def renumber (atomOf : Nat → Nat) (count : Nat) (cnf : Cnf) : Cnf where
  atomCount := count
  clauses := cnf.clauses.map (List.map (Literal.renumber atomOf))

/-- Atoms from left to right, with repetitions. -/
def atoms (cnf : Cnf) : List Nat := cnf.clauses.flatMap Clause.atoms

/-- The distinct atoms in the order of their first occurrence. -/
def support (cnf : Cnf) : List Nat := cnf.atoms.eraseDups

/-- The clauses over their distinct atoms, numbered by first occurrence. -/
def renumbered (cnf : Cnf) : Cnf := cnf.renumber cnf.support.idxOf cnf.support.length

end Cnf

section Shapes

variable {atomOf : Nat → Nat}

theorem Literal.rename_formula (literal : Literal) :
    (literal.formula .var).rename atomOf = (literal.renumber atomOf).formula .var := by
  obtain ⟨atom, polarity⟩ := literal
  cases polarity <;> rfl

theorem Literal.isLiteral_formula (literal : Literal) : (literal.formula .var).IsLiteral := by
  obtain ⟨atom, polarity⟩ := literal
  cases polarity
  · exact .neg atom
  · exact .var atom

theorem Literal.literals_formula (literal : Literal) :
    (literal.formula .var).literals = [literal] := by
  obtain ⟨atom, polarity⟩ := literal
  cases polarity <;> rfl

namespace Clause

variable {clause : Clause}

theorem rename_formula (clause_ne : clause ≠ []) :
    (clause.formula .var).rename atomOf =
      Clause.formula .var (clause.map (Literal.renumber atomOf)) := by
  rw [formula, Formula.rename_joined _ (by simpa using clause_ne), formula, List.map_map,
    List.map_map]
  exact congrArg _ (List.map_congr_left fun literal _ => literal.rename_formula)

theorem isDisjunction_formula (clause_ne : clause ≠ []) :
    (clause.formula .var).IsDisjunction := by
  rw [formula, Formula.joined_iff _ (fun _ _ => Formula.isDisjunction_or_iff)
    (by simpa using clause_ne), List.forall_mem_map]
  exact fun literal _ => .literal literal.isLiteral_formula

/-- The formula of a clause lists the literals of the clause. -/
theorem literals_formula (clause_ne : clause ≠ []) : (clause.formula .var).literals = clause := by
  rw [formula, Formula.flatMap_joined Formula.literals (fun _ _ => rfl) (by simpa using clause_ne),
    List.flatMap_map]
  simp only [Literal.literals_formula, List.flatMap_singleton']

end Clause

namespace Cnf.Occupied

variable {cnf : Cnf}

theorem renumber (occupied : cnf.Occupied) (atomOf : Nat → Nat) (count : Nat) :
    (cnf.renumber atomOf count).Occupied where
  clauses_ne := by simpa [Cnf.renumber] using occupied.clauses_ne
  clause_ne := by simpa [Cnf.renumber] using occupied.clause_ne

theorem rename_formula (occupied : cnf.Occupied) (count : Nat) :
    (cnf.formula .var).rename atomOf = (cnf.renumber atomOf count).formula .var := by
  rw [formula, Formula.rename_joined _ (by simpa using occupied.clauses_ne), formula,
    Cnf.renumber, List.map_map, List.map_map]
  refine congrArg _ (List.map_congr_left fun clause member => ?_)
  exact Clause.rename_formula (occupied.clause_ne clause member)

theorem isConjunction_formula (occupied : cnf.Occupied) : (cnf.formula .var).IsConjunction := by
  rw [formula, Formula.joined_iff _ (fun _ _ => Formula.isConjunction_and_iff)
    (by simpa using occupied.clauses_ne), List.forall_mem_map]
  exact fun clause member =>
    .disjunction (Clause.isDisjunction_formula (occupied.clause_ne clause member))

/-- The formula of clauses has these clauses. -/
theorem clauses_formula (occupied : cnf.Occupied) : (cnf.formula .var).clauses = cnf.clauses := by
  have each : ∀ clause ∈ cnf.clauses, (clause.formula .var).clauses = [clause] := by
    intro clause member
    have clause_ne := occupied.clause_ne clause member
    rw [Formula.clauses_eq_singleton (Clause.isDisjunction_formula clause_ne).ne_and,
      Clause.literals_formula clause_ne]
  rw [formula, Formula.flatMap_joined Formula.clauses Formula.clauses_and
    (by simpa using occupied.clauses_ne), List.flatMap_map, List.flatMap_congr each]
  exact List.flatMap_singleton' _

theorem atoms_formula (occupied : cnf.Occupied) : (cnf.formula .var).atoms = cnf.atoms := by
  rw [← Formula.map_atom_literals, ← Formula.flatten_clauses, occupied.clauses_formula,
    List.map_flatten]
  rfl

theorem support_formula (occupied : cnf.Occupied) :
    (cnf.formula .var).support = cnf.support := by
  rw [Formula.support, occupied.atoms_formula, support]

theorem renumbered_formula (occupied : cnf.Occupied) :
    (cnf.formula .var).renumbered = cnf.renumbered.formula .var := by
  rw [Formula.renumbered, occupied.support_formula, occupied.rename_formula, renumbered]

end Cnf.Occupied
end Shapes

section Names

variable (cnf : Cnf) (nameOf : Nat → String)

theorem Literal.signedName_renumber {atoms : List Nat} {literal : Literal}
    (member : literal.atom ∈ atoms) :
    (AtomTable.ofNames (atoms.map nameOf)).signedName (literal.renumber atoms.idxOf) =
      literal.spelled nameOf := by
  change (if literal.polarity then _ else _) = _
  rw [renumber, AtomTable.nameAt_ofNames_map member]
  rfl

theorem Clause.named_renumber {atoms : List Nat} {clause : Clause}
    (members : ∀ literal ∈ clause, literal.atom ∈ atoms) :
    Clause.named (.ofNames (atoms.map nameOf)) (clause.map (Literal.renumber atoms.idxOf)) =
      clause.spelled nameOf := by
  have texts_eq := List.map_congr_left fun literal occurs =>
    Literal.signedName_renumber nameOf (members literal occurs)
  rw [named, spelled, List.map_map]
  exact congrArg (fun texts => "(" ++ "|".intercalate texts ++ ")") texts_eq

/-- Clauses over their distinct atoms are written as the clauses were, with the same names. -/
theorem Cnf.named?_renumbered :
    cnf.renumbered.named? (.ofNames (cnf.support.map nameOf)) = some (cnf.spelled nameOf) := by
  have listed : ∀ clause ∈ cnf.clauses, ∀ literal ∈ clause, literal.atom ∈ cnf.support :=
    fun clause member literal occurs => List.mem_eraseDups.mpr
      (List.mem_flatMap.mpr ⟨clause, member, List.mem_map_of_mem occurs⟩)
  have texts_eq := List.map_congr_left fun clause member =>
    Clause.named_renumber nameOf (listed clause member)
  rw [Encoding.cnf_named?_eq]
  · rw [named, spelled, renumbered, renumber, List.map_map]
    exact congrArg (fun texts => some ("&".intercalate texts)) texts_eq
  · intro clause member literal occurs
    obtain ⟨original, original_mem, rfl⟩ := List.mem_map.mp member
    obtain ⟨source, source_mem, rfl⟩ := List.mem_map.mp occurs
    have inside := List.idxOf_lt_length_of_mem (listed original original_mem source source_mem)
    simpa [AtomTable.count, AtomTable.ofNames, Literal.renumber] using inside

end Names

/-- Whether a text is read as clauses over their distinct atoms, which keep their names. -/
def Cnf.ReadBack (cnf : Cnf) (nameOf : Nat → String) (text : String) : Prop :=
  ∃ parsed, Grammar.parse? text = some (.ok parsed) ∧
    parsed.table = .ofNames (cnf.support.map nameOf) ∧
    Encoding.asCnf parsed.table parsed.formula = .ok cnf.renumbered

section Source

variable {cnf : Cnf} {nameOf : Nat → String}

/-- Clauses written with source names are an expression. -/
theorem Cnf.Occupied.isExpression_source (occupied : cnf.Occupied)
    (source : ∀ atom ∈ cnf.atoms, SourceName (nameOf atom)) :
    Grammar.IsExpression nameOf (cnf.formula .var) (cnf.spelled nameOf) := by
  refine occupied.isExpression_spelled fun clause member literal occurs => ?_
  refine Grammar.isOperand_canonical (List.forall_mem_singleton.mpr (source _ ?_))
  exact List.mem_flatMap.mpr ⟨clause, member, List.mem_map_of_mem occurs⟩

theorem Cnf.Occupied.reading_eq (occupied : cnf.Occupied)
    (apart : ∀ first ∈ cnf.atoms, ∀ second ∈ cnf.atoms, nameOf first = nameOf second →
      first = second) :
    Grammar.reading nameOf (cnf.formula .var) =
      { formula := cnf.renumbered.formula .var, table := .ofNames (cnf.support.map nameOf) } := by
  rw [← occupied.atoms_formula] at apart
  rw [Grammar.reading_eq apart, occupied.renumbered_formula, occupied.support_formula]

theorem Cnf.count_support (cnf : Cnf) (nameOf : Nat → String) :
    (AtomTable.ofNames (cnf.support.map nameOf)).count = cnf.support.length := by
  simp [AtomTable.count, AtomTable.ofNames]

/-- Clauses written with distinct source names are read back, if there are atoms for them. -/
theorem Cnf.Occupied.readBack_spelled (occupied : cnf.Occupied)
    (fits : cnf.support.length ≤ atomLimit)
    (source : ∀ atom ∈ cnf.atoms, SourceName (nameOf atom))
    (apart : ∀ first ∈ cnf.atoms, ∀ second ∈ cnf.atoms, nameOf first = nameOf second →
      first = second) :
    cnf.ReadBack nameOf (cnf.spelled nameOf) := by
  have reading_eq := occupied.reading_eq apart
  have reading_fits : (Grammar.reading nameOf (cnf.formula .var)).table.Fits := by
    rw [reading_eq, AtomTable.Fits, cnf.count_support]
    exact fits
  have read := (occupied.isExpression_source source).parse?_eq reading_fits
  rw [reading_eq] at read
  have renumbered_occupied : cnf.renumbered.Occupied := occupied.renumber _ _
  refine ⟨_, read, rfl, Encoding.asCnf_eq_ok_iff.mpr
    ⟨renumbered_occupied.isConjunction_formula, (Grammar.sound_of_parse? read).within, ?_⟩⟩
  rw [renumbered_occupied.clauses_formula, cnf.count_support]
  rfl

end Source

section Empty

namespace Grammar

theorem Token.eq_leftParen {token : Token} {rest : List Char} (fits : token.Fits rest)
    (member : '(' ∈ token.text.toList) : token = .leftParen := by
  cases token with
  | name text => exact absurd (fits.1.2 '(' member) (by decide)
  | leftParen => rfl
  | not | rightParen => simp [Token.text] at member
  | connective connective => cases connective <;> simp [Token.text, Connective.symbol] at member

/-- An opening parenthesis in a text is a token of its own. -/
theorem Spells.exists_of_leftParen {front rest : List Char} {tokens : List Token}
    (spells : Spells (front ++ '(' :: rest) tokens) :
    ∃ before after, tokens = before ++ .leftParen :: after ∧ Spells rest after := by
  generalize text_eq : front ++ '(' :: rest = text at spells
  induction spells generalizing front with
  | nil => simp at text_eq
  | @blank character later tokens is_blank spells induction =>
      cases front with
      | nil =>
          cases text_eq
          cases is_blank
      | cons first front => exact induction (List.cons.inj text_eq).2
  | @token token later tokens fits spells induction =>
      rcases List.append_eq_append_iff.mp text_eq with
        ⟨more, token_eq, rest_eq⟩ | ⟨more, rfl, later_eq⟩
      · cases more with
        | nil =>
            obtain ⟨before, after, rfl, after_spells⟩ := @induction [] rest_eq
            exact ⟨token :: before, after, rfl, after_spells⟩
        | cons first more =>
            cases rest_eq
            have member : '(' ∈ token.text.toList := by
              rw [token_eq]
              exact List.mem_append_right _ List.mem_cons_self
            cases Token.eq_leftParen fits member
            cases front with
            | nil =>
                cases token_eq
                exact ⟨[], tokens, rfl, spells⟩
            | cons first front => simp [Token.text] at token_eq
      · obtain ⟨before, after, rfl, after_spells⟩ := induction later_eq.symm
        exact ⟨token :: before, after, rfl, after_spells⟩

/-- After an opening parenthesis an operand has to follow, so none closes right there. -/
theorem Position.run?_parens (position : Position) (before after : List Token) :
    position.run? (before ++ .leftParen :: .rightParen :: after) = none := by
  induction before generalizing position with
  | nil =>
      cases position with
      | expecting hole => rfl
      | complete site expression => cases site <;> rfl
  | cons token before induction =>
      rw [List.cons_append, run?]
      split
      · exact induction _
      · rfl

/-- Parentheses around nothing stand in no formula. -/
theorem rejected_of_parens {text : String} (empty : ['(', ')'] <:+: text.toList) :
    Rejected text := by
  refine rejected_of_unread fun parsed accepted => ?_
  obtain ⟨expression, spells, _⟩ := parse?_eq_ok_iff.mp accepted
  obtain ⟨front, rest, spelled⟩ := empty
  rw [← spelled, List.append_assoc] at spells
  obtain ⟨before, after, tokens_eq, after_spells⟩ := spells.exists_of_leftParen
  obtain ⟨more, rfl, _⟩ := @Spells.of_token _ .rightParen _ trivial after_spells
  have ran := Position.run?_start_iff.mpr tokens_eq
  rw [Position.run?_parens] at ran
  cases ran

end Grammar

/-- Every text that is joined occurs in the whole. -/
theorem infix_intercalate {separator text : String} {texts : List String} (member : text ∈ texts) :
    text.toList <:+: (separator.intercalate texts).toList := by
  induction texts with
  | nil => cases member
  | cons first rest induction =>
      cases rest with
      | nil =>
          rw [List.mem_singleton.mp member]
          exact ⟨[], [], by rw [String.intercalate_singleton, List.nil_append, List.append_nil]⟩
      | cons second rest =>
          rw [String.intercalate_cons_cons, String.toList_append, String.toList_append]
          rcases List.mem_cons.mp member with rfl | later
          · exact ⟨[], _, by rw [List.nil_append, List.append_assoc]⟩
          · exact (induction later).trans (List.suffix_append _ _).isInfix

/-- Clauses are not read back if there are none or one of them is empty. -/
theorem Cnf.rejected_of_not_occupied {cnf : Cnf} (not_occupied : ¬ cnf.Occupied)
    (textOf : Nat → String) : Grammar.Rejected (cnf.spelled textOf) := by
  by_cases none_listed : cnf.clauses = []
  · have nothing : cnf.spelled textOf = "" := by
      rw [spelled, none_listed]
      rfl
    have failed : Grammar.parse? "" = some (.error { position := 0, expected := .expression }) := by
      with_unfolding_all rfl
    rw [nothing]
    exact Grammar.rejected_of_unread fun parsed accepted => by simp [failed] at accepted
  · have empty_listed : [] ∈ cnf.clauses := by
      by_contra absent
      exact not_occupied ⟨none_listed, fun clause member same => absent (same ▸ member)⟩
    have written : Clause.spelled textOf [] ∈ cnf.clauses.map (Clause.spelled textOf) :=
      List.mem_map_of_mem empty_listed
    have parens : (Clause.spelled textOf []).toList = ['(', ')'] := by simp [Clause.spelled]
    have occurs := @infix_intercalate "&" _ _ written
    rw [parens] at occurs
    exact Grammar.rejected_of_parens occurs

end Empty

theorem Cnf.Occupied.readBack_text {cnf : Cnf} (occupied : cnf.Occupied)
    (fits : cnf.support.length ≤ atomLimit) : cnf.ReadBack toString cnf.text :=
  occupied.readBack_spelled fits (fun atom _ => sourceName_toString atom)
    fun _ _ _ _ same => toString_inj same

/-- Clauses that are there and not empty are read back from their written form, with numbers for
their atoms as well as with distinct source names, if there are atoms for all that occur.  If there
are no clauses, or one of them is empty, their written form is no formula. -/
theorem Cnf.text_readBack (cnf : Cnf) :
    (cnf.Occupied → cnf.support.length ≤ atomLimit →
      cnf.ReadBack toString cnf.text ∧
      ∀ table : AtomTable, table.PlainOn cnf.atoms →
        ∃ text, cnf.named? table = some text ∧ cnf.ReadBack table.nameAt text) ∧
    (¬ cnf.Occupied →
      Grammar.Rejected cnf.text ∧
      ∀ table : AtomTable, (∀ atom ∈ cnf.atoms, atom < table.count) →
        ∃ text, cnf.named? table = some text ∧ Grammar.Rejected text) := by
  have named_eq : ∀ table : AtomTable, (∀ atom ∈ cnf.atoms, atom < table.count) →
      cnf.named? table = some (cnf.spelled table.nameAt) := by
    intro table inside
    refine Encoding.cnf_named?_eq fun clause member literal occurs => inside _ ?_
    exact List.mem_flatMap.mpr ⟨clause, member, List.mem_map_of_mem occurs⟩
  constructor
  · intro occupied fits
    refine ⟨occupied.readBack_text fits, fun table plain => ?_⟩
    exact ⟨_, named_eq table plain.inside, occupied.readBack_spelled fits plain.source plain.apart⟩
  · intro not_occupied
    refine ⟨rejected_of_not_occupied not_occupied toString, fun table inside => ?_⟩
    exact ⟨_, named_eq table inside, rejected_of_not_occupied not_occupied table.nameAt⟩

/-- The clauses `(2|!0|2)&(!2|2)`. -/
def repeatingClauses : Cnf where
  atomCount := 3
  clauses := [[.positive 2, .negative 0, .positive 2], [.negative 2, .positive 2]]

/-- The clauses `(0)&()`. -/
def clausesWithGap : Cnf where
  atomCount := 1
  clauses := [[.positive 0], []]

/-- The atom between the two that occur bears the name of one of them. -/
theorem Cnf.text_readBack_repeatingClauses :
    repeatingClauses.Occupied ∧
      repeatingClauses.support.length ≤ atomLimit ∧
      (AtomTable.ofNames ["a", "b", "b"]).PlainOn repeatingClauses.atoms ∧
      repeatingClauses.ReadBack toString repeatingClauses.text ∧
      (∃ text, repeatingClauses.named? (.ofNames ["a", "b", "b"]) = some text ∧
        repeatingClauses.ReadBack (AtomTable.ofNames ["a", "b", "b"]).nameAt text) ∧
      ¬ clausesWithGap.Occupied ∧
      (∃ fault, Grammar.parse? clausesWithGap.text = some (.error fault)) ∧
      ∃ text fault, clausesWithGap.named? (.ofNames ["a"]) = some text ∧
        Grammar.parse? text = some (.error fault) := by
  have occupied : repeatingClauses.Occupied := ⟨by decide, by decide⟩
  have fits : repeatingClauses.support.length ≤ atomLimit := by decide
  have plain : (AtomTable.ofNames ["a", "b", "b"]).PlainOn [2, 0, 2, 2, 2] :=
    { inside := by decide
      source := by
        intro atom member
        simp only [List.mem_cons, List.not_mem_nil, or_false] at member
        rcases member with rfl | rfl | rfl | rfl | rfl <;>
          exact ⟨by decide, List.all_eq_true.mp rfl⟩
      apart := by decide }
  have gap : ¬ clausesWithGap.Occupied := fun occupied => occupied.clause_ne [] (by decide) rfl
  have gap_named : clausesWithGap.named? (.ofNames ["a"]) = some "(a)&()" := by decide
  have one_number : Grammar.nameCount clausesWithGap.text = 1 := by with_unfolding_all rfl
  have one_name : Grammar.nameCount "(a)&()" = 1 := by with_unfolding_all rfl
  obtain ⟨numbered, named⟩ := (text_readBack repeatingClauses).1 occupied fits
  obtain ⟨unread, unnamed⟩ := (text_readBack clausesWithGap).2 gap
  obtain ⟨text, named_eq, text_unread⟩ := unnamed (.ofNames ["a"]) (by decide)
  rw [gap_named] at named_eq
  cases named_eq
  obtain ⟨fault, failed⟩ := text_unread.faulty (by rw [one_name]; decide)
  exact ⟨occupied, fits, plain, numbered, named _ plain, gap,
    unread.faulty (by rw [one_number]; decide), _, fault, gap_named, failed⟩

example :
    repeatingClauses.renumbered =
      { atomCount := 2
        clauses := [[.positive 0, .negative 1, .positive 0], [.negative 0, .positive 0]] } := by
  decide

end PropSat
