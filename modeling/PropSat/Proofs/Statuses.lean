import PropSat.Proofs.Satisfaction

/-!
# What a status says about completions

A valuation is completed by the models that hold the same atoms and keep all values.  A clause is
violated if no completion satisfies it, and unit if just the completions that make one open literal
true do.  A valuation that keeps all values has no other completions, so neither answer is lost as
more atoms are decided, except that a unit clause is settled together with its literal.
-/

namespace PropSat
namespace Valuation

variable {upper valuation : Valuation} {model : Array Bool} {literal : Literal}

/-- The model that values the open atoms as an assignment does. -/
def complete (valuation : Valuation) (assignment : Assignment) : Array Bool :=
  valuation.mapIdx fun atom value => value.getD (assignment atom)

theorem completedBy_complete (valuation : Valuation) (assignment : Assignment) :
    valuation.CompletedBy (valuation.complete assignment) := by
  refine ⟨Array.size_mapIdx, ?_⟩
  intro atom value at_atom
  simp [Assignment.ofModel, complete, at_atom]

/-- An open literal holds on a completion if it holds under the assignment that values it. -/
theorem holds_complete_iff {assignment : Assignment}
    (literal_open : valuation.truth? literal = some none) :
    literal.Holds (.ofModel (valuation.complete assignment)) ↔ literal.Holds assignment := by
  rw [truth?_eq_some_none_iff] at literal_open
  simp [Literal.Holds, Assignment.ofModel, complete, literal_open]

/-- A valuation that keeps all values has no other completions. -/
theorem Extends.completedBy (extended : upper.Extends valuation)
    (completed : upper.CompletedBy model) : valuation.CompletedBy model where
  left := completed.1.trans extended.size_eq
  right := fun atom value at_atom => completed.2 atom value (extended.keeps atom value at_atom)

end Valuation

namespace Clause

variable {upper valuation : Valuation} {clause : Clause} {status : Status} {literal : Literal}

/-- The open literal that a status names. -/
def Status.named? : Status → Option Literal
  | .unit literal | .undecided literal => some literal
  | .satisfied | .violated => none

/-- Unless a clause is satisfied, its status names the first open literal. -/
theorem find?_open_of_status? (status_eq : clause.status? valuation = some status)
    (not_satisfied : status ≠ .satisfied) :
    clause.find? (fun literal => valuation.truth? literal = some none) = status.named? := by
  induction clause generalizing status with
  | nil =>
      cases status_eq
      rfl
  | cons first rest induction =>
      rw [status?] at status_eq
      split at status_eq
      · cases status_eq
      · cases status_eq
        exact absurd rfl not_satisfied
      · rename_i falsified
        rw [List.find?_cons_of_neg (by simp [falsified])]
        exact induction status_eq not_satisfied
      · rename_i first_open
        rw [List.find?_cons_of_pos (by simp [first_open])]
        obtain ⟨later, _, rfl⟩ := Option.map_eq_some_iff.mp status_eq
        cases later with
        | satisfied => exact absurd rfl not_satisfied
        | violated | undecided => rfl
        | unit other =>
            rw [Status.behind]
            split <;> rfl

section Completions

variable {model : Array Bool}

/-- Some completion satisfies a clause with an open literal. -/
theorem exists_completedBy_holds (member : literal ∈ clause)
    (literal_open : valuation.truth? literal = some none) :
    ∃ model, valuation.CompletedBy model ∧ clause.Holds (.ofModel model) := by
  refine ⟨_, valuation.completedBy_complete fun _ => literal.polarity, literal, member, ?_⟩
  rw [Valuation.holds_complete_iff literal_open]
  rfl

/-- Of two different open literals, one can be made true and the other one false. -/
theorem exists_completedBy_apart {other : Literal} (different : other ≠ literal)
    (literal_open : valuation.truth? literal = some none)
    (other_open : valuation.truth? other = some none) :
    ∃ model, valuation.CompletedBy model ∧ other.Holds (.ofModel model) ∧
      ¬ literal.Holds (.ofModel model) := by
  let assignment : Assignment := fun atom =>
    if atom = other.atom then other.polarity else !literal.polarity
  refine ⟨_, valuation.completedBy_complete assignment, ?_, ?_⟩
  · rw [Valuation.holds_complete_iff other_open]
    exact if_pos rfl
  · rw [Valuation.holds_complete_iff literal_open]
    intro holds
    by_cases same_atom : literal.atom = other.atom
    · have same_polarity : other.polarity = literal.polarity := (if_pos same_atom).symm.trans holds
      obtain ⟨atom, polarity⟩ := literal
      obtain ⟨other_atom, other_polarity⟩ := other
      exact different (by simp_all)
    · have opposite : (!literal.polarity) = literal.polarity := (if_neg same_atom).symm.trans holds
      simp at opposite

end Completions

/-- What the status of a clause says about the values of its literals and about the completions of
the valuation. -/
structure Status.Means (valuation : Valuation) (clause : Clause) (status : Status) : Prop where
  /-- A satisfied clause has a true literal. -/
  satisfied_iff : status = .satisfied ↔
    ∃ literal ∈ clause, valuation.truth? literal = some (some true)
  /-- A violated clause is satisfied by no completion. -/
  violated_iff : status = .violated ↔
    ∀ model, valuation.CompletedBy model → ¬ clause.Holds (.ofModel model)
  /-- A unit clause is satisfied by just the completions that satisfy one open literal. -/
  unit_iff (literal : Literal) : status = .unit literal ↔
    literal ∈ clause ∧ valuation.truth? literal = some none ∧
      ∀ model, valuation.CompletedBy model →
        (clause.Holds (.ofModel model) ↔ literal.Holds (.ofModel model))
  /-- Any other clause is undecided, and its first open literal is named. -/
  undecided_iff (literal : Literal) : status = .undecided literal ↔
    status ≠ .satisfied ∧ status ≠ .violated ∧ (∀ forced, status ≠ .unit forced) ∧
      clause.find? (fun entry => valuation.truth? entry = some none) = some literal

section Means

theorem satisfied_iff_of_status? (status_eq : clause.status? valuation = some status) :
    status = .satisfied ↔ ∃ literal ∈ clause, valuation.truth? literal = some (some true) := by
  have described := describes_of_status? status_eq
  constructor
  · rintro rfl
    exact described
  · rintro ⟨literal, member, holds⟩
    cases status with
    | satisfied => rfl
    | violated => cases holds.symm.trans (described literal member)
    | unit forced =>
        rcases described.2.2 literal member with rfl | falsified
        · cases holds.symm.trans described.2.1
        · cases holds.symm.trans falsified
    | undecided first =>
        rcases described.2.2.2 literal member with still_open | falsified
        · cases holds.symm.trans still_open
        · cases holds.symm.trans falsified

theorem violated_iff_of_status? (status_eq : clause.status? valuation = some status) :
    status = .violated ↔ ∀ model, valuation.CompletedBy model → ¬ clause.Holds (.ofModel model) := by
  constructor
  · rintro rfl model completed
    exact not_holds_of_violated status_eq completed.2
  · intro unsatisfied
    have described := describes_of_status? status_eq
    cases status with
    | violated => rfl
    | satisfied =>
        have completed := valuation.completedBy_toModel
        exact (unsatisfied _ completed (holds_of_satisfied status_eq completed.2)).elim
    | unit literal | undecided literal =>
        obtain ⟨model, completed, holds⟩ := exists_completedBy_holds described.1 described.2.1
        exact (unsatisfied model completed holds).elim

theorem unit_iff_of_status? (status_eq : clause.status? valuation = some status)
    (literal : Literal) : status = .unit literal ↔
      literal ∈ clause ∧ valuation.truth? literal = some none ∧
        ∀ model, valuation.CompletedBy model →
          (clause.Holds (.ofModel model) ↔ literal.Holds (.ofModel model)) := by
  have described := describes_of_status? status_eq
  constructor
  · rintro rfl
    exact ⟨described.1, described.2.1, fun model completed => holds_iff_of_unit status_eq completed.2⟩
  · rintro ⟨member, literal_open, equivalent⟩
    cases status with
    | violated => cases literal_open.symm.trans (described literal member)
    | unit forced =>
        rcases described.2.2 literal member with rfl | falsified
        · rfl
        · cases literal_open.symm.trans falsified
    | satisfied =>
        have completed := valuation.completedBy_complete fun _ => !literal.polarity
        have holds := (equivalent _ completed).mp (holds_of_satisfied status_eq completed.2)
        rw [Valuation.holds_complete_iff literal_open] at holds
        exact absurd holds (by simp [Literal.Holds])
    | undecided first =>
        -- Another open literal can satisfy the clause where this one is false.
        obtain ⟨other, other_mem, different, other_open⟩ : ∃ other ∈ clause, other ≠ literal ∧
            valuation.truth? other = some none := by
          obtain ⟨first_mem, first_open, ⟨second, second_mem, apart, second_open⟩, _⟩ := described
          by_cases same : first = literal
          · exact ⟨second, second_mem, same ▸ apart, second_open⟩
          · exact ⟨first, first_mem, same, first_open⟩
        obtain ⟨model, completed, other_holds, literal_false⟩ :=
          exists_completedBy_apart different literal_open other_open
        exact (literal_false ((equivalent model completed).mp ⟨other, other_mem, other_holds⟩)).elim

theorem undecided_iff_of_status? (status_eq : clause.status? valuation = some status)
    (literal : Literal) : status = .undecided literal ↔
      status ≠ .satisfied ∧ status ≠ .violated ∧ (∀ forced, status ≠ .unit forced) ∧
        clause.find? (fun entry => valuation.truth? entry = some none) = some literal := by
  constructor
  · rintro rfl
    exact ⟨by simp, by simp, by simp, find?_open_of_status? status_eq (by simp)⟩
  · rintro ⟨not_satisfied, not_violated, not_unit, found⟩
    rw [find?_open_of_status? status_eq not_satisfied] at found
    cases status with
    | satisfied => exact absurd rfl not_satisfied
    | violated => exact absurd rfl not_violated
    | unit forced => exact absurd rfl (not_unit forced)
    | undecided first => rw [Option.some.inj found]

theorem means_of_status? (status_eq : clause.status? valuation = some status) :
    status.Means valuation clause where
  satisfied_iff := satisfied_iff_of_status? status_eq
  violated_iff := violated_iff_of_status? status_eq
  unit_iff := unit_iff_of_status? status_eq
  undecided_iff := undecided_iff_of_status? status_eq

end Means

/-- What the status of a clause says about its status on a valuation that keeps all values. -/
structure Status.Persists (upper : Valuation) (clause : Clause) (status : Status) : Prop where
  /-- A satisfied clause stays satisfied. -/
  satisfied : status = .satisfied → clause.status? upper = some .satisfied
  /-- A violated clause stays violated. -/
  violated : status = .violated → clause.status? upper = some .violated
  /-- A unit clause stays unit, with the same literal, while the literal is open. -/
  unit (literal : Literal) : status = .unit literal → upper.truth? literal = some none →
    clause.status? upper = some (.unit literal)

theorem persists_of_status? (inside : ∀ literal ∈ clause, literal.atom < valuation.size)
    (extended : upper.Extends valuation) (status_eq : clause.status? valuation = some status) :
    status.Persists upper clause := by
  rw [← extended.size_eq] at inside
  obtain ⟨later, later_eq⟩ := exists_status?_of_inside inside
  have means := means_of_status? later_eq
  have described := describes_of_status? status_eq
  refine ⟨?_, ?_, ?_⟩
  · rintro rfl
    obtain ⟨literal, member, holds⟩ := described
    rw [later_eq, means.satisfied_iff.mpr ⟨literal, member, extended.truth?_eq holds⟩]
  · rintro rfl
    rw [later_eq, means.violated_iff.mpr fun model completed =>
      not_holds_of_violated status_eq (extended.completedBy completed).2]
  · rintro literal rfl still_open
    rw [later_eq, (means.unit_iff literal).mpr ⟨described.1, still_open, fun model completed =>
      holds_iff_of_unit status_eq (extended.completedBy completed).2⟩]

end Clause

namespace Cnf

variable {valuation : Valuation} {cnf : Cnf} {status : Status}

/-- Whether the clause at an index is violated, and none before it. -/
structure FirstViolated (valuation : Valuation) (cnf : Cnf) (index : Nat) : Prop where
  /-- The clause at the index is violated. -/
  violated : ∃ clause, cnf.clauses[index]? = some clause ∧
    clause.status? valuation = some .violated
  /-- No clause before it is violated. -/
  earlier : ∀ before < index, ∀ clause, cnf.clauses[before]? = some clause →
    clause.status? valuation ≠ some .violated

theorem FirstViolated.unique {first second : Nat} (at_first : cnf.FirstViolated valuation first)
    (at_second : cnf.FirstViolated valuation second) : first = second := by
  obtain ⟨first_clause, first_eq, first_violated⟩ := at_first.violated
  obtain ⟨second_clause, second_eq, second_violated⟩ := at_second.violated
  rcases Nat.lt_trichotomy first second with before | same | after
  · exact (at_second.earlier first before first_clause first_eq first_violated).elim
  · exact same
  · exact (at_first.earlier second after second_clause second_eq second_violated).elim

/-- What the status of clauses says about the statuses of each of them. -/
structure Status.Means (valuation : Valuation) (cnf : Cnf) (status : Status) : Prop where
  /-- The clauses are satisfied if each of them is. -/
  satisfied_iff : status = .satisfied ↔
    ∀ clause ∈ cnf.clauses, clause.status? valuation = some .satisfied
  /-- They are violated at the least index of a violated clause. -/
  violated_iff (index : Nat) : status = .violated index ↔ cnf.FirstViolated valuation index

theorem firstViolated_of_status? {index : Nat}
    (violated : cnf.status? valuation = some (.violated index)) :
    cnf.FirstViolated valuation index := by
  obtain ⟨before, clause, after, clauses_eq, index_eq, clause_violated, earlier⟩ :=
    describes_of_statusFrom? violated
  rw [Nat.zero_add] at index_eq
  refine ⟨⟨clause, by simp [clauses_eq, index_eq], clause_violated⟩, ?_⟩
  intro position lower other at_position
  rw [clauses_eq, List.getElem?_append_left (index_eq ▸ lower)] at at_position
  exact earlier other (List.mem_of_getElem? at_position)

theorem means_of_status? (status_eq : cnf.status? valuation = some status) :
    status.Means valuation cnf := by
  have described := describes_of_statusFrom? status_eq
  refine ⟨⟨?_, ?_⟩, fun index => ⟨?_, ?_⟩⟩
  · rintro rfl
    exact described
  · intro satisfied
    exact Option.some.inj (status_eq.symm.trans (statusFrom?_of_satisfied satisfied 0))
  · rintro rfl
    exact firstViolated_of_status? status_eq
  · intro first
    obtain ⟨clause, clause_eq, violated⟩ := first.violated
    have member := List.mem_of_getElem? clause_eq
    cases status with
    | satisfied => cases violated.symm.trans (described clause member)
    | violated found => rw [(firstViolated_of_status? status_eq).unique first]
    | undecided => exact (described.2 clause member violated).elim

end Cnf

/-- On a valuation that holds its atoms, a clause has a status, which says what the completions of
the valuation make of the clause and what may become of it as more atoms are decided.  Clauses
together have a status as well, which says what those of the single clauses are. -/
theorem status?_means (valuation : Valuation) :
    (∀ clause : Clause, (∀ literal ∈ clause, literal.atom < valuation.size) →
      ∃ status, clause.status? valuation = some status ∧ status.Means valuation clause ∧
        ∀ upper : Valuation, upper.Extends valuation → status.Persists upper clause) ∧
    ∀ cnf : Cnf, (∀ clause ∈ cnf.clauses, ∀ literal ∈ clause, literal.atom < valuation.size) →
      ∃ status, cnf.status? valuation = some status ∧ status.Means valuation cnf := by
  constructor
  · intro clause inside
    obtain ⟨status, status_eq⟩ := Clause.exists_status?_of_inside inside
    exact ⟨status, status_eq, Clause.means_of_status? status_eq, fun upper extended =>
      Clause.persists_of_status? inside extended status_eq⟩
  · intro cnf inside
    obtain ⟨status, status_eq⟩ := Cnf.exists_statusFrom?_of_inside 0 inside
    exact ⟨status, status_eq, Cnf.means_of_status? status_eq⟩

/-- The clause `a|!b|!b`. -/
def repeatedLiteral : Clause := [.positive 0, .negative 1, .negative 1]

/-- Clauses of which the second is the first one that is violated where `a` is false. -/
def secondViolated : Cnf := { atomCount := 2, clauses := [repeatedLiteral, [.positive 0], []] }

theorem status?_means_repeatedLiteral :
    (∀ literal ∈ repeatedLiteral, literal.atom < 2) ∧
      Valuation.Extends #[some false, some false] #[some false, none] ∧
      (∀ clause ∈ secondViolated.clauses, ∀ literal ∈ clause, literal.atom < 2) ∧
      (∃ status, repeatedLiteral.status? #[some false, none] = some status ∧
        status.Means #[some false, none] repeatedLiteral ∧
        status.Persists #[some false, some false] repeatedLiteral) ∧
      ∃ status, secondViolated.status? #[some false, none] = some status ∧
        status.Means #[some false, none] secondViolated := by
  have clause_inside : ∀ literal ∈ repeatedLiteral, literal.atom < 2 := by decide
  have cnf_inside : ∀ clause ∈ secondViolated.clauses, ∀ literal ∈ clause, literal.atom < 2 := by
    decide
  have extended : Valuation.Extends #[some false, some false] #[some false, none] :=
    @Valuation.Extends.assign_self #[some false, none] (.negative 1) rfl
  obtain ⟨of_clause, of_cnf⟩ := status?_means #[some false, none]
  obtain ⟨status, status_eq, means, persists⟩ := of_clause repeatedLiteral clause_inside
  exact ⟨clause_inside, extended, cnf_inside,
    ⟨status, status_eq, means, persists _ extended⟩, of_cnf secondViolated cnf_inside⟩

example : repeatedLiteral.status? #[some false, none] = some (.unit (.negative 1)) := by
  decide

example : secondViolated.status? #[some false, none] = some (.violated 1) := by
  decide

end PropSat
