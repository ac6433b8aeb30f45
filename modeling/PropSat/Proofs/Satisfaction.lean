import PropSat.Cnf

/-!
# Satisfaction

An assignment gives every atom a truth value, and a valuation admits the assignments that agree
with the atoms it decides.  The status of a clause or of a conjunction of clauses under a valuation
is described by the truth values of its literals, which fixes what all admitted assignments make of
it.
-/

namespace PropSat

/-- A truth value for every atom. -/
abbrev Assignment := Nat → Bool

/-- The assignment that a model stands for; atoms outside the model count as true. -/
def Assignment.ofModel (model : Array Bool) : Assignment := fun atom => model.getD atom true

/-- Whether an assignment makes a literal true. -/
def Literal.Holds (assignment : Assignment) (literal : Literal) : Prop :=
  assignment literal.atom = literal.polarity

theorem Literal.holds_negate {assignment : Assignment} {literal : Literal} :
    literal.negate.Holds assignment ↔ ¬ literal.Holds assignment := by
  simp [Holds, negate, Bool.eq_not]

/-- Whether an assignment makes some literal of a clause true. -/
def Clause.Holds (assignment : Assignment) (clause : Clause) : Prop :=
  ∃ literal ∈ clause, literal.Holds assignment

/-- Whether an assignment satisfies every clause. -/
def Cnf.Holds (assignment : Assignment) (cnf : Cnf) : Prop :=
  ∀ clause ∈ cnf.clauses, clause.Holds assignment

/-- Whether every atom of the clauses is below the atom count. -/
def Cnf.InRange (cnf : Cnf) : Prop :=
  ∀ clause ∈ cnf.clauses, ∀ literal ∈ clause, literal.atom < cnf.atomCount

theorem Cnf.InRange.inside {cnf : Cnf} {count : Nat} (in_range : cnf.InRange)
    (count_eq : count = cnf.atomCount) :
    ∀ clause ∈ cnf.clauses, ∀ literal ∈ clause, literal.atom < count :=
  fun clause member literal occurs => count_eq ▸ in_range clause member literal occurs

theorem Cnf.outOfRange?_eq_none_iff {cnf : Cnf} : cnf.outOfRange? = none ↔ cnf.InRange := by
  simp [outOfRange?, InRange, Clause.within, List.findIdx?_eq_none_iff]

namespace Valuation

/-- Whether an assignment gives every decided atom its value. -/
def Admits (valuation : Valuation) (assignment : Assignment) : Prop :=
  ∀ atom value, valuation[atom]? = some (some value) → assignment atom = value

theorem truth?_eq_some_some_iff {valuation : Valuation} {literal : Literal} {value : Bool} :
    valuation.truth? literal = some (some value) ↔
      valuation[literal.atom]? = some (some (value == literal.polarity)) := by
  simp only [truth?, Option.map_eq_some_iff, Option.map_eq_some_iff]
  constructor
  · rintro ⟨_, at_atom, atom_value, rfl, rfl⟩
    rw [at_atom]
    cases atom_value <;> cases literal.polarity <;> rfl
  · intro at_atom
    refine ⟨_, at_atom, _, rfl, ?_⟩
    cases value <;> cases literal.polarity <;> rfl

theorem truth?_eq_some_none_iff {valuation : Valuation} {literal : Literal} :
    valuation.truth? literal = some none ↔ valuation[literal.atom]? = some none := by
  simp [truth?]

theorem truth?_eq_none_iff {valuation : Valuation} {literal : Literal} :
    valuation.truth? literal = none ↔ valuation.size ≤ literal.atom := by
  simp [truth?]

/-- Every admitted assignment gives a literal the truth value that it has already. -/
theorem Admits.holds_iff {valuation : Valuation} {assignment : Assignment} {literal : Literal}
    {value : Bool} (admitted : valuation.Admits assignment)
    (truth_eq : valuation.truth? literal = some (some value)) :
    literal.Holds assignment ↔ value = true := by
  have at_atom := admitted _ _ (truth?_eq_some_some_iff.mp truth_eq)
  rw [Literal.Holds, at_atom]
  cases value <;> cases literal.polarity <;> simp

/-- Deciding an open atom keeps the admitted assignments that make the literal true. -/
theorem admits_assign_iff {valuation : Valuation} {assignment : Assignment} {literal : Literal}
    (open_atom : valuation[literal.atom]? = some none) :
    (valuation.assign literal).Admits assignment ↔
      valuation.Admits assignment ∧ literal.Holds assignment := by
  constructor
  · intro admitted
    refine ⟨?_, ?_⟩
    · intro atom value at_atom
      apply admitted
      rw [getElem?_assign, if_neg]
      · exact at_atom
      · rintro rfl
        rw [open_atom] at at_atom
        cases at_atom
    · apply admitted
      rw [getElem?_assign, if_pos rfl, open_atom]
      rfl
  · rintro ⟨admitted, holds⟩ atom value at_atom
    rw [getElem?_assign] at at_atom
    split at at_atom
    · rename_i same
      subst same
      rw [open_atom] at at_atom
      cases at_atom
      exact holds
    · exact admitted atom value at_atom

theorem ofModel_admits {model : Array Bool} : (ofModel model).Admits (.ofModel model) := by
  intro atom value at_atom
  simp only [ofModel, Array.getElem?_map, Option.map_eq_some_iff, Option.some.injEq] at at_atom
  obtain ⟨_, at_model, rfl⟩ := at_atom
  simp [Assignment.ofModel, at_model]

/-- Whether a valuation of the same atoms keeps all values of another one. -/
structure Extends (upper lower : Valuation) : Prop where
  /-- The valuations hold the same atoms. -/
  size_eq : upper.size = lower.size
  /-- An atom that has a value keeps it. -/
  keeps (atom : Nat) (value : Bool) :
    lower[atom]? = some (some value) → upper[atom]? = some (some value)

namespace Extends

variable {upper middle lower : Valuation} {literal : Literal}

theorem refl (valuation : Valuation) : valuation.Extends valuation :=
  ⟨rfl, fun _ _ at_atom => at_atom⟩

theorem trans (above : upper.Extends middle) (below : middle.Extends lower) :
    upper.Extends lower where
  size_eq := above.size_eq.trans below.size_eq
  keeps atom value at_atom := above.keeps atom value (below.keeps atom value at_atom)

theorem truth?_eq {value : Bool} (extends_lower : upper.Extends lower)
    (truth_eq : lower.truth? literal = some (some value)) :
    upper.truth? literal = some (some value) :=
  truth?_eq_some_some_iff.mpr (extends_lower.keeps _ _ (truth?_eq_some_some_iff.mp truth_eq))

theorem assign_self (literal_open : lower[literal.atom]? = some none) :
    (lower.assign literal).Extends lower where
  size_eq := Array.size_setIfInBounds
  keeps atom value at_atom := by
    rw [getElem?_assign, if_neg]
    · exact at_atom
    · rintro rfl
      cases literal_open.symm.trans at_atom

/-- A literal that is true above may be made true below. -/
theorem assign (extends_lower : upper.Extends lower)
    (true_above : upper.truth? literal = some (some true)) :
    upper.Extends (lower.assign literal) where
  size_eq := extends_lower.size_eq.trans Array.size_setIfInBounds.symm
  keeps atom value at_atom := by
    rw [getElem?_assign] at at_atom
    split at at_atom
    · rename_i same
      subst same
      obtain ⟨_, _, value_eq⟩ := Option.map_eq_some_iff.mp at_atom
      rw [← Option.some.inj value_eq, truth?_eq_some_some_iff.mp true_above]
      cases literal.polarity <;> rfl
    · exact extends_lower.keeps atom value at_atom

theorem antisymm (above : upper.Extends lower) (below : lower.Extends upper) : upper = lower := by
  apply Array.ext above.size_eq
  intro atom inside_upper inside_lower
  have keeps_up := above.keeps atom
  have keeps_down := below.keeps atom
  simp only [Array.getElem?_eq_getElem inside_upper, Array.getElem?_eq_getElem inside_lower,
    Option.some.injEq] at keeps_up keeps_down
  cases upper_eq : upper[atom] with
  | some value => exact (keeps_down value upper_eq).symm
  | none =>
      cases lower_eq : lower[atom] with
      | none => rfl
      | some value => exact upper_eq.symm.trans (keeps_up value lower_eq)

end Extends

/-- A model completes a valuation if it holds the same atoms and keeps all values. -/
def CompletedBy (valuation : Valuation) (model : Array Bool) : Prop :=
  model.size = valuation.size ∧ valuation.Admits (.ofModel model)

theorem completedBy_toModel (valuation : Valuation) : valuation.CompletedBy valuation.toModel := by
  refine ⟨by simp [toModel], ?_⟩
  intro atom value at_atom
  simp [Assignment.ofModel, toModel, at_atom]

end Valuation

namespace Clause

/-- What a status says about the literals of a clause. -/
def Status.Describes (valuation : Valuation) (clause : Clause) : Status → Prop
  | .satisfied => ∃ literal ∈ clause, valuation.truth? literal = some (some true)
  | .violated => ∀ literal ∈ clause, valuation.truth? literal = some (some false)
  | .unit literal =>
      literal ∈ clause ∧ valuation.truth? literal = some none ∧
        ∀ other ∈ clause, other = literal ∨ valuation.truth? other = some (some false)
  | .undecided literal =>
      literal ∈ clause ∧ valuation.truth? literal = some none ∧
        (∃ other ∈ clause, other ≠ literal ∧ valuation.truth? other = some none) ∧
        ∀ other ∈ clause,
          valuation.truth? other = some none ∨ valuation.truth? other = some (some false)

/-- An open literal in front of a clause that is described. -/
theorem Status.Describes.behind {valuation : Valuation} {clause : Clause} {status : Status}
    {literal : Literal} (described : status.Describes valuation clause)
    (literal_open : valuation.truth? literal = some none) :
    (status.behind literal).Describes valuation (literal :: clause) := by
  cases status with
  | satisfied =>
      obtain ⟨witness, member, truth_eq⟩ := described
      exact ⟨witness, List.mem_cons_of_mem literal member, truth_eq⟩
  | violated =>
      refine ⟨List.mem_cons_self, literal_open, ?_⟩
      intro other member
      rcases List.mem_cons.mp member with rfl | later
      · exact .inl rfl
      · exact .inr (described other later)
  | unit forced =>
      obtain ⟨member, forced_open, others⟩ := described
      rw [Status.behind]
      split
      · rename_i same
        subst same
        refine ⟨List.mem_cons_self, literal_open, ?_⟩
        intro other other_mem
        rcases List.mem_cons.mp other_mem with rfl | later
        · exact .inl rfl
        · exact others other later
      · rename_i different
        refine ⟨List.mem_cons_self, literal_open,
          ⟨forced, List.mem_cons_of_mem literal member, different, forced_open⟩, ?_⟩
        intro other other_mem
        rcases List.mem_cons.mp other_mem with rfl | later
        · exact .inl literal_open
        · rcases others other later with rfl | falsified
          · exact .inl forced_open
          · exact .inr falsified
  | undecided first =>
      obtain ⟨member, first_open, ⟨second, second_mem, different, second_open⟩, others⟩ := described
      refine ⟨List.mem_cons_self, literal_open, ?_, ?_⟩
      · by_cases same : first = literal
        · exact ⟨second, List.mem_cons_of_mem literal second_mem, same ▸ different, second_open⟩
        · exact ⟨first, List.mem_cons_of_mem literal member, same, first_open⟩
      · intro other other_mem
        rcases List.mem_cons.mp other_mem with rfl | later
        · exact .inl literal_open
        · exact others other later

/-- A false literal in front does not change what is said about a clause. -/
theorem Status.Describes.cons_false {valuation : Valuation} {clause : Clause} {status : Status}
    {literal : Literal} (described : status.Describes valuation clause)
    (falsified : valuation.truth? literal = some (some false)) :
    status.Describes valuation (literal :: clause) := by
  cases status with
  | satisfied =>
      obtain ⟨witness, member, truth_eq⟩ := described
      exact ⟨witness, List.mem_cons_of_mem literal member, truth_eq⟩
  | violated => exact List.forall_mem_cons.mpr ⟨falsified, described⟩
  | unit forced =>
      obtain ⟨member, forced_open, others⟩ := described
      exact ⟨List.mem_cons_of_mem literal member, forced_open,
        List.forall_mem_cons.mpr ⟨.inr falsified, others⟩⟩
  | undecided first =>
      obtain ⟨member, first_open, ⟨second, second_mem, different⟩, others⟩ := described
      exact ⟨List.mem_cons_of_mem literal member, first_open,
        ⟨second, List.mem_cons_of_mem literal second_mem, different⟩,
        List.forall_mem_cons.mpr ⟨.inr falsified, others⟩⟩

theorem describes_of_status? {valuation : Valuation} {clause : Clause} {status : Status}
    (status_eq : clause.status? valuation = some status) : status.Describes valuation clause := by
  induction clause generalizing status with
  | nil =>
      cases status_eq
      intro literal member
      cases member
  | cons literal rest induction =>
      rw [status?] at status_eq
      split at status_eq
      · cases status_eq
      · rename_i satisfied
        cases status_eq
        exact ⟨literal, List.mem_cons_self, satisfied⟩
      · rename_i falsified
        exact (induction status_eq).cons_false falsified
      · rename_i literal_open
        obtain ⟨later, later_eq, rfl⟩ := Option.map_eq_some_iff.mp status_eq
        exact (induction later_eq).behind literal_open

theorem exists_status?_of_inside {valuation : Valuation} {clause : Clause}
    (inside : ∀ literal ∈ clause, literal.atom < valuation.size) :
    ∃ status, clause.status? valuation = some status := by
  induction clause with
  | nil => exact ⟨.violated, rfl⟩
  | cons literal rest induction =>
      obtain ⟨first_inside, rest_inside⟩ := List.forall_mem_cons.mp inside
      obtain ⟨status, status_eq⟩ := induction rest_inside
      rw [status?]
      split
      · rename_i outside
        have beyond := Valuation.truth?_eq_none_iff.mp outside
        omega
      · exact ⟨.satisfied, rfl⟩
      · exact ⟨status, status_eq⟩
      · exact ⟨status.behind literal, by rw [status_eq]; rfl⟩

/-- Whether a clause forces nothing: some literal is true, or two have no value. -/
def Rests (valuation : Valuation) (clause : Clause) : Prop :=
  (∃ literal ∈ clause, valuation.truth? literal = some (some true)) ∨
    ∃ first ∈ clause, ∃ second ∈ clause, second ≠ first ∧
      valuation.truth? first = some none ∧ valuation.truth? second = some none

section Rests

variable {upper lower : Valuation} {clause : Clause}

/-- Below a valuation on which it rests, a clause is not violated. -/
theorem Rests.not_violated (rests : clause.Rests upper) (extended : upper.Extends lower) :
    clause.status? lower ≠ some .violated := by
  intro violated
  have all_false := describes_of_status? violated
  rcases rests with ⟨literal, member, truth_eq⟩ | ⟨literal, member, _, _, _, truth_eq, _⟩
  all_goals cases truth_eq.symm.trans (extended.truth?_eq (all_false literal member))

/-- Below a valuation on which it rests, a clause is unit only with a literal that is true above. -/
theorem Rests.true_of_unit (rests : clause.Rests upper) (extended : upper.Extends lower)
    {forced : Literal} (unit : clause.status? lower = some (.unit forced)) :
    upper.truth? forced = some (some true) := by
  obtain ⟨_, _, others⟩ := describes_of_status? unit
  -- Only the forced literal can be other than false above.
  have eq_forced : ∀ literal ∈ clause, upper.truth? literal ≠ some (some false) →
      literal = forced := fun literal member not_false =>
    (others literal member).resolve_right fun false_below =>
      not_false (extended.truth?_eq false_below)
  rcases rests with ⟨literal, member, truth_eq⟩ | ⟨first, first_mem, second, second_mem, ne, opens⟩
  · rw [← eq_forced literal member (by simp [truth_eq]), truth_eq]
  · have first_eq := eq_forced first first_mem (by simp [opens.1])
    have second_eq := eq_forced second second_mem (by simp [opens.2])
    exact (ne (second_eq.trans first_eq.symm)).elim

/-- A clause that is read rests if it is neither violated nor unit. -/
theorem rests_iff_of_status? {status : Status} (status_eq : clause.status? upper = some status) :
    clause.Rests upper ↔ status = .satisfied ∨ ∃ choice, status = .undecided choice := by
  have described := describes_of_status? status_eq
  cases status with
  | satisfied => exact iff_of_true (.inl described) (.inl rfl)
  | undecided first =>
      obtain ⟨member, first_open, ⟨second, second_mem, different, second_open⟩, _⟩ := described
      exact iff_of_true
        (.inr ⟨first, member, second, second_mem, different, first_open, second_open⟩)
        (.inr ⟨first, rfl⟩)
  | violated =>
      exact iff_of_false (fun rests => rests.not_violated (.refl upper) status_eq) (by simp)
  | unit forced =>
      refine iff_of_false (fun rests => ?_) (by simp)
      cases (rests.true_of_unit (.refl upper) status_eq).symm.trans described.2.1

end Rests

section Meaning

variable {valuation : Valuation} {clause : Clause} {assignment : Assignment}

theorem holds_of_satisfied (satisfied : clause.status? valuation = some .satisfied)
    (admitted : valuation.Admits assignment) : clause.Holds assignment := by
  obtain ⟨literal, member, truth_eq⟩ := describes_of_status? satisfied
  exact ⟨literal, member, (admitted.holds_iff truth_eq).mpr rfl⟩

theorem not_holds_of_violated (violated : clause.status? valuation = some .violated)
    (admitted : valuation.Admits assignment) : ¬ clause.Holds assignment := by
  rintro ⟨literal, member, holds⟩
  have falsified := describes_of_status? violated literal member
  have impossible := (admitted.holds_iff falsified).mp holds
  cases impossible

theorem holds_iff_of_unit {literal : Literal}
    (unit : clause.status? valuation = some (.unit literal))
    (admitted : valuation.Admits assignment) :
    clause.Holds assignment ↔ literal.Holds assignment := by
  obtain ⟨member, _, others⟩ := describes_of_status? unit
  constructor
  · rintro ⟨other, other_mem, holds⟩
    rcases others other other_mem with rfl | falsified
    · exact holds
    · have impossible := (admitted.holds_iff falsified).mp holds
      cases impossible
  · exact fun holds => ⟨literal, member, holds⟩

end Meaning

end Clause

namespace Cnf

/-- What a status says about clauses that are numbered from an index. -/
def Status.Describes (valuation : Valuation) (index : Nat) (clauses : List Clause) :
    Status → Prop
  | .satisfied => ∀ clause ∈ clauses, clause.status? valuation = some .satisfied
  | .violated found =>
      ∃ before clause after, clauses = before ++ clause :: after ∧ found = index + before.length ∧
        clause.status? valuation = some .violated ∧
        ∀ earlier ∈ before, earlier.status? valuation ≠ some .violated
  | .undecided =>
      (∃ clause ∈ clauses, ∃ literal, clause.status? valuation = some (.unit literal) ∨
        clause.status? valuation = some (.undecided literal)) ∧
        ∀ clause ∈ clauses, clause.status? valuation ≠ some .violated

/-- A violated clause stays the first one behind a clause that is not violated. -/
theorem Status.Describes.cons_violated {valuation : Valuation} {index found : Nat}
    {clause : Clause} {rest : List Clause}
    (described : Status.Describes valuation (index + 1) rest (.violated found))
    (kept : clause.status? valuation ≠ some .violated) :
    Status.Describes valuation index (clause :: rest) (.violated found) := by
  obtain ⟨before, culprit, after, rfl, rfl, violated, earlier⟩ := described
  refine ⟨clause :: before, culprit, after, rfl, ?_, violated, ?_⟩
  · rw [List.length_cons]
    omega
  · exact List.forall_mem_cons.mpr ⟨kept, earlier⟩

theorem describes_of_statusFrom? {valuation : Valuation} {index : Nat} {clauses : List Clause}
    {status : Status} (status_eq : statusFrom? valuation index clauses = some status) :
    status.Describes valuation index clauses := by
  induction clauses generalizing index status with
  | nil =>
      cases status_eq
      intro clause member
      cases member
  | cons clause rest induction =>
      rw [statusFrom?] at status_eq
      split at status_eq
      · cases status_eq
      · rename_i violated
        cases status_eq
        exact ⟨[], clause, rest, rfl, rfl, violated, fun _ member => by cases member⟩
      · rename_i satisfied
        have described := induction status_eq
        have kept : clause.status? valuation ≠ some .violated := by simp [satisfied]
        cases status with
        | satisfied => exact List.forall_mem_cons.mpr ⟨satisfied, described⟩
        | violated found => exact described.cons_violated kept
        | undecided =>
            obtain ⟨⟨other, member, choice⟩, others⟩ := described
            exact ⟨⟨other, List.mem_cons_of_mem clause member, choice⟩,
              List.forall_mem_cons.mpr ⟨kept, others⟩⟩
      · rename_i choice not_violated not_satisfied clause_eq
        have kept : clause.status? valuation ≠ some .violated := by
          rw [clause_eq]
          exact fun same => not_violated (Option.some.inj same)
        have chooses : ∃ literal, clause.status? valuation = some (.unit literal) ∨
            clause.status? valuation = some (.undecided literal) := by
          cases choice with
          | satisfied => exact (not_satisfied rfl).elim
          | violated => exact (not_violated rfl).elim
          | unit literal => exact ⟨literal, .inl clause_eq⟩
          | undecided literal => exact ⟨literal, .inr clause_eq⟩
        split at status_eq
        · rename_i rest_eq
          cases status_eq
          refine ⟨⟨clause, List.mem_cons_self, chooses⟩, List.forall_mem_cons.mpr ⟨kept, ?_⟩⟩
          intro other member
          simp [induction rest_eq other member]
        · rename_i rest_not_satisfied
          have described := induction status_eq
          cases status with
          | satisfied => exact (rest_not_satisfied status_eq).elim
          | violated found => exact described.cons_violated kept
          | undecided =>
              exact ⟨⟨clause, List.mem_cons_self, chooses⟩,
                List.forall_mem_cons.mpr ⟨kept, described.2⟩⟩

theorem exists_statusFrom?_of_inside {valuation : Valuation} {clauses : List Clause} (index : Nat)
    (inside : ∀ clause ∈ clauses, ∀ literal ∈ clause, literal.atom < valuation.size) :
    ∃ status, statusFrom? valuation index clauses = some status := by
  induction clauses generalizing index with
  | nil => exact ⟨.satisfied, rfl⟩
  | cons clause rest induction =>
      obtain ⟨clause_inside, rest_inside⟩ := List.forall_mem_cons.mp inside
      obtain ⟨status, status_eq⟩ := Clause.exists_status?_of_inside clause_inside
      obtain ⟨later, later_eq⟩ := induction (index + 1) rest_inside
      rw [statusFrom?, status_eq, later_eq]
      cases status with
      | violated => exact ⟨_, rfl⟩
      | satisfied => exact ⟨_, rfl⟩
      | unit literal | undecided literal => cases later <;> exact ⟨_, rfl⟩

/-- What a scan for a literal finds, and that it finds none only if no clause has one. -/
theorem pick_eq_none_of_firstFrom? {valuation : Valuation}
    {pick : Clause.Status → Option Literal} {index : Nat} {clauses : List Clause}
    (found_eq : firstFrom? valuation pick index clauses = some none) :
    ∀ clause ∈ clauses, ∃ status, clause.status? valuation = some status ∧ pick status = none := by
  induction clauses generalizing index with
  | nil => simp
  | cons clause rest induction =>
      rw [firstFrom?] at found_eq
      split at found_eq
      · cases found_eq
      · rename_i status status_eq
        split at found_eq
        · cases found_eq
        · rename_i picked
          exact List.forall_mem_cons.mpr ⟨⟨status, status_eq, picked⟩, induction found_eq⟩

/-- Whether no clause is violated or unit. -/
def Rests (valuation : Valuation) (cnf : Cnf) : Prop :=
  ∀ clause ∈ cnf.clauses, clause.Rests valuation

/-- Clauses rest if none is found violated and none unit. -/
theorem rests_of_status? {cnf : Cnf} {valuation : Valuation} {status : Status}
    (status_eq : cnf.status? valuation = some status)
    (not_violated : ∀ index, status ≠ .violated index)
    (not_forced : cnf.firstForced? valuation = some none) : cnf.Rests valuation := by
  intro clause member
  obtain ⟨own, own_eq, not_unit⟩ := pick_eq_none_of_firstFrom? not_forced clause member
  rw [Clause.rests_iff_of_status? own_eq]
  cases own with
  | satisfied => exact .inl rfl
  | undecided choice => exact .inr ⟨choice, rfl⟩
  | unit literal => cases not_unit
  | violated =>
      have described := describes_of_statusFrom? status_eq
      cases status with
      | satisfied => cases own_eq.symm.trans (described clause member)
      | violated index => exact (not_violated index rfl).elim
      | undecided => exact (described.2 clause member own_eq).elim

section Satisfied

variable {valuation : Valuation} {clauses : List Clause}

theorem statusFrom?_of_satisfied
    (satisfied : ∀ clause ∈ clauses, clause.status? valuation = some .satisfied) (index : Nat) :
    statusFrom? valuation index clauses = some .satisfied := by
  induction clauses generalizing index with
  | nil => rfl
  | cons clause rest induction =>
      obtain ⟨first, others⟩ := List.forall_mem_cons.mp satisfied
      rw [statusFrom?, first]
      exact induction others (index + 1)

/-- Satisfied clauses have no literal to be found. -/
theorem firstFrom?_of_satisfied
    (satisfied : ∀ clause ∈ clauses, clause.status? valuation = some .satisfied)
    {pick : Clause.Status → Option Literal} (unpicked : pick .satisfied = none) (index : Nat) :
    firstFrom? valuation pick index clauses = some none := by
  induction clauses generalizing index with
  | nil => rfl
  | cons clause rest induction =>
      obtain ⟨first, others⟩ := List.forall_mem_cons.mp satisfied
      rw [firstFrom?, first]
      simp only [unpicked]
      exact induction others (index + 1)

end Satisfied

theorem exists_undecided_of_firstCandidate? {cnf : Cnf} {valuation : Valuation} {literal : Literal}
    (found : cnf.firstCandidate? valuation = some (some literal)) :
    ∃ clause ∈ cnf.clauses, clause.status? valuation = some (.undecided literal) := by
  obtain ⟨pair, pair_eq, literal_eq⟩ := Option.map_eq_some_iff.mp found
  obtain ⟨⟨candidate, index⟩, rfl, rfl⟩ := Option.map_eq_some_iff.mp literal_eq
  obtain ⟨clause, member, status, status_eq, picked⟩ := exists_status_of_firstFrom? pair_eq
  cases status with
  | satisfied | violated | unit => cases picked
  | undecided first =>
      cases picked
      exact ⟨clause, member, status_eq⟩

theorem exists_firstFrom?_of_inside {valuation : Valuation}
    (pick : Clause.Status → Option Literal) {clauses : List Clause} (index : Nat)
    (inside : ∀ clause ∈ clauses, ∀ literal ∈ clause, literal.atom < valuation.size) :
    ∃ found, firstFrom? valuation pick index clauses = some found := by
  induction clauses generalizing index with
  | nil => exact ⟨none, rfl⟩
  | cons clause rest induction =>
      obtain ⟨clause_inside, rest_inside⟩ := List.forall_mem_cons.mp inside
      obtain ⟨status, status_eq⟩ := Clause.exists_status?_of_inside clause_inside
      simp only [firstFrom?, status_eq]
      split
      · exact ⟨_, rfl⟩
      · exact induction (index + 1) rest_inside

section Meaning

variable {cnf : Cnf} {valuation : Valuation} {assignment : Assignment}

theorem holds_of_satisfied (satisfied : cnf.status? valuation = some .satisfied)
    (admitted : valuation.Admits assignment) : cnf.Holds assignment := by
  intro clause member
  exact Clause.holds_of_satisfied (describes_of_statusFrom? satisfied clause member) admitted

theorem not_holds_of_violated {index : Nat}
    (violated : cnf.status? valuation = some (.violated index))
    (admitted : valuation.Admits assignment) : ¬ cnf.Holds assignment := by
  obtain ⟨before, clause, after, clauses_eq, _, clause_violated, _⟩ :=
    describes_of_statusFrom? violated
  intro holds
  have member : clause ∈ cnf.clauses := by simp [clauses_eq]
  exact Clause.not_holds_of_violated clause_violated admitted (holds clause member)

/-- On a model, the program's check decides satisfaction. -/
theorem holdsIn?_eq (in_range : cnf.InRange) {model : Array Bool}
    (size_eq : model.size = cnf.atomCount) :
    ∃ answer, cnf.holdsIn? model = some answer ∧
      (answer = true ↔ cnf.Holds (.ofModel model)) := by
  have model_size : (Valuation.ofModel model).size = cnf.atomCount := by
    simp [Valuation.ofModel, size_eq]
  obtain ⟨status, status_eq⟩ := exists_statusFrom?_of_inside 0 (in_range.inside model_size)
  refine ⟨status == .satisfied, by rw [holdsIn?, status?, status_eq]; rfl, ?_⟩
  have described := describes_of_statusFrom? status_eq
  cases status with
  | satisfied => simp [holds_of_satisfied status_eq Valuation.ofModel_admits]
  | violated index => simp [not_holds_of_violated status_eq Valuation.ofModel_admits]
  | undecided =>
      -- Every atom of a model is decided, so no clause can leave a choice.
      obtain ⟨⟨clause, member, literal, choice⟩, _⟩ := described
      have literal_open : (Valuation.ofModel model).truth? literal = some none := by
        rcases choice with unit | undecided
        · exact (Clause.describes_of_status? unit).2.1
        · exact (Clause.describes_of_status? undecided).2.1
      simp [Valuation.truth?_eq_some_none_iff, Valuation.ofModel] at literal_open

end Meaning

end Cnf
end PropSat
