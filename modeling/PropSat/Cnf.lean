import PropSat.Clause

/-!
# Conjunctive normal forms

A list of clauses read as their conjunction, over a stated number of atoms.
-/

namespace PropSat

/-- A conjunction of clauses over the atoms below a count. -/
structure Cnf where
  /-- Number of atoms that a valuation has to hold. -/
  atomCount : Nat := 0
  /-- The clauses, in order. -/
  clauses : List Clause := []
  deriving DecidableEq

namespace Cnf

/-- What a partial valuation makes of a conjunction of clauses. -/
inductive Status where
  /-- Every clause is satisfied. -/
  | satisfied
  /-- The clause at this index is the first violated one. -/
  | violated (index : Nat)
  /-- No clause is violated, but some are not satisfied. -/
  | undecided
  deriving DecidableEq

/-- Status of clauses numbered from `index`, read from the left up to the first violated one; none
if a literal that is read lies outside the valuation. -/
def statusFrom? (valuation : Valuation) (index : Nat) : List Clause → Option Status
  | [] => some .satisfied
  | clause :: rest =>
      match clause.status? valuation with
      | none => none
      | some .violated => some (.violated index)
      | some .satisfied => statusFrom? valuation (index + 1) rest
      | some _ =>
          match statusFrom? valuation (index + 1) rest with
          | some .satisfied => some .undecided
          | other => other

/-- Status of the conjunction under a partial valuation. -/
def status? (cnf : Cnf) (valuation : Valuation) : Option Status :=
  statusFrom? valuation 0 cnf.clauses

/-- First literal that `pick` takes from the status of a clause, with the index of the clause, among
clauses numbered from `index`; the outer none if a literal outside the valuation is read first. -/
def firstFrom? (valuation : Valuation) (pick : Clause.Status → Option Literal) (index : Nat) :
    List Clause → Option (Option (Literal × Nat))
  | [] => some none
  | clause :: rest =>
      match clause.status? valuation with
      | none => none
      | some status =>
          match pick status with
          | some literal => some (some (literal, index))
          | none => firstFrom? valuation pick (index + 1) rest

/-- The literal forced by the first unit clause, with the index of the clause. -/
def firstForced? (cnf : Cnf) (valuation : Valuation) : Option (Option (Literal × Nat)) :=
  firstFrom? valuation Clause.Status.forced? 0 cnf.clauses

/-- The literal to decide on in the first clause that leaves a choice. -/
def firstCandidate? (cnf : Cnf) (valuation : Valuation) : Option (Option Literal) :=
  (firstFrom? valuation Clause.Status.candidate? 0 cnf.clauses).map fun found =>
    found.map Prod.fst

/-- The literal found is that of the clause at the index found with it. -/
theorem exists_getElem?_of_firstFrom? {valuation : Valuation}
    {pick : Clause.Status → Option Literal} {index found : Nat} {clauses : List Clause}
    {literal : Literal}
    (found_eq : firstFrom? valuation pick index clauses = some (some (literal, found))) :
    ∃ offset clause status, found = index + offset ∧ clauses[offset]? = some clause ∧
      clause.status? valuation = some status ∧ pick status = some literal := by
  induction clauses generalizing index with
  | nil => cases found_eq
  | cons clause rest induction =>
      rw [firstFrom?] at found_eq
      split at found_eq
      · cases found_eq
      · rename_i status status_eq
        split at found_eq
        · rename_i picked pick_eq
          cases found_eq
          exact ⟨0, clause, status, rfl, rfl, status_eq, pick_eq⟩
        · obtain ⟨offset, other, later, rfl, at_offset, later_eq, picked⟩ := induction found_eq
          exact ⟨offset + 1, other, later, by omega, at_offset, later_eq, picked⟩

theorem exists_status_of_firstFrom? {valuation : Valuation}
    {pick : Clause.Status → Option Literal} {index found : Nat} {clauses : List Clause}
    {literal : Literal}
    (found_eq : firstFrom? valuation pick index clauses = some (some (literal, found))) :
    ∃ clause ∈ clauses, ∃ status,
      clause.status? valuation = some status ∧ pick status = some literal := by
  obtain ⟨_, clause, status, _, at_offset, status_eq, pick_eq⟩ :=
    exists_getElem?_of_firstFrom? found_eq
  exact ⟨clause, List.mem_of_getElem? at_offset, status, status_eq, pick_eq⟩

theorem open_of_firstForced? {cnf : Cnf} {valuation : Valuation} {literal : Literal} {index : Nat}
    (found : cnf.firstForced? valuation = some (some (literal, index))) :
    valuation[literal.atom]? = some none := by
  obtain ⟨clause, _, status, status_eq, forced⟩ := exists_status_of_firstFrom? found
  exact Clause.open_of_status? status_eq (.inl forced)

theorem open_of_firstCandidate? {cnf : Cnf} {valuation : Valuation} {literal : Literal}
    (found : cnf.firstCandidate? valuation = some (some literal)) :
    valuation[literal.atom]? = some none := by
  obtain ⟨pair, pair_eq, literal_eq⟩ := Option.map_eq_some_iff.mp found
  obtain ⟨⟨candidate, index⟩, rfl, rfl⟩ := Option.map_eq_some_iff.mp literal_eq
  obtain ⟨clause, _, status, status_eq, named⟩ := exists_status_of_firstFrom? pair_eq
  exact Clause.open_of_status? status_eq (.inr named)

/-- Whether a model satisfies every clause; none if a literal that is read lies outside it. -/
def holdsIn? (cnf : Cnf) (model : Array Bool) : Option Bool :=
  (cnf.status? (.ofModel model)).map (· == .satisfied)

/-- Append a clause. -/
def push (cnf : Cnf) (clause : Clause) : Cnf := { cnf with clauses := cnf.clauses ++ [clause] }

/-- The first clause with an atom that is not below the atom count. -/
def outOfRange? (cnf : Cnf) : Option Nat :=
  cnf.clauses.findIdx? fun clause => !clause.within cnf.atomCount

/-- Written form with numbered atoms. -/
def text (cnf : Cnf) : String := "&".intercalate (cnf.clauses.map Clause.text)

/-- Written form with the names of a table. -/
def named (table : AtomTable) (cnf : Cnf) : String :=
  "&".intercalate (cnf.clauses.map (Clause.named table))

/-- Written form with the names of a table that holds all atoms of the clauses. -/
def named? (table : AtomTable) (cnf : Cnf) : Option String :=
  if cnf.clauses.all (Clause.within table.count) then some (cnf.named table) else none

/-- Problem line and one line for each clause. -/
def dimacs (cnf : Cnf) : String :=
  "p cnf " ++ toString cnf.atomCount ++ " " ++ toString cnf.clauses.length ++ "\n" ++
    String.join (cnf.clauses.map fun clause => clause.dimacs ++ "\n")

end Cnf
end PropSat
