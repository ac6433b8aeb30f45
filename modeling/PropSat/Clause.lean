import PropSat.AtomTable
import PropSat.Valuation

/-!
# Clauses

A clause is a list of literals read as their disjunction.  Its status under a partial valuation
tells whether it is settled and, if not, which literal to look at: the one literal that would still
satisfy it, or the first of several.  Repeated literals count once.
-/

namespace PropSat

/-- A disjunction of literals, in written order. -/
abbrev Clause := List Literal

namespace Clause

/-- What a partial valuation makes of a clause. -/
inductive Status where
  /-- Some literal is true. -/
  | satisfied
  /-- Every literal is false. -/
  | violated
  /-- One literal, however often repeated, has no value and all others are false. -/
  | unit (literal : Literal)
  /-- Several literals have no value, this one first, and all others are false. -/
  | undecided (literal : Literal)
  deriving DecidableEq

/-- Status after a literal without a value is put in front. -/
def Status.behind (literal : Literal) : Status → Status
  | .satisfied => .satisfied
  | .violated => .unit literal
  | .unit later => if later = literal then .unit literal else .undecided literal
  | .undecided _ => .undecided literal

/-- The literal that has to hold for the clause to hold, if there is one. -/
def Status.forced? : Status → Option Literal
  | .unit literal => some literal
  | _ => none

/-- The literal to decide on, if the clause leaves a choice. -/
def Status.candidate? : Status → Option Literal
  | .undecided literal => some literal
  | _ => none

/-- Status of a clause, read from the left up to the first true literal; none if a literal that is
read lies outside the valuation. -/
def status? (valuation : Valuation) : Clause → Option Status
  | [] => some .violated
  | literal :: rest =>
      match valuation.truth? literal with
      | none => none
      | some (some true) => some .satisfied
      | some (some false) => status? valuation rest
      | some none => (status? valuation rest).map (Status.behind literal)

theorem truth?_eq_open {valuation : Valuation} {literal : Literal}
    (value_eq : valuation.truth? literal = some none) :
    valuation[literal.atom]? = some none := by
  rw [Valuation.truth?, Option.map_eq_some_iff] at value_eq
  obtain ⟨value, at_atom, mapped⟩ := value_eq
  rw [at_atom, Option.map_eq_none_iff.mp mapped]

/-- A status only names literals on atoms that have no value. -/
theorem open_of_status? {valuation : Valuation} {clause : Clause} {status : Status}
    {literal : Literal} (status_eq : clause.status? valuation = some status)
    (named : status.forced? = some literal ∨ status.candidate? = some literal) :
    valuation[literal.atom]? = some none := by
  induction clause generalizing status with
  | nil =>
      cases status_eq
      simp [Status.forced?, Status.candidate?] at named
  | cons first rest induction =>
      rw [status?] at status_eq
      split at status_eq
      · cases status_eq
      · cases status_eq
        simp [Status.forced?, Status.candidate?] at named
      · exact induction status_eq named
      · rename_i value_eq
        have first_open := truth?_eq_open value_eq
        obtain ⟨later, later_eq, rfl⟩ := Option.map_eq_some_iff.mp status_eq
        have literal_eq : literal = first ∨ later.forced? = some literal := by
          revert named
          cases later <;> simp only [Status.behind, Status.forced?, Status.candidate?] <;> grind
        rcases literal_eq with rfl | later_forced
        · exact first_open
        · exact induction later_eq (.inl later_forced)

/-- Atoms of the literals, in order and with repetitions. -/
def atoms (clause : Clause) : List Nat := clause.map Literal.atom

/-- Whether all atoms are below a bound. -/
def within (bound : Nat) (clause : Clause) : Bool := clause.all fun literal => literal.atom < bound

/-- Written form with numbered atoms. -/
def text (clause : Clause) : String :=
  "(" ++ "|".intercalate (clause.map Literal.text) ++ ")"

/-- Written form with the names of a table. -/
def named (table : AtomTable) (clause : Clause) : String :=
  "(" ++ "|".intercalate (clause.map table.signedName) ++ ")"

/-- Written form with the names of a table that holds all atoms of the clause. -/
def named? (table : AtomTable) (clause : Clause) : Option String :=
  if within table.count clause then some (named table clause) else none

/-- Signed numbers separated by blanks, without an end mark. -/
def dimacsOpen (clause : Clause) : String := " ".intercalate (clause.map Literal.dimacs)

/-- Signed numbers, each followed by a blank, and a final zero. -/
def dimacs (clause : Clause) : String :=
  String.join (clause.map fun literal => literal.dimacs ++ " ") ++ "0"

end Clause
end PropSat
