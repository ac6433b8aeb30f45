import PropSat.Duration

/-!
# Settings

Each setting holds a value together with the bounds that a change of the value has to respect.
-/

namespace PropSat

/-- How an equivalence is defined by clauses. -/
inductive IffTemplate where
  /-- One clause for each row of the truth table. -/
  | direct
  /-- Clauses that chain both operands and the result to one value. -/
  | chained
  deriving DecidableEq

namespace IffTemplate

/-- Written form of a template. -/
def text : IffTemplate → String
  | direct => "Direct"
  | chained => "Chained"

/-- The template that is written in a given way. -/
def ofText? (text : String) : Option IffTemplate :=
  if text = direct.text then some direct
  else if text = chained.text then some chained
  else none

/-- Place of a template in the order of templates. -/
def rank : IffTemplate → Nat
  | direct => 0
  | chained => 1

instance : LE IffTemplate := ⟨fun left right => left.rank ≤ right.rank⟩

instance : DecidableLE IffTemplate := fun left right =>
  inferInstanceAs (Decidable (left.rank ≤ right.rank))

end IffTemplate

/-- A value that may only be changed within bounds. -/
structure Setting (α : Type) where
  /-- The least value to accept. -/
  least : α
  /-- The greatest value to accept. -/
  greatest : α
  /-- The present value. -/
  value : α

namespace Setting

variable {α : Type}

/-- Change the value if the new one is within the bounds. -/
def set? [LE α] [DecidableLE α] (setting : Setting α) (value : α) : Option (Setting α) :=
  if setting.least ≤ value ∧ value ≤ setting.greatest then some { setting with value } else none

/-- Change the value whatever the bounds. -/
def force (setting : Setting α) (value : α) : Setting α := { setting with value }

/-- Change the bounds and keep the value. -/
def bound (setting : Setting α) (least greatest : α) : Setting α :=
  { setting with least, greatest }

end Setting

/-- The greatest count that a setting can hold. -/
def greatestCount : Nat := UInt64.size - 1

/-- What can be chosen about the clauses for a formula and about a search. -/
structure Settings where
  /-- Whether a formula that is a conjunction of clauses already is kept as it is. -/
  keepClausal : Setting Bool := { least := false, greatest := true, value := true }
  /-- How equivalences are defined by clauses. -/
  iffTemplate : Setting IffTemplate :=
    { least := .direct, greatest := .chained, value := .direct }
  /-- Number of decisions after which a search gives up when it needs another. -/
  decisionLimit : Setting Nat :=
    { least := 0, greatest := greatestCount, value := greatestCount }
  /-- Time after which a search gives up. -/
  timeLimit : Setting Duration :=
    { least := .ofSeconds 0, greatest := .longest, value := .longest }

end PropSat
