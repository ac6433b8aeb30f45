import Mathlib.Logic.Equiv.Defs
import PropSat.Proofs.Satisfaction

/-!
# Signed renamings

A signed renaming permutes the atoms below a count and exchanges the two literals on some of them.
What a partial valuation makes of clauses, and which literals it picks from them, is renamed along
with the valuation and the clauses.
-/

namespace PropSat

namespace Clause

/-- The status with its literal replaced. -/
def Status.map (replace : Literal → Literal) : Status → Status
  | .satisfied => .satisfied
  | .violated => .violated
  | .unit literal => .unit (replace literal)
  | .undecided literal => .undecided (replace literal)

theorem Status.forced?_map (replace : Literal → Literal) (status : Status) :
    (status.map replace).forced? = status.forced?.map replace := by
  cases status <;> rfl

theorem Status.candidate?_map (replace : Literal → Literal) (status : Status) :
    (status.map replace).candidate? = status.candidate?.map replace := by
  cases status <;> rfl

theorem Status.behind_map {replace : Literal → Literal} (injective : replace.Injective)
    (literal : Literal) (status : Status) :
    (status.map replace).behind (replace literal) = (status.behind literal).map replace := by
  cases status with
  | satisfied | violated | undecided => rfl
  | unit later =>
      simp only [map, behind, injective.eq_iff]
      split <;> rfl

end Clause

section Replacement

variable {replace : Literal → Literal} {left right : Valuation}

/-- Replacing literals by others with the same truth values replaces them in the status. -/
theorem Clause.status?_map (injective : replace.Injective)
    (same : ∀ literal, right.truth? (replace literal) = left.truth? literal) (clause : Clause) :
    Clause.status? right (clause.map replace) =
      (clause.status? left).map (Status.map replace) := by
  induction clause with
  | nil => rfl
  | cons first rest induction =>
      rw [List.map_cons, status?, status?, same, induction]
      cases left.truth? first with
      | none => rfl
      | some value =>
          cases value with
          | some value => cases value <;> rfl
          | none =>
              simp only [Option.map_map]
              exact congrArg (Option.map · _)
                (funext fun status => Status.behind_map injective first status)

theorem Cnf.statusFrom?_map (injective : replace.Injective)
    (same : ∀ literal, right.truth? (replace literal) = left.truth? literal) (index : Nat)
    (clauses : List Clause) :
    statusFrom? right index (clauses.map (List.map replace)) = statusFrom? left index clauses := by
  induction clauses generalizing index with
  | nil => rfl
  | cons clause rest induction =>
      rw [List.map_cons, statusFrom?, statusFrom?, Clause.status?_map injective same, induction]
      cases clause.status? left with
      | none => rfl
      | some status => cases status <;> rfl

theorem Cnf.firstFrom?_map {pick : Clause.Status → Option Literal} (injective : replace.Injective)
    (same : ∀ literal, right.truth? (replace literal) = left.truth? literal)
    (pick_map : ∀ status, pick (status.map replace) = (pick status).map replace) (index : Nat)
    (clauses : List Clause) :
    firstFrom? right pick index (clauses.map (List.map replace)) =
      (firstFrom? left pick index clauses).map (Option.map (Prod.map replace id)) := by
  induction clauses generalizing index with
  | nil => rfl
  | cons clause rest induction =>
      rw [List.map_cons, firstFrom?, firstFrom?, Clause.status?_map injective same, induction]
      cases clause.status? left with
      | none => rfl
      | some status =>
          simp only [Option.map_some, pick_map]
          cases pick status <;> rfl

end Replacement

/-- A permutation of the atoms below a count, and the atoms on which the two literals are
exchanged. -/
structure SignedRenaming (count : Nat) where
  /-- The permutation of the atoms. -/
  atoms : Equiv.Perm (Fin count)
  /-- Whether the two literals on an atom are exchanged. -/
  swapped : Nat → Bool

namespace SignedRenaming

variable {count : Nat} (mirror : SignedRenaming count)

/-- The name of an atom; an atom that is not below the count keeps its own. -/
def atomOf (atom : Nat) : Nat :=
  if inside : atom < count then mirror.atoms ⟨atom, inside⟩ else atom

theorem atomOf_lt_iff (atom : Nat) : mirror.atomOf atom < count ↔ atom < count := by
  rw [atomOf]
  split
  · rename_i inside
    exact iff_of_true (mirror.atoms ⟨atom, inside⟩).isLt inside
  · exact Iff.rfl

theorem atomOf_injective : mirror.atomOf.Injective := by
  intro first second same
  have both_inside : first < count ↔ second < count := by
    rw [← mirror.atomOf_lt_iff, same, mirror.atomOf_lt_iff]
  by_cases inside : first < count
  · rw [atomOf, atomOf, dif_pos inside, dif_pos (both_inside.mp inside)] at same
    exact congrArg Fin.val (mirror.atoms.injective (Fin.ext same))
  · rwa [atomOf, atomOf, dif_neg inside, dif_neg (both_inside.not.mp inside)] at same

/-- The literal that a literal is renamed to. -/
def literal (literal : Literal) : Literal where
  atom := mirror.atomOf literal.atom
  polarity := literal.polarity ^^ mirror.swapped literal.atom

theorem literal_negate (literal : Literal) :
    mirror.literal literal.negate = (mirror.literal literal).negate := by
  simp [SignedRenaming.literal, Literal.negate]

theorem literal_injective : mirror.literal.Injective := by
  rintro ⟨first, firstPolarity⟩ ⟨second, secondPolarity⟩ same
  simp only [literal, Literal.mk.injEq] at same
  obtain ⟨same_name, same_polarity⟩ := same
  obtain rfl := mirror.atomOf_injective same_name
  simpa using same_polarity

/-- The clauses with every literal renamed. -/
def cnf (cnf : Cnf) : Cnf := { cnf with clauses := cnf.clauses.map (List.map mirror.literal) }

theorem inRange_cnf {cnf : Cnf} (count_eq : cnf.atomCount = count) (in_range : cnf.InRange) :
    (mirror.cnf cnf).InRange := by
  intro renamed member name occurs
  obtain ⟨clause, clause_member, rfl⟩ := List.mem_map.mp member
  obtain ⟨literal, literal_occurs, rfl⟩ := List.mem_map.mp occurs
  have inside := in_range clause clause_member literal literal_occurs
  rw [count_eq] at inside
  exact count_eq ▸ (mirror.atomOf_lt_iff _).mpr inside

/-- Whether a valuation over the atoms below the count is another one renamed. -/
structure MapsValuation (left right : Valuation) : Prop where
  /-- The first valuation is over the atoms below the count. -/
  left_size : left.size = count
  /-- So is the second. -/
  right_size : right.size = count
  /-- Every value is taken over by the name of its atom, negated if its literals are exchanged. -/
  value_eq (atom : Nat) :
    right[mirror.atomOf atom]? =
      left[atom]?.map (Option.map fun value => value ^^ mirror.swapped atom)

namespace MapsValuation

variable {mirror} {left right : Valuation}

theorem blank : mirror.MapsValuation (.blank count) (.blank count) where
  left_size := by simp [Valuation.blank]
  right_size := by simp [Valuation.blank]
  value_eq atom := by
    simp only [Valuation.blank, Array.getElem?_replicate, mirror.atomOf_lt_iff]
    split <;> rfl

theorem truth?_eq (maps : mirror.MapsValuation left right) (literal : Literal) :
    right.truth? (mirror.literal literal) = left.truth? literal := by
  rw [Valuation.truth?, Valuation.truth?, SignedRenaming.literal, maps.value_eq, Option.map_map]
  refine congrArg (Option.map · _) (funext fun value => ?_)
  cases value with
  | none => rfl
  | some value =>
      cases value <;> cases literal.polarity <;> cases mirror.swapped literal.atom <;> rfl

theorem assign (maps : mirror.MapsValuation left right) (literal : Literal) :
    mirror.MapsValuation (left.assign literal) (right.assign (mirror.literal literal)) where
  left_size := by rw [Valuation.assign, Array.size_setIfInBounds, maps.left_size]
  right_size := by rw [Valuation.assign, Array.size_setIfInBounds, maps.right_size]
  value_eq atom := by
    rw [Valuation.getElem?_assign, Valuation.getElem?_assign, maps.value_eq]
    simp only [SignedRenaming.literal, mirror.atomOf_injective.eq_iff]
    split
    · rename_i same
      subst same
      cases left[literal.atom]? <;> rfl
    · rfl

theorem clear (maps : mirror.MapsValuation left right) (atom : Nat) :
    mirror.MapsValuation (left.clear atom) (right.clear (mirror.atomOf atom)) where
  left_size := by rw [Valuation.clear, Array.size_setIfInBounds, maps.left_size]
  right_size := by rw [Valuation.clear, Array.size_setIfInBounds, maps.right_size]
  value_eq other := by
    rw [Valuation.getElem?_clear, Valuation.getElem?_clear, maps.value_eq]
    simp only [mirror.atomOf_injective.eq_iff]
    split
    · cases left[other]? <;> rfl
    · rfl

end MapsValuation

end SignedRenaming

end PropSat
