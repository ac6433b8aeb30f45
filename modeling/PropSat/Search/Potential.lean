import PropSat.Search.Closure
import PropSat.Search.Trail

/-!
# What remains of a search

The potential of a valuation and the frames of its trail bounds the iterations that are left.  It
counts the nodes of the decision tree over the open atoms, and of the trees under the decisions that
can still be flipped.  Following unit clauses does not raise it, a decision splits a tree into its
two halves, and a flip forgets a tree that has been searched.
-/

namespace PropSat
namespace Search

/-- Number of nodes of a complete binary tree. -/
def treeSize : Nat → Nat
  | 0 => 1
  | height + 1 => 2 * treeSize height + 1

theorem treeSize_succ (height : Nat) : treeSize (height + 1) = 2 * treeSize height + 1 := rfl

theorem treeSize_pos (height : Nat) : 0 < treeSize height := by
  cases height with
  | zero => decide
  | succ height => rw [treeSize_succ]; omega

theorem treeSize_mono {low high : Nat} (ordered : low ≤ high) : treeSize low ≤ treeSize high := by
  induction ordered with
  | refl => exact Nat.le_refl _
  | step _ induction => rw [treeSize_succ]; omega

/-- Sizes of the trees under the decisions that can still be flipped. -/
def reserve (valuation : Valuation) : List Frame → Nat
  | [] => 0
  | top :: rest =>
      (if top.flipped then 0 else treeSize (top.revise valuation).openCount) +
        reserve (top.undo valuation) rest

/-- Bound on the iterations that a search has left. -/
def potential (valuation : Valuation) (frames : List Frame) : Nat :=
  treeSize valuation.openCount + reserve valuation frames

/-- Taking back what unit closure decided gives the valuation that it started from. -/
theorem clearAll_of_close? {cnf : Cnf} {valuation closed : Valuation} {forced : List Forced}
    (closure : close? cnf valuation = some (forced, .settled closed)) :
    closed.clearAll (forced.map Forced.literal) = valuation := by
  rw [eq_assignAll_of_close? closure, clearAll_assignAll_of_close? closure]

theorem openCount_le_of_close? {cnf : Cnf} {valuation closed : Valuation} {forced : List Forced}
    (closure : close? cnf valuation = some (forced, .settled closed)) :
    closed.openCount ≤ valuation.openCount := by
  fun_induction close? cnf valuation generalizing forced with
  | case1 | case2 | case3 => simp at closure
  | case4 =>
      simp only [Option.some.injEq, Prod.mk.injEq, Closure.settled.injEq] at closure
      obtain ⟨_, rfl⟩ := closure
      exact Nat.le_refl _
  | case5 valuation _ _ _ literal clause found induction =>
      obtain ⟨⟨later, outcome⟩, later_eq, result_eq⟩ := Option.map_eq_some_iff.mp closure
      simp only [Prod.mk.injEq] at result_eq
      obtain ⟨_, rfl⟩ := result_eq
      have fewer := Valuation.openCount_assign (Cnf.open_of_firstForced? found)
      have bound := induction later_eq
      omega

theorem mem_foldl_record {frame : Frame} {literals : List Literal} {literal : Literal} :
    literal ∈ (literals.foldl Frame.record frame).propagations ↔
      literal ∈ frame.propagations ∨ literal ∈ literals := by
  induction literals generalizing frame with
  | nil => simp
  | cons first rest induction =>
      rw [List.foldl_cons, induction]
      simp only [Frame.record, Level.record, Literal.mem_insertInto, List.mem_cons]
      grind

theorem foldl_record_decision {frame : Frame} {literals : List Literal} :
    (literals.foldl Frame.record frame).decision = frame.decision := by
  induction literals generalizing frame with
  | nil => rfl
  | cons first rest induction => rw [List.foldl_cons, induction, Frame.record]

theorem foldl_record_flipped {frame : Frame} {literals : List Literal} :
    (literals.foldl Frame.record frame).flipped = frame.flipped := by
  induction literals generalizing frame with
  | nil => rfl
  | cons first rest induction => rw [List.foldl_cons, induction, Frame.record, Level.record]

theorem recordAll_frames_nil {trail : Trail} {literals : List Literal} (bare : trail.frames = []) :
    (trail.recordAll literals).frames = [] := by
  induction literals generalizing trail with
  | nil => exact bare
  | cons first rest induction =>
      rw [Trail.recordAll, List.foldl_cons]
      exact induction (by simp [Trail.record, bare])

theorem recordAll_frames_cons {trail : Trail} {literals : List Literal} {top : Frame}
    {rest : List Frame} (frames_eq : trail.frames = top :: rest) :
    (trail.recordAll literals).frames = literals.foldl Frame.record top :: rest := by
  induction literals generalizing trail top with
  | nil => exact frames_eq
  | cons first later induction =>
      rw [Trail.recordAll, List.foldl_cons, List.foldl_cons]
      exact induction (by simp [Trail.record, frames_eq])

theorem clearAll_foldl_record {valuation : Valuation} {frame : Frame} {literals : List Literal} :
    valuation.clearAll (literals.foldl Frame.record frame).propagations =
      (valuation.clearAll literals).clearAll frame.propagations := by
  apply Array.ext_getElem?
  intro atom
  have members : atom ∈ (literals.foldl Frame.record frame).propagations.map Literal.atom ↔
      atom ∈ frame.propagations.map Literal.atom ∨ atom ∈ literals.map Literal.atom := by
    simp only [List.mem_map, mem_foldl_record]
    grind
  rw [Valuation.getElem?_clearAll, Valuation.getElem?_clearAll, Valuation.getElem?_clearAll]
  by_cases before : atom ∈ frame.propagations.map Literal.atom
  · rw [if_pos (members.mpr (.inl before)), if_pos before]
    split
    · rw [Option.map_map]
      rfl
    · rfl
  · simp only [members, before, false_or, if_false]

/-- Literals that were decided and recorded at the top leave the reserve as it was. -/
theorem reserve_recordAll {valuation closed : Valuation} {trail : Trail} {literals : List Literal}
    (cleared : closed.clearAll literals = valuation) :
    reserve closed (trail.recordAll literals).frames = reserve valuation trail.frames := by
  cases frames_eq : trail.frames with
  | nil => rw [recordAll_frames_nil frames_eq, reserve, reserve]
  | cons top rest =>
      rw [recordAll_frames_cons frames_eq, reserve, reserve, Frame.revise, Frame.revise, Frame.undo,
        Frame.undo, clearAll_foldl_record, foldl_record_decision, foldl_record_flipped, cleared]

theorem assign_assign_negate (valuation : Valuation) (literal : Literal) :
    (valuation.assign literal).assign literal.negate = valuation.assign literal.negate :=
  Array.setIfInBounds_setIfInBounds _

/-- A decision splits the tree over the open atoms. -/
theorem potential_push {valuation : Valuation} {literal : Literal} {frames : List Frame}
    (literal_open : valuation[literal.atom]? = some none) :
    potential (valuation.assign literal) (.ofDecision literal :: frames) <
      potential valuation frames := by
  have kept := Valuation.openCount_assign literal_open
  have negated_open : valuation[literal.negate.atom]? = some none := literal_open
  have flipped := Valuation.openCount_assign negated_open
  have undone : (Frame.ofDecision literal).undo (valuation.assign literal) = valuation :=
    Valuation.clear_assign literal_open
  have revised : (Frame.ofDecision literal).revise (valuation.assign literal) =
      valuation.assign literal.negate := assign_assign_negate valuation literal
  rw [potential, potential, reserve, undone, revised, ← kept, treeSize_succ]
  have same_count : (valuation.assign literal.negate).openCount =
      (valuation.assign literal).openCount := by omega
  rw [same_count]
  simp only [Frame.ofDecision, Bool.false_eq_true, if_false]
  omega

theorem undo_flip_revise (frame : Frame) (valuation : Valuation) :
    frame.flip.undo (frame.revise valuation) = frame.undo valuation :=
  Array.setIfInBounds_setIfInBounds _

/-- What a flip leaves was in reserve. -/
theorem potential_of_retreat? {valuation : Valuation} {frames : List Frame} {retreat : Retreat}
    {literal : Literal} (retreat_eq : retreat? valuation frames = some retreat)
    (redecided : retreat.redecided = some literal) :
    potential retreat.valuation retreat.frames = reserve valuation frames := by
  induction frames generalizing valuation retreat with
  | nil =>
      cases retreat_eq
      cases redecided
  | cons top rest induction =>
      rw [retreat?] at retreat_eq
      split at retreat_eq
      · split at retreat_eq
        · rename_i flipped
          obtain ⟨later, later_eq, rfl⟩ := Option.map_eq_some_iff.mp retreat_eq
          rw [reserve, if_pos flipped, Nat.zero_add]
          change potential later.valuation later.frames = _
          exact induction later_eq redecided
        · rename_i not_flipped
          cases retreat_eq
          rw [reserve, if_neg not_flipped, potential, reserve, undo_flip_revise]
          simp [Frame.flip, Level.flip]
      · cases retreat_eq

end Search
end PropSat
