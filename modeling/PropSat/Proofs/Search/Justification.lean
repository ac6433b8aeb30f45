import PropSat.Proofs.Search.Agreement

/-!
# Justified trails

A trail is justified if whatever followed at a level holds in all models of the clauses that agree
with the levels below and the decision, and if a flipped decision has no model on its other side.
Following unit clauses and deciding keep a trail justified.  Going back keeps it justified after a
conflict, as the refutations of both sides of a flipped decision combine to one of the levels below
it; when no decision is left, the clauses themselves are refuted.
-/

namespace PropSat

namespace Cnf

/-- Whether a literal holds in every model of the clauses in which the premises hold. -/
def Entails (cnf : Cnf) (premises : List Literal) (literal : Literal) : Prop :=
  ∀ assignment, cnf.Holds assignment → (∀ premise ∈ premises, premise.Holds assignment) →
    literal.Holds assignment

/-- Whether the premises hold in no model of the clauses. -/
def Refutes (cnf : Cnf) (premises : List Literal) : Prop :=
  ∀ assignment, cnf.Holds assignment → ¬ ∀ premise ∈ premises, premise.Holds assignment

variable {cnf : Cnf}

theorem Entails.mono {fewer more : List Literal} {literal : Literal}
    (entailed : cnf.Entails fewer literal) (subset : fewer ⊆ more) : cnf.Entails more literal :=
  fun assignment holds premises =>
    entailed assignment holds fun premise member => premises premise (subset member)

/-- Premises that follow from the others can be left out. -/
theorem Entails.cut {followed premises : List Literal} {literal : Literal}
    (followed_entailed : ∀ premise ∈ followed, cnf.Entails premises premise)
    (entailed : cnf.Entails (followed ++ premises) literal) : cnf.Entails premises literal := by
  intro assignment holds given
  apply entailed assignment holds
  intro premise member
  rcases List.mem_append.mp member with follows | stated
  · exact followed_entailed premise follows assignment holds given
  · exact given premise stated

theorem Refutes.cut {followed premises : List Literal}
    (followed_entailed : ∀ premise ∈ followed, cnf.Entails premises premise)
    (refuted : cnf.Refutes (followed ++ premises)) : cnf.Refutes premises := by
  intro assignment holds given
  apply refuted assignment holds
  intro premise member
  rcases List.mem_append.mp member with follows | stated
  · exact followed_entailed premise follows assignment holds given
  · exact given premise stated

/-- Refuting a literal and its negation over some premises refutes the premises. -/
theorem Refutes.merge {premises : List Literal} {literal : Literal}
    (refuted : cnf.Refutes (literal :: premises))
    (other_refuted : cnf.Refutes (literal.negate :: premises)) : cnf.Refutes premises := by
  intro assignment holds given
  by_cases literal_holds : literal.Holds assignment
  · exact refuted assignment holds (List.forall_mem_cons.mpr ⟨literal_holds, given⟩)
  · have negated_holds := Literal.holds_negate.mpr literal_holds
    exact other_refuted assignment holds (List.forall_mem_cons.mpr ⟨negated_holds, given⟩)

theorem holds_of_firstForced? {valuation : Valuation} {literal : Literal} {index : Nat}
    {assignment : Assignment}
    (found : cnf.firstForced? valuation = some (some (literal, index)))
    (holds : cnf.Holds assignment) (admitted : valuation.Admits assignment) :
    literal.Holds assignment := by
  obtain ⟨clause, member, status, status_eq, forced⟩ := exists_status_of_firstFrom? found
  cases status with
  | satisfied | violated | undecided => cases forced
  | unit forced_literal =>
      cases forced
      exact (Clause.holds_iff_of_unit status_eq admitted).mp (holds clause member)

end Cnf

theorem Valuation.Records.admits_iff {valuation : Valuation} {literals : List Literal}
    {assignment : Assignment} (records : valuation.Records literals) :
    valuation.Admits assignment ↔ ∀ literal ∈ literals, literal.Holds assignment := by
  constructor
  · exact fun admitted literal member =>
      admitted _ _ ((records.decided_iff literal).mpr member)
  · intro all_hold atom value at_atom
    exact all_hold { atom, polarity := value } ((records.decided_iff _).mp at_atom)

namespace Search

section Closure

variable {cnf : Cnf} {valuation : Valuation} {forced : List Forced} {assignment : Assignment}

/-- The models that a valuation admits are still admitted after unit clauses were followed. -/
theorem admits_of_close? {closed : Valuation}
    (closure : close? cnf valuation = some (forced, .settled closed))
    (holds : cnf.Holds assignment) (admitted : valuation.Admits assignment) :
    closed.Admits assignment := by
  fun_induction close? cnf valuation generalizing forced with
  | case1 | case2 | case3 => simp at closure
  | case4 =>
      simp only [Option.some.injEq, Prod.mk.injEq, Closure.settled.injEq] at closure
      obtain ⟨_, rfl⟩ := closure
      exact admitted
  | case5 valuation _ _ _ literal clause found induction =>
      obtain ⟨⟨later, outcome⟩, later_eq, result_eq⟩ := Option.map_eq_some_iff.mp closure
      simp only [Prod.mk.injEq] at result_eq
      obtain ⟨_, rfl⟩ := result_eq
      have literal_holds := Cnf.holds_of_firstForced? found holds admitted
      have literal_open := Cnf.open_of_firstForced? found
      exact induction later_eq
        ((Valuation.admits_assign_iff literal_open).mpr ⟨admitted, literal_holds⟩)

/-- A conflict shows that a valuation admits no model. -/
theorem not_holds_of_close? {index : Nat}
    (closure : close? cnf valuation = some (forced, .conflict index))
    (admitted : valuation.Admits assignment) : ¬ cnf.Holds assignment := by
  fun_induction close? cnf valuation generalizing forced with
  | case1 | case3 | case4 => simp at closure
  | case2 valuation clause violated => exact Cnf.not_holds_of_violated violated admitted
  | case5 valuation _ _ _ literal clause found induction =>
      obtain ⟨⟨later, outcome⟩, later_eq, result_eq⟩ := Option.map_eq_some_iff.mp closure
      simp only [Prod.mk.injEq] at result_eq
      obtain ⟨_, rfl⟩ := result_eq
      intro holds
      have literal_holds := Cnf.holds_of_firstForced? found holds admitted
      have literal_open := Cnf.open_of_firstForced? found
      exact induction later_eq
        ((Valuation.admits_assign_iff literal_open).mpr ⟨admitted, literal_holds⟩) holds

end Closure

/-- Whether frames are justified on top of literals that follow from the clauses. -/
def Justified (cnf : Cnf) (base : List Literal) : List Frame → Prop
  | [] => ∀ literal ∈ base, cnf.Entails [] literal
  | top :: rest =>
      let below := rest.flatMap Frame.literals ++ base
      (∀ literal ∈ top.propagations, cnf.Entails (top.decision :: below) literal) ∧
        (top.flipped = true → cnf.Refutes (top.decision.negate :: below)) ∧
        Justified cnf base rest

/-- A conflict on top of a frame refutes the decision of the frame over what lies below. -/
theorem refutes_decision {cnf : Cnf} {top : Frame} {below : List Literal}
    (followed : ∀ literal ∈ top.propagations, cnf.Entails (top.decision :: below) literal)
    (refuted : cnf.Refutes (top.literals ++ below)) : cnf.Refutes (top.decision :: below) := by
  apply Cnf.Refutes.cut followed
  intro assignment holds given
  apply refuted assignment holds
  intro premise member
  apply given
  simp only [Frame.literals, List.cons_append, List.mem_cons, List.mem_append] at member ⊢
  grind

/-- Going back after a conflict keeps the frames justified, and refutes the clauses if no decision
is left. -/
theorem justified_of_retreat? {cnf : Cnf} {base : List Literal} {valuation : Valuation}
    {frames : List Frame} {retreat : Retreat} (justified : Justified cnf base frames)
    (refuted : cnf.Refutes (frames.flatMap Frame.literals ++ base))
    (retreat_eq : retreat? valuation frames = some retreat) :
    Justified cnf base retreat.frames ∧ (retreat.redecided = none → cnf.Refutes []) := by
  induction frames generalizing valuation retreat with
  | nil =>
      cases retreat_eq
      refine ⟨justified, fun _ => ?_⟩
      apply Cnf.Refutes.cut justified
      simpa using refuted
  | cons top rest induction =>
      obtain ⟨followed, flipped_refuted, rest_justified⟩ := justified
      rw [List.flatMap_cons, List.append_assoc] at refuted
      have decision_refuted := refutes_decision followed refuted
      rw [retreat?] at retreat_eq
      split at retreat_eq
      · split at retreat_eq
        · rename_i flipped
          obtain ⟨later, later_eq, rfl⟩ := Option.map_eq_some_iff.mp retreat_eq
          have below_refuted := decision_refuted.merge (flipped_refuted flipped)
          have kept := induction rest_justified below_refuted later_eq
          exact kept
        · cases retreat_eq
          refine ⟨⟨by simp [Frame.flip, Level.flip], fun _ => ?_, rest_justified⟩, by simp⟩
          simpa [Frame.flip] using decision_refuted
      · cases retreat_eq

namespace Trail

/-- Whether all levels of a trail are justified. -/
def Justified (cnf : Cnf) (trail : Trail) : Prop :=
  Search.Justified cnf trail.root.propagations trail.frames

theorem justified_push {cnf : Cnf} {trail : Trail} (justified : trail.Justified cnf)
    (decision : Literal) : (trail.push decision).Justified cnf :=
  ⟨by simp [Frame.ofDecision], by simp [Frame.ofDecision], justified⟩

theorem subset_literals_record (trail : Trail) (literal : Literal) :
    trail.literals ⊆ (trail.record literal).literals := by
  intro other member
  obtain ⟨root, frames⟩ := trail
  cases frames with
  | nil => exact Literal.mem_insertInto.mpr (.inr member)
  | cons top rest =>
      simp only [literals, record, List.flatMap_cons, Frame.literals, Frame.record, Level.record,
        List.cons_append, List.mem_cons, List.mem_append, Literal.mem_insertInto] at member ⊢
      grind

theorem justified_record {cnf : Cnf} {trail : Trail} {literal : Literal}
    (justified : trail.Justified cnf) (entailed : cnf.Entails trail.literals literal) :
    (trail.record literal).Justified cnf := by
  obtain ⟨root, frames⟩ := trail
  cases frames with
  | nil =>
      intro other member
      rcases Literal.mem_insertInto.mp member with rfl | old
      · apply Cnf.Entails.cut justified
        simpa [literals] using entailed
      · exact justified other old
  | cons top rest =>
      obtain ⟨followed, flipped_refuted, rest_justified⟩ := justified
      refine ⟨?_, flipped_refuted, rest_justified⟩
      intro other member
      rcases Literal.mem_insertInto.mp member with rfl | old
      · apply Cnf.Entails.cut followed
        apply entailed.mono
        intro premise occurs
        simp only [literals, List.flatMap_cons, Frame.literals, List.cons_append, List.mem_cons,
          List.mem_append] at occurs ⊢
        grind
      · exact followed other old

theorem justified_recordAll {cnf : Cnf} {trail : Trail} {literals : List Literal}
    (justified : trail.Justified cnf)
    (entailed : ∀ literal ∈ literals, cnf.Entails trail.literals literal) :
    (trail.recordAll literals).Justified cnf := by
  induction literals generalizing trail with
  | nil => exact justified
  | cons literal rest induction =>
      obtain ⟨first_entailed, rest_entailed⟩ := List.forall_mem_cons.mp entailed
      apply induction (justified_record justified first_entailed)
      exact fun other member =>
        (rest_entailed other member).mono (subset_literals_record trail literal)

end Trail
end Search
end PropSat
