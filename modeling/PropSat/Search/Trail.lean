import PropSat.Valuation

/-!
# Trails

A trail records how a valuation came about: what follows from the clauses alone at the root, and
above it one frame for each decision, holding what followed from it.  Going back means to give up
frames whose decision was flipped already and to flip the decision of the first other frame.
-/

namespace PropSat
namespace Literal

/-- Put a literal into its place in an increasing list, unless it is there. -/
def insertInto (literal : Literal) : List Literal → List Literal
  | [] => [literal]
  | first :: rest =>
      if first.rank < literal.rank then first :: literal.insertInto rest
      else if first = literal then first :: rest
      else literal :: first :: rest

@[simp]
theorem mem_insertInto {literal other : Literal} {literals : List Literal} :
    other ∈ literal.insertInto literals ↔ other = literal ∨ other ∈ literals := by
  induction literals with
  | nil => simp [insertInto]
  | cons first rest induction =>
      rw [insertInto]
      split
      · simp [induction, or_left_comm]
      · split <;> simp_all

end Literal

namespace Search

/-- What is recorded at one height of a trail. -/
structure Level where
  /-- Whether the level was entered by flipping. -/
  flipped : Bool := false
  /-- Literals that followed from unit clauses, in increasing order. -/
  propagations : List Literal := []
  deriving DecidableEq

namespace Level

/-- Record a literal that followed. -/
def record (level : Level) (literal : Literal) : Level :=
  { level with propagations := literal.insertInto level.propagations }

/-- The level after a flip, at which nothing has followed yet. -/
def flip (_level : Level) : Level := { flipped := true }

end Level

/-- The level of a decision. -/
structure Frame extends Level where
  /-- The literal decided on. -/
  decision : Literal
  deriving DecidableEq

namespace Frame

/-- Frame of a decision from which nothing has followed yet. -/
def ofDecision (decision : Literal) : Frame := { decision }

/-- Record a literal that followed from the decision. -/
def record (frame : Frame) (literal : Literal) : Frame :=
  { frame with toLevel := frame.toLevel.record literal }

/-- Decide the other way. -/
def flip (frame : Frame) : Frame :=
  { toLevel := frame.toLevel.flip, decision := frame.decision.negate }

/-- Whether all atoms of the frame are below a bound. -/
def within (bound : Nat) (frame : Frame) : Bool :=
  frame.decision.atom < bound && frame.propagations.all fun literal => literal.atom < bound

/-- The valuation without anything the frame stands for. -/
def undo (frame : Frame) (valuation : Valuation) : Valuation :=
  (valuation.clearAll frame.propagations).clear frame.decision.atom

/-- The valuation with the decision of the frame negated and nothing else the frame stands for. -/
def revise (frame : Frame) (valuation : Valuation) : Valuation :=
  (valuation.clearAll frame.propagations).assign frame.decision.negate

end Frame

/-- The decisions made and what followed from them. -/
structure Trail where
  /-- What holds without any decision. -/
  root : Level := {}
  /-- Frames of the decisions, the latest first. -/
  frames : List Frame := []
  deriving DecidableEq

namespace Trail

/-- Number of decisions on the trail. -/
def decisionCount (trail : Trail) : Nat := trail.frames.length

/-- Put a decision on top. -/
def push (trail : Trail) (decision : Literal) : Trail :=
  { trail with frames := .ofDecision decision :: trail.frames }

/-- Record a literal that followed at the top. -/
def record (trail : Trail) (literal : Literal) : Trail :=
  match trail.frames with
  | [] => { trail with root := trail.root.record literal }
  | top :: rest => { trail with frames := top.record literal :: rest }

/-- Record several literals at the top. -/
def recordAll (trail : Trail) (literals : List Literal) : Trail := literals.foldl record trail

/-- Flip the top, with the decision that results if the top is not the root. -/
def flip (trail : Trail) : Option Literal × Trail :=
  match trail.frames with
  | [] => (none, { trail with root := trail.root.flip })
  | top :: rest => (some top.flip.decision, { trail with frames := top.flip :: rest })

/-- Take the latest decision off, unless the root is at the top. -/
def pop (trail : Trail) : Option Frame × Trail :=
  match trail.frames with
  | [] => (none, trail)
  | top :: rest => (some top, { trail with frames := rest })

end Trail

/-- What comes of going back over frames. -/
structure Retreat where
  /-- Number of frames given up. -/
  dropped : Nat
  /-- The flipped decision, or none if there was no decision left to flip. -/
  redecided : Option Literal
  /-- The frames that remain. -/
  frames : List Frame
  /-- The valuation that belongs to them. -/
  valuation : Valuation

/-- Go back over frames to the latest decision that was not flipped, and flip it; none if a frame
has an atom outside the valuation. -/
def retreat? (valuation : Valuation) : List Frame → Option Retreat
  | [] => some { dropped := 0, redecided := none, frames := [], valuation }
  | top :: rest =>
      if top.within valuation.size then
        if top.flipped then
          (retreat? (top.undo valuation) rest).map fun retreat =>
            { retreat with dropped := retreat.dropped + 1 }
        else
          some
            { dropped := 0
              redecided := some top.flip.decision
              frames := top.flip :: rest
              valuation := top.revise valuation }
      else
        none

end Search
end PropSat
