import PropSat.Proofs.Grammar.Arena

/-!
# Records and nodes while a text is read

Between two lexemes the records lead from the innermost slot out to the root, through slots of nodes
of their kinds and through fewer and fewer parentheses.  The slot on top is filled just where a
connective may follow, which takes the node noted there as its left operand.  The node is then noted
again, under the connective, so the nodes always form a tree below the root: exactly one path leads
to each of them.  Where a text may end, the record of the root is the only one, and no operand is
missing in that tree.
-/

namespace PropSat
namespace Grammar

section Paths

/-- The operands of a node, from left to right. -/
def Node.operands : Node → List (Option Nat)
  | .variable _ => []
  | .negation operand => [operand]
  | .binary _ left right => [left, right]

/-- The operand at a place of a node, if it is noted. -/
def operandAt? (nodes : Array Node) (node place : Nat) : Option Nat :=
  nodes[node]?.bind fun entry => entry.operands[place]?.join

/-- The node that a path leads to, which gives the places of the operands to go through. -/
def follow? (nodes : Array Node) : Option Nat → List Nat → Option Nat
  | noted, [] => noted
  | noted, place :: path => follow? nodes (noted.bind fun node => operandAt? nodes node place) path

/-- Whether a noted node has below it the nodes from `low` up to `high`, each at the end of one
path. -/
structure Rooted (nodes : Array Node) (noted : Option Nat) (low high : Nat) : Prop where
  /-- No path leads to another node. -/
  within : ∀ path node, follow? nodes noted path = some node → low ≤ node ∧ node < high
  /-- Exactly one path leads to each of them. -/
  once : ∀ node, low ≤ node ∧ node < high →
    ∃ path, ∀ other, follow? nodes noted other = some node ↔ other = path

variable {nodes : Array Node} {formula : Formula} {low high index : Nat}

theorem follow?_none (path : List Nat) : follow? nodes none path = none := by
  induction path with
  | nil => rfl
  | cons place path induction => exact induction

theorem rooted_none : Rooted nodes none low low where
  within path node found := by
    rw [follow?_none] at found
    cases found
  once node inside := by omega

/-- What is below the operands of a node is below the node, and still at the end of one path if no
two operands share it. -/
theorem rooted_of_operands (lows highs : Nat → Nat) (here : low ≤ index ∧ index < high)
    (below : ∀ place, Rooted nodes (operandAt? nodes index place) (lows place) (highs place))
    (parts : ∀ node, (low ≤ node ∧ node < high) ∧ node ≠ index ↔
      ∃ place, lows place ≤ node ∧ node < highs place)
    (apart : ∀ node place other, lows place ≤ node ∧ node < highs place →
      lows other ≤ node ∧ node < highs other → other = place) :
    Rooted nodes (some index) low high where
  within path node found := by
    cases path with
    | nil =>
        cases found
        exact here
    | cons place path => exact ((parts node).mpr ⟨place, (below place).within path node found⟩).1
  once node inside := by
    by_cases at_index : node = index
    · subst at_index
      refine ⟨[], fun other => ⟨fun found => ?_, fun empty => by rw [empty, follow?]⟩⟩
      cases other with
      | nil => rfl
      | cons place other =>
          exact (((parts node).mpr ⟨place, (below place).within other node found⟩).2 rfl).elim
    · -- The node is below one operand, so each path to it goes on there and is the only one.
      obtain ⟨place, in_part⟩ := (parts node).mp ⟨inside, at_index⟩
      obtain ⟨path, only⟩ := (below place).once node in_part
      refine ⟨place :: path, fun other => ?_⟩
      cases other with
      | nil => simp [follow?, Ne.symm at_index]
      | cons first other =>
          constructor
          · intro found
            have same := apart node place first in_part ((below first).within other node found)
            subst same
            rw [(only other).mp found]
          · intro same
            obtain ⟨rfl, rfl⟩ := List.cons.inj same
            exact (only other).mpr rfl

theorem operandAt?_eq {entry : Node} (at_node : nodes[index]? = some entry) (place : Nat) :
    operandAt? nodes index place = entry.operands[place]?.join := by
  rw [operandAt?, at_node, Option.bind_some]

theorem rooted_variable {atom : Nat} (at_node : nodes[index]? = some (.variable atom)) :
    Rooted nodes (some index) index (index + 1) := by
  refine rooted_of_operands (fun _ => 0) (fun _ => 0) (by omega) ?_ ?_ ?_
  · intro place
    rw [operandAt?_eq at_node]
    exact rooted_none
  · intro node
    constructor
    · omega
    · rintro ⟨_, _⟩
      omega
  · omega

theorem rooted_negation {noted : Option Nat} (at_node : nodes[index]? = some (.negation noted))
    (behind : index < high) (rooted : Rooted nodes noted (index + 1) high) :
    Rooted nodes (some index) index high := by
  refine rooted_of_operands (fun _ => index + 1)
    (fun place => if place = 0 then high else index + 1) (by omega) ?_ ?_ ?_
  · intro place
    rw [operandAt?_eq at_node]
    rcases place with _ | place
    · exact rooted
    · exact rooted_none
  · intro node
    constructor
    · intro inside
      exact ⟨0, by omega, inside.1.2⟩
    · rintro ⟨place, above, below⟩
      split at below <;> omega
  · rintro node place other ⟨above, below⟩ ⟨other_above, other_below⟩
    split at below <;> split at other_below <;> omega

theorem rooted_binary {connective : Connective} {left right : Option Nat}
    (at_node : nodes[index]? = some (.binary connective left right))
    (here : low ≤ index ∧ index < high) (left_rooted : Rooted nodes left low index)
    (right_rooted : Rooted nodes right (index + 1) high) :
    Rooted nodes (some index) low high := by
  refine rooted_of_operands (fun place => if place = 0 then low else index + 1)
    (fun place => if place = 0 then index else if place = 1 then high else index + 1) here ?_ ?_ ?_
  · intro place
    rw [operandAt?_eq at_node]
    rcases place with _ | _ | place
    · exact left_rooted
    · exact right_rooted
    · exact rooted_none
  · intro node
    constructor
    · rintro ⟨inside, different⟩
      rcases Nat.lt_or_gt_of_ne different with before | behind
      · exact ⟨0, inside.1, before⟩
      · exact ⟨1, behind, inside.2⟩
    · rintro ⟨place, above, below⟩
      grind
  · rintro node place other ⟨above, below⟩ ⟨other_above, other_below⟩
    grind

namespace Spans

/-- The nodes that a formula takes up are those below its outermost one. -/
theorem rooted (spans : Spans nodes formula low high index) :
    Rooted nodes (some index) low high := by
  induction formula generalizing low high index with
  | var atom =>
      obtain ⟨rfl, rfl, at_node⟩ := spans
      exact rooted_variable at_node
  | neg inner induction =>
      obtain ⟨rfl, operand, at_node, inside⟩ := spans
      have bounds := inside.bounds
      exact rooted_negation at_node (by omega) (induction inside)
  | bin connective left right left_induction right_induction =>
      obtain ⟨first, second, at_node, left_inside, right_inside⟩ := spans
      have left_bounds := left_inside.bounds
      have right_bounds := right_inside.bounds
      exact rooted_binary at_node (by omega) (left_induction left_inside)
        (right_induction right_inside)

/-- A formula takes up as many nodes as it has. -/
theorem size_eq (spans : Spans nodes formula low high index) : low + formula.size = high := by
  induction formula generalizing low high index with
  | var atom =>
      obtain ⟨_, rfl, _⟩ := spans
      rfl
  | neg inner induction =>
      obtain ⟨_, _, _, inside⟩ := spans
      rw [← induction inside, Formula.size]
      omega
  | bin connective left right left_induction right_induction =>
      obtain ⟨_, _, _, left_inside, right_inside⟩ := spans
      rw [← right_induction right_inside, ← left_induction left_inside, Formula.size]
      omega

/-- The nodes that a formula takes up lack no operand. -/
theorem noted (spans : Spans nodes formula low high index) {node : Nat} {entry : Node}
    (above : low ≤ node) (below : node < high) (at_node : nodes[node]? = some entry) :
    none ∉ entry.operands := by
  induction formula generalizing low high index with
  | var atom =>
      obtain ⟨rfl, rfl, at_index⟩ := spans
      obtain rfl : node = index := by omega
      cases at_node.symm.trans at_index
      simp [Node.operands]
  | neg inner induction =>
      obtain ⟨rfl, operand, at_index, inside⟩ := spans
      rcases Nat.eq_or_lt_of_le above with rfl | behind
      · cases at_node.symm.trans at_index
        simp [Node.operands]
      · exact induction inside behind below
  | bin connective left right left_induction right_induction =>
      obtain ⟨first, second, at_index, left_inside, right_inside⟩ := spans
      rcases Nat.lt_trichotomy node index with before | rfl | behind
      · exact left_induction left_inside above before
      · cases at_node.symm.trans at_index
        simp [Node.operands]
      · exact right_induction right_inside behind below

end Spans
end Paths

section Stack

/-- Whether a slot is that of a node of its kind. -/
def Slot.Fits (nodes : Array Node) : Slot → Prop
  | .root => True
  | .negand node => ∃ operand, nodes[node]? = some (.negation operand)
  | .right node => ∃ connective left right, nodes[node]? = some (.binary connective left right)

/-- What holds of records, innermost first, where a number of parentheses are open. -/
structure Stacked (nodes : Array Node) (depth : Nat) (records : List Record) : Prop where
  /-- There is a record at the bottom, and it is that of the root. -/
  bottom : records.getLast? = some rootRecord
  /-- The depths do not decrease from the bottom to the top. -/
  nested : records.Pairwise fun inner outer => outer.depth ≤ inner.depth
  /-- No record was made deeper than at the present depth. -/
  within : ∀ record ∈ records, record.depth ≤ depth
  /-- The quick records are those of operands of negations. -/
  quick_iff : ∀ record ∈ records, record.quick = true ↔ ∃ node, record.slot = .negand node
  /-- Every slot is that of a node of its kind. -/
  fits : ∀ record ∈ records, record.slot.Fits nodes

variable {nodes : Array Node} {depth : Nat} {records : List Record}

theorem stacked_root : Stacked nodes 0 [rootRecord] where
  bottom := rfl
  nested := List.pairwise_singleton _ _
  within := by simp [rootRecord]
  quick_iff := by simp [rootRecord]
  fits := by simp [rootRecord, Slot.Fits]

namespace Stacked

theorem deeper (stacked : Stacked nodes depth records) : Stacked nodes (depth + 1) records :=
  { stacked with within := fun record member => Nat.le_succ_of_le (stacked.within record member) }

/-- A record made at the present depth may go on top. -/
theorem push (stacked : Stacked nodes depth records) {slot : Slot} {quick : Bool}
    (quick_iff : quick = true ↔ ∃ node, slot = .negand node) (fits : slot.Fits nodes) :
    Stacked nodes depth ({ slot, depth, quick } :: records) where
  bottom := by
    rw [List.getLast?_cons, stacked.bottom]
    rfl
  nested := List.pairwise_cons.mpr ⟨stacked.within, stacked.nested⟩
  within := List.forall_mem_cons.mpr ⟨Nat.le_refl depth, stacked.within⟩
  quick_iff := List.forall_mem_cons.mpr ⟨quick_iff, stacked.quick_iff⟩
  fits := List.forall_mem_cons.mpr ⟨fits, stacked.fits⟩

end Stacked
end Stack

section Kept

variable {atomOf : String → Nat} {arena : Arena}

mutual

theorem Site.stacked :
    ∀ (site : Site) {noted : Option Nat} {low : Nat} {records : List Record},
      site.Kept atomOf arena noted low records → Stacked arena.nodes site.depth records
  | .whole, _, _, _, kept => by
      rw [kept.2.2]
      exact stacked_root
  | .group outer, _, _, _, kept => (Hole.stacked outer kept).deeper

/-- The records of a place are stacked up to its depth. -/
theorem Hole.stacked :
    ∀ (hole : Hole) {noted : Option Nat} {low : Nat} {records : List Record},
      hole.Kept atomOf arena noted low records → Stacked arena.nodes hole.depth records
  | .first .whole, _, _, _, kept => by
      -- The root has a second record above the one at the bottom, up to its first operand.
      obtain ⟨rest, rfl, inside⟩ := kept
      exact (Site.stacked .whole inside).push (by simp) trivial
  | .first (.group outer), _, _, _, kept => by
      obtain ⟨rest, rfl, inside⟩ := kept
      exact Site.stacked (.group outer) inside
  | .right site left connective, _, _, _, kept => by
      obtain ⟨middle, first, start, rest, rfl, _, at_node, _, inside⟩ := kept
      exact (Site.stacked site inside).push (by simp) ⟨_, _, _, at_node⟩
  | .negand outer, _, _, _, kept => by
      obtain ⟨node, rest, rfl, _, at_node, inside⟩ := kept
      exact (Hole.stacked outer inside).push (by simp) ⟨_, at_node⟩

end

mutual

theorem Site.rooted :
    ∀ (site : Site) {noted : Option Nat} {low high : Nat} {records : List Record},
      site.Kept atomOf arena noted low records → low ≤ high →
        Rooted arena.nodes noted low high → Rooted arena.nodes arena.root 0 high
  | .whole, _, _, _, _, kept, _, rooted => by
      obtain ⟨root_eq, rfl, _⟩ := kept
      rw [root_eq]
      exact rooted
  | .group outer, _, _, _, _, kept, behind, rooted => Hole.rooted outer kept behind rooted

/-- The nodes before a place are below the root, together with those below the node noted there. -/
theorem Hole.rooted :
    ∀ (hole : Hole) {noted : Option Nat} {low high : Nat} {records : List Record},
      hole.Kept atomOf arena noted low records → low ≤ high →
        Rooted arena.nodes noted low high → Rooted arena.nodes arena.root 0 high
  | .first site, _, _, _, _, kept, behind, rooted => by
      obtain ⟨rest, _, inside⟩ := kept
      exact Site.rooted site inside behind rooted
  | .right site left connective, _, _, _, _, kept, behind, rooted => by
      obtain ⟨middle, first, start, rest, _, rfl, at_node, spans, inside⟩ := kept
      have bounds := spans.bounds
      -- Outwards the node of the connective is the one noted, with both of its operands below it.
      exact Site.rooted site inside (by omega)
        (rooted_binary at_node (by omega) spans.rooted rooted)
  | .negand outer, _, _, _, _, kept, behind, rooted => by
      obtain ⟨node, rest, _, rfl, at_node, inside⟩ := kept
      exact Hole.rooted outer inside (by omega) (rooted_negation at_node behind rooted)

end
end Kept

/-- What holds of a machine between two lexemes. -/
structure Machine.Steady (machine : Machine) : Prop where
  /-- The records are stacked up to the present depth. -/
  stacked : Stacked machine.arena.nodes machine.depth machine.records
  /-- The slot on top is filled just where no expression has to follow, so whenever a connective is
  read. -/
  top : ∃ top rest noted, machine.records = top :: rest ∧
    machine.arena.read? top.slot = some noted ∧ (noted.isSome = true ↔ machine.expecting = false)
  /-- Exactly one path leads from the root to each node. -/
  rooted : Rooted machine.arena.nodes machine.arena.root 0 machine.arena.nodes.size

/-- Whether the nodes of an arena are those of a formula. -/
structure Arena.Holds (arena : Arena) (formula : Formula) : Prop where
  /-- The walk from the root builds the formula. -/
  built : arena.formula? = some formula
  /-- There are as many nodes as the formula has. -/
  size_eq : formula.size = arena.nodes.size
  /-- No operand is missing. -/
  noted : ∀ entry ∈ arena.nodes, none ∉ entry.operands
  /-- Exactly one path leads from the root to each node. -/
  rooted : Rooted arena.nodes arena.root 0 arena.nodes.size

section Mirrored

variable {atomOf : String → Nat} {machine : Machine} {position : Position}

theorem Position.Mirrored.steady (mirrored : position.Mirrored atomOf machine) :
    machine.Steady := by
  cases position with
  | expecting hole =>
      obtain ⟨kept, depth_eq, waiting⟩ := mirrored
      obtain ⟨top, rest, records_eq, _, read_eq⟩ := hole.exists_top kept
      have stacked := hole.stacked kept
      rw [← depth_eq] at stacked
      exact ⟨stacked, ⟨top, rest, none, records_eq, read_eq, by simp [waiting]⟩,
        hole.rooted kept (Nat.le_refl _) rooted_none⟩
  | complete site expression =>
      obtain ⟨⟨index, low, kept, spans⟩, depth_eq, waiting⟩ := mirrored
      obtain ⟨top, rest, records_eq, _, read_eq⟩ := site.exists_top kept
      have stacked := site.stacked kept
      rw [← depth_eq] at stacked
      have bounds := spans.bounds
      exact ⟨stacked, ⟨top, rest, some index, records_eq, read_eq, by simp [waiting]⟩,
        site.rooted kept (by omega) spans.rooted⟩

/-- Where no parenthesis is open and no expression has to follow, the text is a whole expression. -/
theorem Position.Mirrored.eq_complete (mirrored : position.Mirrored atomOf machine)
    (closed : machine.depth = 0) (ready : machine.expecting = false) :
    ∃ expression, position = .complete .whole expression := by
  cases position with
  | expecting hole =>
      have waiting := mirrored.2.2
      rw [ready] at waiting
      cases waiting
  | complete site expression =>
      cases site with
      | whole => exact ⟨expression, rfl⟩
      | group outer =>
          have depth_eq : machine.depth = outer.depth + 1 := mirrored.2.1
          omega

theorem Position.Mirrored.holds {expression : Expression}
    (mirrored : (Position.complete .whole expression).Mirrored atomOf machine) :
    machine.records = [rootRecord] ∧ machine.arena.Holds (expression.formula atomOf) := by
  have built := formula?_eq mirrored
  have steady := mirrored.steady
  obtain ⟨⟨index, low, ⟨_, rfl, records_eq⟩, spans⟩, _, _⟩ := mirrored
  refine ⟨records_eq, built, ?_, ?_, steady.rooted⟩
  · have size_eq := spans.size_eq
    omega
  · intro entry member
    obtain ⟨node, inside, rfl⟩ := Array.mem_iff_getElem.mp member
    exact spans.noted (Nat.zero_le node) inside (Array.getElem?_eq_getElem inside)

end Mirrored

/-- Reading gives a machine only together with the partial derivation that it keeps. -/
theorem Machine.exists_mirrored {placed : List Placed} {machine : Machine}
    (read_eq : ({} : Machine).read? placed = some (.ok machine)) :
    ∃ (atomOf : String → Nat) (position : Position), position.Mirrored atomOf machine := by
  rcases read?_start_cases placed with
    ⟨after, reached, machine_eq, mirrored, _⟩ | ⟨fault, machine_eq, _⟩ | ⟨machine_eq, _⟩
  · rw [read_eq] at machine_eq
    cases machine_eq
    exact ⟨_, reached, mirrored⟩
  · rw [read_eq] at machine_eq
    cases machine_eq
  · rw [read_eq] at machine_eq
    cases machine_eq

/-- Reading gives a result on tokens with no more names than there are atoms. -/
theorem Machine.exists_read? {placed : List Placed} (fits : (vocabulary (tokensOf placed)).Fits) :
    ∃ outcome, ({} : Machine).read? placed = some outcome := by
  rcases read?_start_cases placed with
    ⟨after, _, machine_eq, _⟩ | ⟨fault, machine_eq, _⟩ | ⟨_, read_eq⟩
  · exact ⟨_, machine_eq⟩
  · exact ⟨_, machine_eq⟩
  · exact absurd read_eq (read?_start_ne_none fits)

/-- What is read of a text that may end is the formula in the arena. -/
theorem Machine.parse?_eq {text : String} {machine : Machine} {formula : Formula}
    (read_eq : ({} : Machine).read? (lex text) = some (.ok machine)) (closed : machine.depth = 0)
    (ready : machine.expecting = false) (built : machine.arena.formula? = some formula) :
    Grammar.parse? text = some (.ok { formula, table := machine.table }) := by
  rw [← machine_parse?_eq, Machine.parse?, read_eq]
  simp only [Machine.finish?, closed, ready, built, ne_eq, not_true, if_false, Bool.false_eq_true,
    Option.map_some]

/-- Before each lexeme of a text and behind the last one, the records and nodes are as they have to
be, and no record, slot or node has been missing: there always is a result for as many names as
there are atoms.  Where the text may end, just the record of the root is left, and the arena holds
the formula of the text. -/
theorem Machine.read?_steady (text : String) :
    (∀ front, front <+: lex text →
      ((vocabulary (tokensOf front)).count ≤ atomLimit →
        ∃ outcome, ({} : Machine).read? front = some outcome) ∧
      ∀ machine, ({} : Machine).read? front = some (.ok machine) → machine.Steady) ∧
    ∀ machine, ({} : Machine).read? (lex text) = some (.ok machine) → machine.depth = 0 →
      machine.expecting = false →
        machine.records = [rootRecord] ∧
          ∃ formula, machine.arena.Holds formula ∧
            Grammar.parse? text = some (.ok { formula, table := machine.table }) := by
  constructor
  · intro front _
    refine ⟨Machine.exists_read?, fun machine read_eq => ?_⟩
    obtain ⟨_, _, mirrored⟩ := Machine.exists_mirrored read_eq
    exact mirrored.steady
  · intro machine read_eq closed ready
    obtain ⟨_, _, mirrored⟩ := Machine.exists_mirrored read_eq
    obtain ⟨expression, rfl⟩ := mirrored.eq_complete closed ready
    obtain ⟨records_eq, holds⟩ := mirrored.holds
    exact ⟨records_eq, _, holds, Machine.parse?_eq read_eq closed ready holds.built⟩

/-- What is kept behind `!(p|`: the slots of the disjunction and of the negation around it, and the
root twice. -/
def Machine.openGroup : Machine where
  arena :=
    { nodes := #[.negation (some 2), .variable 0, .binary .or (some 1) none]
      root := some 0 }
  records :=
    [{ slot := .right 2, depth := 1, quick := false },
      { slot := .negand 0, depth := 0, quick := true }, rootRecord, rootRecord]
  depth := 1
  table := { names := #["p"] }

/-- What is kept behind `!(p|q)&p`. -/
def Machine.joinedGroup : Machine where
  arena :=
    { nodes :=
        #[.negation (some 2), .variable 0, .binary .or (some 1) (some 3), .variable 1,
          .binary .and (some 0) (some 5), .variable 0]
      root := some 4 }
  records := [rootRecord]
  table := { names := #["p", "q"] }
  expecting := false

theorem Machine.read?_steady_negatedGroup :
    (∃ front, front <+: lex "!(p|q)&p" ∧ ({} : Machine).read? front = some (.ok openGroup)) ∧
      openGroup.Steady ∧
      ({} : Machine).read? (lex "!(p|q)&p") = some (.ok joinedGroup) ∧
      joinedGroup.records = [rootRecord] ∧
      ∃ formula, joinedGroup.arena.Holds formula ∧
        Grammar.parse? "!(p|q)&p" = some (.ok { formula, table := joinedGroup.table }) := by
  have begins : (lex "!(p|q)&p").take 4 <+: lex "!(p|q)&p" := List.take_prefix 4 _
  have opened : ({} : Machine).read? ((lex "!(p|q)&p").take 4) = some (.ok openGroup) := by
    with_unfolding_all rfl
  have joined : ({} : Machine).read? (lex "!(p|q)&p") = some (.ok joinedGroup) := by
    with_unfolding_all rfl
  obtain ⟨always, ends⟩ := Machine.read?_steady "!(p|q)&p"
  exact ⟨⟨_, begins, opened⟩, (always _ begins).2 openGroup opened, joined,
    ends joinedGroup joined rfl rfl⟩

end Grammar
end PropSat
