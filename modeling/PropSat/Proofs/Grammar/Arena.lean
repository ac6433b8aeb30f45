import PropSat.Grammar.Arena
import PropSat.Proofs.Grammar.Reading

/-!
# The arena follows partial derivations

A formula that was read takes up consecutive nodes of the arena, and the records on the stack lead
from the innermost hole of the partial derivation out to the root, each one's node being noted in
the slot of the next.  So every slot that is read or written has a node of its kind, no record is
missing when one is looked at, and the walk over a finished arena finds every operand.
-/

namespace PropSat
namespace Grammar

/-- Whether a formula takes up the nodes from `low` up to `high`, the outermost one at `index`. -/
def Spans (nodes : Array Node) : Formula → Nat → Nat → Nat → Prop
  | .var atom, low, high, index =>
      index = low ∧ high = low + 1 ∧ nodes[low]? = some (.variable atom)
  | .neg inner, low, high, index =>
      index = low ∧
        ∃ operand, nodes[low]? = some (.negation (some operand)) ∧
          Spans nodes inner (low + 1) high operand
  | .bin connective left right, low, high, index =>
      ∃ first second, nodes[index]? = some (.binary connective (some first) (some second)) ∧
        Spans nodes left low index first ∧ Spans nodes right (index + 1) high second

namespace Spans

variable {nodes after : Array Node} {formula : Formula} {low high index : Nat}

theorem bounds (spans : Spans nodes formula low high index) : low ≤ index ∧ index < high := by
  induction formula generalizing low high index with
  | var atom =>
      obtain ⟨rfl, rfl, _⟩ := spans
      omega
  | neg inner induction =>
      obtain ⟨rfl, operand, _, inside⟩ := spans
      have bounds := induction inside
      omega
  | bin connective left right left_induction right_induction =>
      obtain ⟨first, second, _, left_inside, right_inside⟩ := spans
      have left_bounds := left_induction left_inside
      have right_bounds := right_induction right_inside
      omega

/-- Only the nodes that a formula takes up matter. -/
theorem frame (spans : Spans nodes formula low high index)
    (agree : ∀ node, low ≤ node → node < high → after[node]? = nodes[node]?) :
    Spans after formula low high index := by
  have whole_bounds := spans.bounds
  induction formula generalizing low high index with
  | var atom =>
      obtain ⟨rfl, rfl, at_node⟩ := spans
      exact ⟨rfl, rfl, by rw [agree index (by omega) (by omega), at_node]⟩
  | neg inner induction =>
      obtain ⟨rfl, operand, at_node, inside⟩ := spans
      refine ⟨rfl, operand, by rw [agree index (by omega) (by omega), at_node], ?_⟩
      exact induction inside (fun node above below => agree node (by omega) below) inside.bounds
  | bin connective left right left_induction right_induction =>
      obtain ⟨first, second, at_node, left_inside, right_inside⟩ := spans
      refine ⟨first, second, by rw [agree index (by omega) (by omega), at_node], ?_, ?_⟩
      · exact left_induction left_inside (fun node above below => agree node above (by omega))
          left_inside.bounds
      · exact right_induction right_inside (fun node above below => agree node (by omega) below)
          right_inside.bounds

/-- The walk over the nodes of a formula enters each of them and builds the formula. -/
theorem build?_enter (spans : Spans nodes formula low high index) (ahead : Nat)
    (visits : List Arena.Visit) (built : List Formula) :
    Arena.build? nodes (high - low + ahead) (.enter index :: visits) built =
      Arena.build? nodes ahead visits (formula :: built) := by
  induction formula generalizing low high index ahead visits built with
  | var atom =>
      obtain ⟨rfl, rfl, at_node⟩ := spans
      have entered : index + 1 - index + ahead = ahead + 1 := by omega
      rw [entered, Arena.build?, at_node]
  | neg inner induction =>
      obtain ⟨rfl, operand, at_node, inside⟩ := spans
      have bounds := inside.bounds
      have entered : high - index + ahead = high - (index + 1) + ahead + 1 := by omega
      rw [entered, Arena.build?, at_node]
      simp only
      rw [induction inside, Arena.build?, at_node]
      rfl
  | bin connective left right left_induction right_induction =>
      obtain ⟨first, second, at_node, left_inside, right_inside⟩ := spans
      have left_bounds := left_inside.bounds
      have right_bounds := right_inside.bounds
      have entered : high - low + ahead =
          index - low + (high - (index + 1) + ahead) + 1 := by omega
      rw [entered, Arena.build?, at_node]
      simp only
      rw [left_induction left_inside, right_induction right_inside, Arena.build?, at_node]
      rfl

end Spans

/-- The record that the root stands in. -/
def rootRecord : Record := { slot := .root, depth := 0, quick := false }

/-- The record that is closed with the first operand of the whole. -/
def Site.spareRecords : Site → List Record
  | .whole => [rootRecord]
  | .group _ => []

mutual

/-- Whether an arena and records keep a place for an expression, with the given node noted in the
slot of the place, and `low` the first node that the expression may take up. -/
def Site.Kept (atomOf : String → Nat) (arena : Arena) :
    Site → Option Nat → Nat → List Record → Prop
  | .whole, noted, low, records => arena.root = noted ∧ low = 0 ∧ records = [rootRecord]
  | .group outer, noted, low, records => outer.Kept atomOf arena noted low records

/-- Whether an arena and records keep a place for an operand. -/
def Hole.Kept (atomOf : String → Nat) (arena : Arena) :
    Hole → Option Nat → Nat → List Record → Prop
  | .first site, noted, low, records =>
      ∃ rest, records = site.spareRecords ++ rest ∧ site.Kept atomOf arena noted low rest
  | .right site left connective, noted, low, records =>
      ∃ middle first start rest,
        records = { slot := .right middle, depth := site.depth, quick := false } :: rest ∧
          low = middle + 1 ∧ arena.nodes[middle]? = some (.binary connective (some first) noted) ∧
          Spans arena.nodes (left.formula atomOf) start middle first ∧
          site.Kept atomOf arena (some middle) start rest
  | .negand outer, noted, low, records =>
      ∃ node rest,
        records = { slot := .negand node, depth := outer.depth, quick := true } :: rest ∧
          low = node + 1 ∧ arena.nodes[node]? = some (.negation noted) ∧
          outer.Kept atomOf arena (some node) node rest

end

section Kept

variable {atomOf : String → Nat} {arena after : Arena}

mutual

theorem Site.kept_frame :
    ∀ (site : Site) {noted : Option Nat} {low : Nat} {records : List Record},
      site.Kept atomOf arena noted low records →
        (∀ node < low, after.nodes[node]? = arena.nodes[node]?) → after.root = arena.root →
          site.Kept atomOf after noted low records
  | .whole, _, _, _, kept, _, root_eq => ⟨root_eq.trans kept.1, kept.2⟩
  | .group outer, _, _, _, kept, agree, root_eq => Hole.kept_frame outer kept agree root_eq

/-- Only the root and the nodes below matter to what keeps a place. -/
theorem Hole.kept_frame :
    ∀ (hole : Hole) {noted : Option Nat} {low : Nat} {records : List Record},
      hole.Kept atomOf arena noted low records →
        (∀ node < low, after.nodes[node]? = arena.nodes[node]?) → after.root = arena.root →
          hole.Kept atomOf after noted low records
  | .first site, _, _, _, kept, agree, root_eq => by
      obtain ⟨rest, records_eq, inside⟩ := kept
      exact ⟨rest, records_eq, Site.kept_frame site inside agree root_eq⟩
  | .right site left connective, _, _, _, kept, agree, root_eq => by
      obtain ⟨middle, first, start, rest, records_eq, rfl, at_node, spans, inside⟩ := kept
      have bounds := spans.bounds
      refine ⟨middle, first, start, rest, records_eq, rfl, ?_, ?_, ?_⟩
      · rw [agree middle (by omega), at_node]
      · exact spans.frame fun node _ below => agree node (by omega)
      · exact Site.kept_frame site inside (fun node below => agree node (by omega)) root_eq
  | .negand outer, _, _, _, kept, agree, root_eq => by
      obtain ⟨node, rest, records_eq, rfl, at_node, inside⟩ := kept
      refine ⟨node, rest, records_eq, rfl, ?_, ?_⟩
      · rw [agree node (by omega), at_node]
      · exact Hole.kept_frame outer inside (fun other below => agree other (by omega)) root_eq

end

mutual

theorem Site.exists_top :
    ∀ (site : Site) {noted : Option Nat} {low : Nat} {records : List Record},
      site.Kept atomOf arena noted low records →
        ∃ top rest, records = top :: rest ∧ top.depth ≤ site.depth ∧
          arena.read? top.slot = some noted
  | .whole, _, _, _, kept => ⟨rootRecord, [], kept.2.2, Nat.le_refl 0, by rw [← kept.1]; rfl⟩
  | .group outer, _, _, _, kept => by
      obtain ⟨top, rest, records_eq, shallow, read_eq⟩ := Hole.exists_top outer kept
      exact ⟨top, rest, records_eq, Nat.le_succ_of_le shallow, read_eq⟩

/-- There is always a record on top, made no deeper than the place it leads to, and its slot holds
what is noted there. -/
theorem Hole.exists_top :
    ∀ (hole : Hole) {noted : Option Nat} {low : Nat} {records : List Record},
      hole.Kept atomOf arena noted low records →
        ∃ top rest, records = top :: rest ∧ top.depth ≤ hole.depth ∧
          arena.read? top.slot = some noted
  | .first .whole, _, _, _, kept => by
      obtain ⟨rest, rfl, root_eq, _⟩ := kept
      exact ⟨rootRecord, rest, rfl, Nat.le_refl 0, by rw [← root_eq]; rfl⟩
  | .first (.group outer), _, _, _, kept => by
      obtain ⟨rest, rfl, inside⟩ := kept
      exact Site.exists_top (.group outer) inside
  | .right site left connective, _, _, _, kept => by
      obtain ⟨middle, first, start, rest, rfl, rfl, at_node, _⟩ := kept
      exact ⟨_, rest, rfl, Nat.le_refl _, by rw [Arena.read?, at_node]⟩
  | .negand outer, _, _, _, kept => by
      obtain ⟨node, rest, rfl, rfl, at_node, _⟩ := kept
      exact ⟨_, rest, rfl, Nat.le_refl _, by rw [Arena.read?, at_node]⟩

end

/-- Whether a write changed only nodes below a bound, and what the top record's slot holds. -/
structure Written (arena : Arena) (top : Record) (index low : Nat) (after : Arena) : Prop where
  /-- The write succeeds. -/
  write_eq : arena.write? top.slot index = some after
  /-- No node is added or lost. -/
  size_eq : after.nodes.size = arena.nodes.size
  /-- The nodes that are free to be taken up are unchanged. -/
  agree : ∀ node, low ≤ node → after.nodes[node]? = arena.nodes[node]?

/-- Arena in which a node is replaced. -/
def Arena.setNode (arena : Arena) (node : Nat) (entry : Node) : Arena :=
  { arena with nodes := arena.nodes.setIfInBounds node entry }

theorem Arena.setNode_ne {node other : Nat} {entry : Node} (different : node ≠ other) :
    (arena.setNode node entry).nodes[other]? = arena.nodes[other]? :=
  Array.getElem?_setIfInBounds_ne different

theorem Arena.setNode_self {node : Nat} {old entry : Node}
    (at_node : arena.nodes[node]? = some old) :
    (arena.setNode node entry).nodes[node]? = some entry :=
  Array.getElem?_setIfInBounds_self_of_lt (Array.getElem?_eq_some_iff.mp at_node).1

theorem Written.of_setNode {top : Record} {index node : Nat} {entry : Node}
    (write_eq : arena.write? top.slot index = some (arena.setNode node entry)) :
    Written arena top index (node + 1) (arena.setNode node entry) where
  write_eq := write_eq
  size_eq := Array.size_setIfInBounds
  agree := fun _ beyond => Arena.setNode_ne (by omega)

mutual

theorem Site.exists_written (index : Nat) :
    ∀ (site : Site) {noted : Option Nat} {low : Nat} {records : List Record},
      site.Kept atomOf arena noted low records →
        ∃ top rest after, records = top :: rest ∧ Written arena top index low after ∧
          site.Kept atomOf after (some index) low records
  | .whole, _, _, _, kept =>
      ⟨rootRecord, [], { arena with root := some index }, kept.2.2, ⟨rfl, rfl, fun _ _ => rfl⟩,
        rfl, kept.2⟩
  | .group outer, _, _, _, kept => Hole.exists_written index outer kept

/-- Noting a node in the slot of the top record keeps the place. -/
theorem Hole.exists_written (index : Nat) :
    ∀ (hole : Hole) {noted : Option Nat} {low : Nat} {records : List Record},
      hole.Kept atomOf arena noted low records →
        ∃ top rest after, records = top :: rest ∧ Written arena top index low after ∧
          hole.Kept atomOf after (some index) low records
  | .first .whole, _, _, _, kept => by
      obtain ⟨rest, rfl, inside⟩ := kept
      exact ⟨rootRecord, _, { arena with root := some index }, rfl, ⟨rfl, rfl, fun _ _ => rfl⟩,
        _, rfl, rfl, inside.2⟩
  | .first (.group outer), _, _, _, kept => by
      obtain ⟨rest, rfl, inside⟩ := kept
      obtain ⟨top, below, after, records_eq, written, kept⟩ :=
        Site.exists_written index (.group outer) inside
      exact ⟨top, below, after, records_eq, written, _, rfl, kept⟩
  | .right site left connective, _, _, _, kept => by
      obtain ⟨middle, first, start, rest, rfl, rfl, at_node, spans, inside⟩ := kept
      have bounds := spans.bounds
      refine ⟨_, _, arena.setNode middle (.binary connective (some first) (some index)), rfl,
        .of_setNode (by rw [Arena.write?, at_node]; rfl), middle, first, start, rest, rfl, rfl,
        Arena.setNode_self at_node, ?_, ?_⟩
      · exact spans.frame fun node _ below => Arena.setNode_ne (by omega)
      · exact Site.kept_frame site inside (fun node below => Arena.setNode_ne (by omega)) rfl
  | .negand outer, _, _, _, kept => by
      obtain ⟨node, rest, rfl, rfl, at_node, inside⟩ := kept
      refine ⟨_, _, arena.setNode node (.negation (some index)), rfl,
        .of_setNode (by rw [Arena.write?, at_node]; rfl), node, rest, rfl, rfl,
        Arena.setNode_self at_node, ?_⟩
      exact Hole.kept_frame outer inside (fun other below => Arena.setNode_ne (by omega)) rfl

end

/-- Completing an operand closes the records of the holes that it completes. -/
theorem exists_closed :
    ∀ (hole : Hole) (operand : Operand) {index low high : Nat} {records : List Record},
      hole.Kept atomOf arena (some index) low records →
        Spans arena.nodes (operand.formula atomOf) low high index →
          ∃ rest site expression outermost start,
            closeAt? hole.depth records = some rest ∧
              Position.close hole operand = .complete site expression ∧ site.depth = hole.depth ∧
              site.Kept atomOf arena (some outermost) start rest ∧
              Spans arena.nodes (expression.formula atomOf) start high outermost
  | .first .whole, operand, index, low, _, _, kept, spans => by
      obtain ⟨rest, rfl, inside⟩ := kept
      exact ⟨rest, .whole, .operand operand, index, low, rfl, rfl, rfl, inside, spans⟩
  | .first (.group outer), operand, index, low, _, _, kept, spans => by
      obtain ⟨rest, rfl, inside⟩ := kept
      obtain ⟨top, below, rfl, shallow, _⟩ := Hole.exists_top outer inside
      refine ⟨top :: below, .group outer, .operand operand, index, low, ?_, rfl, rfl, inside,
        spans⟩
      have deeper : ¬ outer.depth + 1 ≤ top.depth := by omega
      simp only [Hole.depth, Site.depth, closeAt?, deeper, if_false]
  | .right site left connective, operand, index, _, _, _, kept, spans => by
      obtain ⟨middle, first, start, rest, rfl, rfl, at_node, left_spans, inside⟩ := kept
      refine ⟨rest, site, .chain left connective operand, middle, start, ?_, rfl, rfl, inside,
        first, index, at_node, left_spans, spans⟩
      simp [closeAt?, Hole.depth]
  | .negand outer, operand, index, _, high, _, kept, spans => by
      obtain ⟨node, rest, rfl, rfl, at_node, inside⟩ := kept
      have negated : Spans arena.nodes ((Operand.not operand).formula atomOf) node high node :=
        ⟨rfl, index, at_node, spans⟩
      obtain ⟨remaining, site, expression, outermost, start, close_eq, rest_eq⟩ :=
        exists_closed outer (.not operand) inside negated
      refine ⟨remaining, site, expression, outermost, start, ?_, rest_eq⟩
      simpa [closeAt?, Hole.depth] using close_eq

/-- Whether a node was added, noted in a slot, and changed only nodes below a bound. -/
structure Extended (arena : Arena) (top : Record) (node : Node) (low : Nat) (after : Arena) :
    Prop where
  /-- The node can be placed. -/
  place_eq : arena.place? top.slot node = some after
  /-- There is one node more. -/
  size_eq : after.nodes.size = arena.nodes.size + 1
  /-- The node is the last one. -/
  at_end : after.nodes[arena.nodes.size]? = some node
  /-- The other nodes that are taken up are unchanged. -/
  agree : ∀ other, low ≤ other → other < arena.nodes.size →
    after.nodes[other]? = arena.nodes[other]?

theorem getElem?_push_lt {node : Node} {other : Nat} (below : other < arena.nodes.size) :
    (arena.nodes.push node)[other]? = arena.nodes[other]? := by
  rw [Array.getElem?_push, if_neg (by omega)]

theorem Extended.of_written {top : Record} {node : Node} {low : Nat}
    (low_le : low ≤ arena.nodes.size)
    (written :
      Written { arena with nodes := arena.nodes.push node } top arena.nodes.size low after) :
    Extended arena top node low after where
  place_eq := written.write_eq
  size_eq := written.size_eq.trans (Array.size_push node)
  at_end := (written.agree _ low_le).trans Array.getElem?_push_size
  agree := fun other above below => (written.agree other above).trans (getElem?_push_lt below)

theorem Hole.exists_extended {hole : Hole} {noted : Option Nat} {low : Nat} {records : List Record}
    (kept : hole.Kept atomOf arena noted low records) (low_le : low ≤ arena.nodes.size)
    (node : Node) :
    ∃ top rest after, records = top :: rest ∧ Extended arena top node low after ∧
      hole.Kept atomOf after (some arena.nodes.size) low records := by
  have pushed : hole.Kept atomOf { arena with nodes := arena.nodes.push node } noted low records :=
    hole.kept_frame kept (fun other below => getElem?_push_lt (by omega)) rfl
  obtain ⟨top, rest, after, records_eq, written, kept⟩ :=
    hole.exists_written arena.nodes.size pushed
  exact ⟨top, rest, after, records_eq, .of_written low_le written, kept⟩

theorem Site.exists_extended {site : Site} {noted : Option Nat} {low : Nat} {records : List Record}
    (kept : site.Kept atomOf arena noted low records) (low_le : low ≤ arena.nodes.size)
    (node : Node) :
    ∃ top rest after, records = top :: rest ∧ Extended arena top node low after ∧
      site.Kept atomOf after (some arena.nodes.size) low records := by
  have pushed : site.Kept atomOf { arena with nodes := arena.nodes.push node } noted low records :=
    site.kept_frame kept (fun other below => getElem?_push_lt (by omega)) rfl
  obtain ⟨top, rest, after, records_eq, written, kept⟩ :=
    site.exists_written arena.nodes.size pushed
  exact ⟨top, rest, after, records_eq, .of_written low_le written, kept⟩

end Kept

/-- Whether a machine keeps a partial derivation. -/
def Position.Mirrored (atomOf : String → Nat) (machine : Machine) : Position → Prop
  | expecting hole =>
      hole.Kept atomOf machine.arena none machine.arena.nodes.size machine.records ∧
        machine.depth = hole.depth ∧ machine.expecting = true
  | complete site expression =>
      (∃ index low, site.Kept atomOf machine.arena (some index) low machine.records ∧
        Spans machine.arena.nodes (expression.formula atomOf) low machine.arena.nodes.size index) ∧
        machine.depth = site.depth ∧ machine.expecting = false

section Steps

variable {atomOf : String → Nat} {machine : Machine}

/-- Completing an operand never runs out of records. -/
theorem exists_close? {hole : Hole} {operand : Operand} {index low : Nat}
    (kept : hole.Kept atomOf machine.arena (some index) low machine.records)
    (spans : Spans machine.arena.nodes (operand.formula atomOf) low machine.arena.nodes.size index)
    (depth_eq : machine.depth = hole.depth) (completed : machine.expecting = false) :
    ∃ after, machine.close? = some after ∧ (Position.close hole operand).Mirrored atomOf after ∧
      after.table = machine.table := by
  obtain ⟨records, site, expression, outermost, start, close_eq, position_eq, site_depth, kept,
    spans⟩ := exists_closed hole operand kept spans
  refine ⟨{ machine with records }, ?_, ?_, rfl⟩
  · rw [Machine.close?, depth_eq, close_eq, Option.map_some]
  · rw [position_eq]
    exact ⟨⟨outermost, start, kept, spans⟩, depth_eq.trans site_depth.symm, completed⟩

theorem place?_eq {arena : Arena} {top : Record} {rest : List Record} {node : Node}
    (records_eq : machine.records = top :: rest)
    (place_eq : machine.arena.place? top.slot node = some arena) :
    machine.place? node = some { machine with arena } := by
  rw [Machine.place?, records_eq]
  simp only [place_eq, Option.map_some]

theorem exists_readName? {hole : Hole} {name : String} {table : AtomTable}
    (mirrored : (Position.expecting hole).Mirrored atomOf machine)
    (interned : machine.table.intern name = (.ok (atomOf name), table)) :
    ∃ after, machine.readName? name = some after ∧
      (Position.close hole (.name name)).Mirrored atomOf after ∧ after.table = table := by
  obtain ⟨kept, depth_eq, _⟩ := mirrored
  obtain ⟨top, rest, arena, records_eq, extended, kept⟩ :=
    Hole.exists_extended kept (Nat.le_refl _) (.variable (atomOf name))
  have spans : Spans arena.nodes ((Operand.name name).formula atomOf) machine.arena.nodes.size
      arena.nodes.size machine.arena.nodes.size :=
    ⟨rfl, extended.size_eq, extended.at_end⟩
  let named : Machine := { machine with table }
  have placed : named.place? (.variable (atomOf name)) = some { named with arena } :=
    place?_eq records_eq extended.place_eq
  simp only [Machine.readName?, interned]
  rw [placed]
  exact exists_close? kept spans depth_eq rfl

theorem exists_negation {hole : Hole}
    (mirrored : (Position.expecting hole).Mirrored atomOf machine) :
    ∃ after, machine.place? (.negation none) = some after ∧
      (Position.expecting (.negand hole)).Mirrored atomOf (after.await .negand true) ∧
      after.table = machine.table := by
  obtain ⟨kept, depth_eq, _⟩ := mirrored
  obtain ⟨top, rest, arena, records_eq, extended, kept⟩ :=
    Hole.exists_extended kept (Nat.le_refl _) (.negation none)
  refine ⟨_, place?_eq records_eq extended.place_eq, ⟨?_, depth_eq, rfl⟩, rfl⟩
  refine ⟨machine.arena.nodes.size, machine.records, ?_, extended.size_eq, extended.at_end, kept⟩
  simp only [Machine.await, extended.size_eq, Nat.add_sub_cancel, depth_eq]

/-- The expression in a parenthesis that is closed completes the operand that it was begun for. -/
theorem exists_closeGroup? {outer : Hole} {expression : Expression}
    (mirrored : (Position.complete (.group outer) expression).Mirrored atomOf machine) :
    ∃ after, ({ machine with depth := outer.depth, expecting := false } : Machine).close? =
        some after ∧
      (Position.close outer (.group expression)).Mirrored atomOf after ∧
      after.table = machine.table := by
  obtain ⟨⟨index, low, kept, spans⟩, _, _⟩ := mirrored
  let outside : Machine := { machine with depth := outer.depth, expecting := false }
  have closed : ∃ after, outside.close? = some after ∧
      (Position.close outer (.group expression)).Mirrored atomOf after ∧
        after.table = outside.table :=
    exists_close? kept spans rfl rfl
  exact closed

/-- The innermost slot is filled whenever a connective is read. -/
theorem exists_readConnective? {site : Site} {expression : Expression}
    (mirrored : (Position.complete site expression).Mirrored atomOf machine)
    (connective : Connective) :
    ∃ after, machine.readConnective? connective = some after ∧
      (Position.expecting (.right site expression connective)).Mirrored atomOf after ∧
      after.table = machine.table := by
  obtain ⟨⟨index, low, kept, spans⟩, depth_eq, _⟩ := mirrored
  have bounds := spans.bounds
  obtain ⟨top, rest, records_eq, _, read_eq⟩ := Site.exists_top site kept
  obtain ⟨same_top, same_rest, arena, same_records, extended, kept⟩ :=
    Site.exists_extended kept (by omega) (.binary connective (some index) none)
  rw [records_eq, List.cons.injEq] at same_records
  obtain ⟨rfl, rfl⟩ := same_records
  have placed := place?_eq records_eq extended.place_eq
  refine ⟨({ machine with arena } : Machine).await .right false, ?_, ⟨?_, depth_eq, rfl⟩, rfl⟩
  · rw [Machine.readConnective?, records_eq]
    simp only [read_eq, placed, Option.map_some, records_eq]
  · refine ⟨machine.arena.nodes.size, index, low, machine.records, ?_, extended.size_eq,
      extended.at_end, spans.frame extended.agree, kept⟩
    simp only [Machine.await, extended.size_eq, Nat.add_sub_cancel, depth_eq]

/-- Read a token that extends the partial derivation. -/
theorem exists_accept? {final : AtomTable} (distinct : final.Distinct) {position next : Position}
    {token : Token} (mirrored : position.Mirrored (atomIn final) machine)
    (stepped : position.step? token = some next)
    (fits : (machine.table.includingAll (names [token])).Fits)
    (below : (machine.table.includingAll (names [token])).Below final) (place : Nat) :
    ∃ after, machine.accept? { position := place, lexeme := .token token } = some (.ok after) ∧
      next.Mirrored (atomIn final) after ∧
      after.table = machine.table.includingAll (names [token]) := by
  cases position with
  | expecting hole =>
      have waiting := mirrored.2.2
      cases token with
      | name text =>
          cases stepped
          obtain ⟨atom, named, interned⟩ := AtomTable.exists_intern fits
          have atom_eq : atomIn final text = atom := atomIn_eq distinct (below.name? named)
          rw [← atom_eq] at interned
          obtain ⟨after, name_eq, mirrored, table_eq⟩ := exists_readName? mirrored interned
          refine ⟨after, ?_, mirrored, table_eq⟩
          simp only [Machine.accept?, waiting, name_eq, Option.map_some]
      | not =>
          cases stepped
          obtain ⟨after, place_eq, mirrored, table_eq⟩ := exists_negation mirrored
          refine ⟨_, ?_, mirrored, table_eq⟩
          simp only [Machine.accept?, waiting, place_eq, Option.map_some]
      | leftParen =>
          cases stepped
          obtain ⟨kept, depth_eq, _⟩ := mirrored
          refine ⟨{ machine with depth := machine.depth + 1 }, ?_, ⟨?_, ?_, waiting⟩, rfl⟩
          · simp only [Machine.accept?, waiting]
          · exact ⟨machine.records, rfl, kept⟩
          · exact congrArg (· + 1) depth_eq
      | rightParen => cases stepped
      | connective connective => cases stepped
  | complete site expression =>
      have waiting := mirrored.2.2
      cases token with
      | name text => cases site <;> cases stepped
      | not => cases site <;> cases stepped
      | leftParen => cases site <;> cases stepped
      | rightParen =>
          cases site with
          | whole => cases stepped
          | group outer =>
              cases stepped
              have depth_eq := mirrored.2.1
              obtain ⟨after, close_eq, mirrored, table_eq⟩ := exists_closeGroup? mirrored
              refine ⟨after, ?_, mirrored, table_eq⟩
              simp only [Machine.accept?, waiting, depth_eq, Site.depth]
              rw [close_eq, Option.map_some]
      | connective connective =>
          have next_eq : next = .expecting (.right site expression connective) := by
            cases site <;> cases stepped <;> rfl
          subst next_eq
          obtain ⟨after, connective_eq, mirrored, table_eq⟩ :=
            exists_readConnective? mirrored connective
          refine ⟨after, ?_, mirrored, table_eq⟩
          simp only [Machine.accept?, waiting, connective_eq, Option.map_some]

/-- A lexeme that the reader refuses is refused with the same fault. -/
theorem accept?_of_error {table : AtomTable} {position : Position} {placed : Placed}
    {fault : SyntaxFault} (mirrored : position.Mirrored atomOf machine)
    (failed : (position.state atomOf table).accept? placed = some (.error fault)) :
    machine.accept? placed = some (.error fault) := by
  obtain ⟨place, lexeme⟩ := placed
  cases position with
  | expecting hole =>
      have waiting := mirrored.2.2
      cases lexeme with
      | stray stray =>
          cases failed
          simp only [Machine.accept?, waiting]
      | token token =>
          cases token with
          | name text =>
              simp only [State.accept?, Position.state] at failed
              split at failed <;> cases failed
          | not | leftParen => cases failed
          | rightParen | connective =>
              cases failed
              simp only [Machine.accept?, waiting]
  | complete site expression =>
      obtain ⟨_, depth_eq, waiting⟩ := mirrored
      cases lexeme with
      | stray stray =>
          cases failed
          simp only [Machine.accept?, waiting]
      | token token =>
          cases token with
          | rightParen =>
              cases site with
              | whole =>
                  cases failed
                  simp only [Machine.accept?, waiting, depth_eq, Site.depth]
              | group outer => cases failed
          | name | not | leftParen =>
              cases failed
              simp only [Machine.accept?, waiting]
          | connective connective => cases failed

/-- The machine breaks off at a name that fits if there is no atom left for it. -/
theorem accept?_eq_none {position next : Position} {token : Token}
    (mirrored : position.Mirrored atomOf machine) (stepped : position.step? token = some next)
    (fits : machine.table.Fits) (full : ¬ (machine.table.includingAll (names [token])).Fits)
    (place : Nat) : machine.accept? { position := place, lexeme := .token token } = none := by
  cases token with
  | name text =>
      cases position with
      | expecting hole =>
          have waiting := mirrored.2.2
          simp only [Machine.accept?, waiting, Machine.readName?,
            AtomTable.intern_of_not_fits fits full, Option.map_none]
      | complete site expression => cases site <;> cases stepped
  | not | leftParen | rightParen | connective => exact absurd fits full

end Steps

/-- The machine reads what the reader reads, fails where the reader fails, and breaks off where the
reader breaks off. -/
theorem read?_cases {final : AtomTable} (distinct : final.Distinct) {position : Position}
    {machine : Machine} (mirrored : position.Mirrored (atomIn final) machine)
    (fits : machine.table.Fits) {placed : List Placed}
    (below : (machine.table.includingAll (names (tokensOf placed))).Below final) :
    (∃ (after : Machine) (reached : Position), machine.read? placed = some (.ok after) ∧
        reached.Mirrored (atomIn final) after ∧
        (position.state (atomIn final) machine.table).read? placed =
          some (.ok (reached.state (atomIn final) after.table))) ∨
      (∃ fault, machine.read? placed = some (.error fault) ∧
        (position.state (atomIn final) machine.table).read? placed = some (.error fault)) ∨
      (machine.read? placed = none ∧
        (position.state (atomIn final) machine.table).read? placed = none) := by
  induction placed generalizing position machine with
  | nil => exact .inl ⟨machine, position, rfl, mirrored, rfl⟩
  | cons head rest induction =>
      rw [State.read?, Machine.read?]
      rw [names_tokensOf_cons, AtomTable.includingAll_append] at below
      have head_below := (AtomTable.below_includingAll _ _).trans below
      rcases accept?_cases distinct position fits head head_below with
        ⟨token, next, is_token, stepped, token_fits, accepted⟩ | ⟨fault, _, refused⟩ |
          ⟨token, next, is_token, stepped, full, broken_off⟩
      · rw [tokensOf_singleton is_token] at below head_below
        obtain ⟨place, lexeme⟩ := head
        cases is_token
        obtain ⟨after, accept_eq, mirrored, table_eq⟩ :=
          exists_accept? distinct mirrored stepped token_fits head_below place
        rw [← table_eq] at below token_fits
        rw [accepted, accept_eq, ← table_eq]
        exact induction mirrored token_fits below
      · rw [refused, accept?_of_error mirrored refused]
        exact .inr (.inl ⟨fault, rfl, rfl⟩)
      · obtain ⟨place, lexeme⟩ := head
        cases is_token
        rw [broken_off, accept?_eq_none mirrored stepped fits full place]
        exact .inr (.inr ⟨rfl, rfl⟩)

theorem mirrored_start (atomOf : String → Nat) : Position.start.Mirrored atomOf {} :=
  ⟨⟨[rootRecord], rfl, rfl, rfl, rfl⟩, rfl, rfl⟩

/-- Behind a whole expression the arena holds its formula. -/
theorem formula?_eq {atomOf : String → Nat} {machine : Machine} {expression : Expression}
    (mirrored : (Position.complete .whole expression).Mirrored atomOf machine) :
    machine.arena.formula? = some (expression.formula atomOf) := by
  obtain ⟨⟨index, low, kept, spans⟩, _, _⟩ := mirrored
  have root_eq : machine.arena.root = some index := kept.1
  have low_eq : low = 0 := kept.2.1
  have entered : machine.arena.nodes.size = machine.arena.nodes.size - low + 0 := by omega
  rw [Arena.formula?, root_eq]
  simp only
  rw [entered, spans.build?_enter, Arena.build?]
  rfl

theorem finish?_eq {atomOf : String → Nat} {machine : Machine} {position : Position} {length : Nat}
    (mirrored : position.Mirrored atomOf machine) :
    machine.finish? length = some ((position.state atomOf machine.table).finish length) := by
  cases position with
  | expecting hole =>
      obtain ⟨_, depth_eq, waiting⟩ := mirrored
      rw [Machine.finish?, State.finish, Position.state, depth_eq, waiting]
      split <;> rfl
  | complete site expression =>
      cases site with
      | whole =>
          have formula_eq := formula?_eq mirrored
          obtain ⟨_, depth_eq, waiting⟩ := mirrored
          rw [Machine.finish?, State.finish, Position.state, depth_eq, waiting, formula_eq]
          rfl
      | group outer =>
          obtain ⟨_, depth_eq, _⟩ := mirrored
          rw [Machine.finish?, State.finish, Position.state, depth_eq]
          rfl

/-- From the start, the machine reads what the reader reads, fails where the reader fails, and breaks
off where the reader breaks off. -/
theorem read?_start_cases (placed : List Placed) :
    (∃ (after : Machine) (reached : Position), ({} : Machine).read? placed = some (.ok after) ∧
        reached.Mirrored (atomIn (vocabulary (tokensOf placed))) after ∧
        ({} : State).read? placed =
          some (.ok (reached.state (atomIn (vocabulary (tokensOf placed))) after.table))) ∨
      (∃ fault, ({} : Machine).read? placed = some (.error fault) ∧
        ({} : State).read? placed = some (.error fault)) ∨
      (({} : Machine).read? placed = none ∧ ({} : State).read? placed = none) :=
  read?_cases (distinct_vocabulary _) (mirrored_start _) fits_empty (below_vocabulary _)

/-- Reading into an arena gives the result of the reader, on every text for which it gives one. -/
theorem machine_parse?_eq (text : String) : Machine.parse? text = parse? text := by
  rw [Machine.parse?, parse?]
  rcases read?_start_cases (lex text) with
    ⟨after, reached, machine_eq, mirrored, read_eq⟩ | ⟨fault, machine_eq, read_eq⟩ |
      ⟨machine_eq, read_eq⟩
  · rw [machine_eq, read_eq]
    exact finish?_eq mirrored
  · rw [machine_eq, read_eq]
  · rw [machine_eq, read_eq]

end Grammar
end PropSat
