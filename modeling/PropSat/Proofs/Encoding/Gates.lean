import PropSat.Encoding.Gate
import PropSat.Proofs.Decimal
import PropSat.Proofs.Satisfaction

/-!
# What gates say

With a clause for each row of the truth table, the clauses of a gate hold exactly when its output
has the value that the definition gives it.  The key of a gate determines the gate, so a set of
gates loses none that is put into it.
-/

namespace PropSat
namespace Literal

/-- Truth value of a literal under an assignment. -/
def value (assignment : Assignment) (literal : Literal) : Bool :=
  assignment literal.atom == literal.polarity

theorem holds_iff_value {assignment : Assignment} {literal : Literal} :
    literal.Holds assignment ↔ literal.value assignment = true := by
  rw [Holds, value, beq_iff_eq]

@[simp]
theorem value_negate (assignment : Assignment) (literal : Literal) :
    literal.negate.value assignment = !literal.value assignment := by
  rw [value, value, negate]
  cases assignment literal.atom <;> cases literal.polarity <;> rfl

@[simp]
theorem value_positive (assignment : Assignment) (atom : Nat) :
    (positive atom).value assignment = assignment atom := by
  rw [value, positive]
  cases assignment atom <;> rfl

@[simp]
theorem value_negative (assignment : Assignment) (atom : Nat) :
    (negative atom).value assignment = !assignment atom := by
  rw [value, negative]
  cases assignment atom <;> rfl

end Literal

namespace Clause

@[simp]
theorem not_holds_nil (assignment : Assignment) : ¬ Holds assignment [] := by
  rintro ⟨literal, member, _⟩
  cases member

@[simp]
theorem holds_cons {assignment : Assignment} {literal : Literal} {rest : Clause} :
    Holds assignment (literal :: rest) ↔
      literal.value assignment = true ∨ Holds assignment rest := by
  simp [Holds, Literal.holds_iff_value]

end Clause

namespace Encoding
namespace Gate

/-- The literal that a gate defines. -/
def output : Gate → Literal
  | negation _ output => output
  | binary _ _ _ output => output

/-- Truth value that the definition gives to the output. -/
def eval (assignment : Assignment) : Gate → Bool
  | negation input _ => !input.value assignment
  | binary connective left right _ =>
      connective.eval (left.value assignment) (right.value assignment)

/-- Whether the output has the value that the definition gives it. -/
def Holds (assignment : Assignment) (gate : Gate) : Prop :=
  gate.output.value assignment = gate.eval assignment

section Clauses

variable {assignment : Assignment}

theorem holds_negation_iff {input output : Nat} :
    (negation (.positive input) (.positive output)).Holds assignment ↔
      assignment output = !assignment input := by
  simp only [Holds, Gate.output, eval, Literal.value_positive]

theorem holds_binary_iff {connective : Connective} {left right output : Nat} :
    (binary connective (.positive left) (.positive right) (.positive output)).Holds assignment ↔
      assignment output = connective.eval (assignment left) (assignment right) := by
  simp only [Holds, Gate.output, eval, Literal.value_positive]

theorem conjunction_hold_iff {left right output : Literal} :
    (∀ clause ∈ conjunction left right output, clause.Holds assignment) ↔
      output.value assignment = (left.value assignment && right.value assignment) := by
  simp only [conjunction, List.forall_mem_cons, Clause.holds_cons, Literal.value_negate]
  cases left.value assignment <;> cases right.value assignment <;>
    cases output.value assignment <;> simp

theorem equivalence_hold_iff {left right output : Literal} :
    (∀ clause ∈ equivalence .direct left right output, clause.Holds assignment) ↔
      output.value assignment = (left.value assignment == right.value assignment) := by
  simp only [equivalence, List.forall_mem_cons, Clause.holds_cons, Literal.value_negate]
  cases left.value assignment <;> cases right.value assignment <;>
    cases output.value assignment <;> simp

theorem negation_hold_iff {template : IffTemplate} {input output : Literal} :
    (∀ clause ∈ (negation input output).clauses template, clause.Holds assignment) ↔
      output.value assignment = !input.value assignment := by
  simp only [clauses, List.forall_mem_cons, Clause.holds_cons, Literal.value_negate]
  cases input.value assignment <;> cases output.value assignment <;> simp

/-- With one clause for each row, the clauses of a gate say just what the gate defines. -/
theorem clauses_hold_iff {gate : Gate} :
    (∀ clause ∈ gate.clauses .direct, clause.Holds assignment) ↔ gate.Holds assignment := by
  cases gate with
  | negation input output => exact negation_hold_iff
  | binary connective left right output =>
      cases connective with
      | and => exact conjunction_hold_iff
      | or =>
          refine conjunction_hold_iff.trans ?_
          simp only [Holds, Gate.output, eval, Connective.eval, Literal.value_negate]
          cases left.value assignment <;> cases right.value assignment <;>
            cases output.value assignment <;> decide
      | implies =>
          refine conjunction_hold_iff.trans ?_
          simp only [Holds, Gate.output, eval, Connective.eval, Literal.value_negate]
          cases left.value assignment <;> cases right.value assignment <;>
            cases output.value assignment <;> decide
      | iff => exact equivalence_hold_iff

end Clauses

/-- Whether all atoms of a gate are below a bound. -/
def Within (bound : Nat) : Gate → Prop
  | negation input output => input.atom < bound ∧ output.atom < bound
  | binary _ left right output =>
      left.atom < bound ∧ right.atom < bound ∧ output.atom < bound

/-- The clauses of a gate are about its own atoms. -/
theorem Within.clauses {bound : Nat} {gate : Gate} (within : gate.Within bound)
    (template : IffTemplate) :
    ∀ clause ∈ gate.clauses template, ∀ literal ∈ clause, literal.atom < bound := by
  cases gate with
  | negation input output =>
      obtain ⟨input_within, output_within⟩ := within
      simp [Gate.clauses, input_within, output_within]
  | binary connective left right output =>
      obtain ⟨left_within, right_within, output_within⟩ := within
      cases connective <;> cases template <;>
        simp [Gate.clauses, conjunction, equivalence, left_within, right_within, output_within]

section Keys

theorem semicolon_notMem_text (literal : Literal) : ';' ∉ literal.text.toList := by
  have digits : ';' ∉ (toString literal.atom).toList :=
    (isDecimal_toString literal.atom).notMem (by decide)
  rw [Literal.text]
  split
  · exact digits
  · simpa using digits

theorem text_inj {left right : Literal} (same : left.text = right.text) : left = right := by
  obtain ⟨left_atom, left_polarity⟩ := left
  obtain ⟨right_atom, right_polarity⟩ := right
  have unmarked (front back : Nat) : toString front ≠ "!" ++ toString back := by
    intro marked
    apply (isDecimal_toString front).notMem (by decide : '!'.isDigit = false)
    rw [marked]
    simp
  cases left_polarity <;> cases right_polarity
  · have atoms : toString left_atom = toString right_atom := by
      simpa [Literal.text, String.append_right_inj] using same
    rw [toString_inj atoms]
  · exact (unmarked _ _ (by simpa [Literal.text] using same.symm)).elim
  · exact (unmarked _ _ (by simpa [Literal.text] using same)).elim
  · have atoms : toString left_atom = toString right_atom := by simpa [Literal.text] using same
    rw [toString_inj atoms]

/-- A text in which no semicolon stands is determined by what it is followed by a semicolon. -/
theorem cut_at_semicolon {first second after other : List Char} (first_free : ';' ∉ first)
    (second_free : ';' ∉ second) (same : first ++ ';' :: after = second ++ ';' :: other) :
    first = second ∧ after = other := by
  induction first generalizing second with
  | nil =>
      cases second with
      | nil => exact ⟨rfl, (List.cons.inj same).2⟩
      | cons character second =>
          have same_head := (List.cons.inj same).1
          exact (second_free (same_head ▸ List.mem_cons_self)).elim
  | cons character first induction =>
      cases second with
      | nil =>
          have same_head := (List.cons.inj same).1
          exact (first_free (same_head ▸ List.mem_cons_self)).elim
      | cons head second =>
          obtain ⟨rfl, tails⟩ := List.cons.inj same
          obtain ⟨rfl, rests⟩ := induction (fun member => first_free (.tail _ member))
            (fun member => second_free (.tail _ member)) tails
          exact ⟨rfl, rests⟩

/-- The texts before the first semicolons of two equal texts agree, and so do the ones behind. -/
theorem cut_text {left right : Literal} {after other : String}
    (same : left.text ++ (";" ++ after) = right.text ++ (";" ++ other)) :
    left = right ∧ after = other := by
  have characters := congrArg String.toList same
  simp only [String.toList_append] at characters
  obtain ⟨texts, rests⟩ := cut_at_semicolon (semicolon_notMem_text left)
    (semicolon_notMem_text right) characters
  exact ⟨text_inj (String.toList_inj.mp texts), String.toList_inj.mp rests⟩

/-- Digit of a connective, or the mark of a negation, at the end of a key. -/
def mark : Gate → String
  | negation _ _ => "!"
  | binary connective _ _ _ => tag connective

/-- The input of a gate that is written first. -/
def first : Gate → Literal
  | negation input _ => input
  | binary _ left _ _ => left

/-- What stands in the place of the second operand of a key. -/
def second : Gate → Literal
  | negation _ output => output
  | binary _ _ right _ => right

theorem key_eq (gate : Gate) :
    gate.key = gate.first.text ++ (";" ++ (gate.second.text ++ (";" ++
      (gate.output.text ++ (";" ++ gate.mark))))) := by
  have negated : ";!" = ";" ++ "!" := rfl
  cases gate <;> simp only [key, first, second, output, mark, negated, String.append_assoc]

theorem tag_inj {left right : Connective} (same : tag left = tag right) : left = right := by
  cases left <;> cases right <;> simp_all [tag]

theorem tag_ne_mark (connective : Connective) : tag connective ≠ "!" := by
  cases connective <;> decide

/-- No two gates have one key. -/
theorem key_inj {one other : Gate} (same : one.key = other.key) : one = other := by
  rw [key_eq, key_eq] at same
  obtain ⟨first_eq, same⟩ := cut_text same
  obtain ⟨second_eq, same⟩ := cut_text same
  obtain ⟨output_eq, mark_eq⟩ := cut_text same
  cases one with
  | negation input defined =>
      cases other with
      | negation other_input other_defined =>
          simp only [first, output] at first_eq output_eq
          rw [first_eq, output_eq]
      | binary connective left right defined => exact (tag_ne_mark connective mark_eq.symm).elim
  | binary connective left right defined =>
      cases other with
      | negation input other_defined => exact (tag_ne_mark connective mark_eq).elim
      | binary other_connective other_left other_right other_defined =>
          simp only [first, second, output] at first_eq second_eq output_eq
          rw [tag_inj mark_eq, first_eq, second_eq, output_eq]

end Keys
end Gate

namespace GateSet

/-- The gates of a set, in the order of the keys. -/
def gates (set : GateSet) : List Gate := set.entries.map Prod.snd

/-- Whether every gate stands under its own key. -/
def Keyed (set : GateSet) : Prop := ∀ entry ∈ set.entries, entry.1 = entry.2.key

/-- Put gates into a set in turn. -/
def insertAll (set : GateSet) (gates : List Gate) : GateSet := gates.foldl insert set

theorem keyed_empty : Keyed {} := by
  intro entry member
  cases member

/-- Under their own keys, a gate is left out only if it is in the set already. -/
theorem mem_insertEntry_iff {gate : Gate} {entries : List (String × Gate)}
    (keyed : ∀ entry ∈ entries, entry.1 = entry.2.key) (entry : String × Gate) :
    entry ∈ insertEntry gate.key gate entries ↔ entry = (gate.key, gate) ∨ entry ∈ entries := by
  induction entries with
  | nil => simp [insertEntry]
  | cons head rest induction =>
      obtain ⟨key, first⟩ := head
      have induction := induction fun entry member => keyed entry (.tail _ member)
      rw [insertEntry]
      split
      · rw [List.mem_cons, List.mem_cons, induction]
        exact or_left_comm
      · split
        · rename_i same
          have first_eq : first = gate := by
            apply Gate.key_inj
            rw [← same]
            exact (keyed (key, first) List.mem_cons_self).symm
          rw [same, first_eq, List.mem_cons]
          exact ⟨.inr, fun either => either.elim .inl id⟩
        · rw [List.mem_cons]

theorem Keyed.insert {set : GateSet} (keyed : set.Keyed) (gate : Gate) :
    (set.insert gate).Keyed := by
  intro entry member
  rcases (mem_insertEntry_iff keyed entry).mp member with rfl | old
  · rfl
  · exact keyed entry old

theorem Keyed.mem_gates_insert_iff {set : GateSet} (keyed : set.Keyed) {gate other : Gate} :
    other ∈ (set.insert gate).gates ↔ other = gate ∨ other ∈ set.gates := by
  simp only [gates, List.mem_map, GateSet.insert, mem_insertEntry_iff keyed, or_and_right,
    exists_or, exists_eq_left]
  rw [eq_comm]

/-- A set that gates are put into keeps what it had and gets each of them. -/
theorem Keyed.mem_gates_insertAll_iff {set : GateSet} (keyed : set.Keyed) {gates : List Gate}
    {other : Gate} :
    other ∈ (set.insertAll gates).gates ↔ other ∈ gates ∨ other ∈ set.gates := by
  induction gates generalizing set with
  | nil => simp [insertAll]
  | cons gate gates induction =>
      have unfolded : set.insertAll (gate :: gates) = (set.insert gate).insertAll gates := rfl
      rw [unfolded, induction (keyed.insert gate), keyed.mem_gates_insert_iff, List.mem_cons]
      grind

theorem insertAll_append (set : GateSet) (front back : List Gate) :
    set.insertAll (front ++ back) = (set.insertAll front).insertAll back :=
  List.foldl_append

/-- The clauses of a set are those of the gates in it. -/
theorem clauses_eq (template : IffTemplate) (set : GateSet) :
    set.clauses template = set.gates.flatMap (Gate.clauses template) := by
  rw [gates, List.flatMap_map]
  rfl

theorem forall_mem_clauses_iff {P : Clause → Prop} {template : IffTemplate} {set : GateSet} :
    (∀ clause ∈ set.clauses template, P clause) ↔
      ∀ gate ∈ set.gates, ∀ clause ∈ gate.clauses template, P clause := by
  rw [clauses_eq, List.forall_mem_flatMap]

/-- Of gates put into an empty set, each is in it. -/
theorem mem_gates_insertAll_empty_iff {gates : List Gate} {gate : Gate} :
    gate ∈ (({} : GateSet).insertAll gates).gates ↔ gate ∈ gates := by
  rw [keyed_empty.mem_gates_insertAll_iff, or_iff_left]
  intro before
  cases before

section Sorted

/-- Whether the keys of a set increase. -/
def Sorted (set : GateSet) : Prop := set.entries.Pairwise fun first second => first.1 < second.1

theorem sorted_empty : Sorted {} := List.Pairwise.nil

theorem sorted_insertEntry {gate : Gate} {entries : List (String × Gate)}
    (keyed : ∀ entry ∈ entries, entry.1 = entry.2.key)
    (sorted : entries.Pairwise fun first second => first.1 < second.1) :
    (insertEntry gate.key gate entries).Pairwise fun first second => first.1 < second.1 := by
  induction entries with
  | nil => exact List.pairwise_singleton _ _
  | cons head rest induction =>
      obtain ⟨key, first⟩ := head
      obtain ⟨before, rest_sorted⟩ := List.pairwise_cons.mp sorted
      have rest_keyed : ∀ entry ∈ rest, entry.1 = entry.2.key :=
        fun entry member => keyed entry (.tail _ member)
      rw [insertEntry]
      split
      · rename_i head_before
        refine List.pairwise_cons.mpr ⟨?_, induction rest_keyed rest_sorted⟩
        intro entry member
        rcases (mem_insertEntry_iff rest_keyed entry).mp member with rfl | old
        · exact head_before
        · exact before entry old
      · rename_i not_before
        split
        · exact sorted
        · rename_i different
          have gate_before : gate.key < key := by
            apply Classical.byContradiction
            intro not_after
            exact different
              (String.le_antisymm (String.not_lt.mp not_after) (String.not_lt.mp not_before))
          refine List.pairwise_cons.mpr ⟨?_, sorted⟩
          intro entry member
          rcases List.mem_cons.mp member with rfl | later
          · exact gate_before
          · exact String.lt_trans gate_before (before entry later)

theorem Sorted.insert {set : GateSet} (sorted : set.Sorted) (keyed : set.Keyed) (gate : Gate) :
    (set.insert gate).Sorted :=
  sorted_insertEntry keyed sorted

theorem Sorted.insertAll {set : GateSet} (sorted : set.Sorted) (keyed : set.Keyed)
    (gates : List Gate) : (set.insertAll gates).Sorted ∧ (set.insertAll gates).Keyed := by
  induction gates generalizing set with
  | nil => exact ⟨sorted, keyed⟩
  | cons gate gates induction => exact induction (sorted.insert keyed gate) (keyed.insert gate)

/-- No gate is twice in a set. -/
theorem Sorted.nodup_gates {set : GateSet} (sorted : set.Sorted) (keyed : set.Keyed) :
    set.gates.Nodup := by
  rw [gates, List.Nodup, List.pairwise_map]
  refine List.Pairwise.imp_of_mem ?_ sorted
  intro first second first_mem second_mem before same
  rw [keyed first first_mem, keyed second second_mem, same] at before
  exact String.lt_irrefl _ before

/-- Of gates put into an empty set, the set has each once. -/
theorem gates_insertAll_empty_perm (gates : List Gate) {distinct : List Gate}
    (nodup : distinct.Nodup) (same : ∀ gate, gate ∈ gates ↔ gate ∈ distinct) :
    (({} : GateSet).insertAll gates).gates.Perm distinct := by
  obtain ⟨sorted, keyed⟩ := sorted_empty.insertAll keyed_empty gates
  rw [List.perm_ext_iff_of_nodup (sorted.nodup_gates keyed) nodup]
  exact fun gate => mem_gates_insertAll_empty_iff.trans (same gate)

/-- Nothing is put under a key that is taken. -/
theorem insertEntry_eq_self {gate : Gate} {key : String} {entries : List (String × Gate)}
    (sorted : entries.Pairwise fun first second => first.1 < second.1)
    (taken : ∃ entry ∈ entries, entry.1 = key) : insertEntry key gate entries = entries := by
  induction entries with
  | nil =>
      obtain ⟨_, member, _⟩ := taken
      cases member
  | cons head rest induction =>
      obtain ⟨before, rest_sorted⟩ := List.pairwise_cons.mp sorted
      obtain ⟨entry, member, rfl⟩ := taken
      rcases List.mem_cons.mp member with rfl | later
      · rw [insertEntry, if_neg (String.lt_irrefl _), if_pos rfl]
      · rw [insertEntry, if_pos (before entry later), induction rest_sorted ⟨entry, later, rfl⟩]

end Sorted

/-- Gates have one key only if they are one gate.  So a gate that finds its key taken is the one
that stands there, and of all gates that are put into a set none is lost, and none is there twice. -/
theorem gates_told_apart (put : List Gate) (gate : Gate) :
    (∀ other : Gate, gate.key = other.key ↔ gate = other) ∧
    (∀ entry ∈ (({} : GateSet).insertAll put).entries, entry.1 = gate.key →
      entry.2 = gate ∧
        (({} : GateSet).insertAll put).insert gate = ({} : GateSet).insertAll put) ∧
    (∀ kept, kept ∈ (({} : GateSet).insertAll put).gates ↔ kept ∈ put) ∧
    (({} : GateSet).insertAll put).gates.Nodup := by
  obtain ⟨sorted, keyed⟩ := sorted_empty.insertAll keyed_empty put
  refine ⟨fun other => ⟨Gate.key_inj, congrArg Gate.key⟩, fun entry member taken => ⟨?_, ?_⟩,
    fun kept => mem_gates_insertAll_empty_iff, sorted.nodup_gates keyed⟩
  · exact Gate.key_inj ((keyed entry member).symm.trans taken)
  · exact congrArg GateSet.mk (insertEntry_eq_self sorted ⟨entry, member, taken⟩)

/-- A negation is told apart from a connective that has its own output as second operand. -/
theorem gates_told_apart_repeatedOutput :
    (Gate.negation (.positive 1) (.negative 2)).key ≠
        (Gate.binary .and (.positive 1) (.negative 2) (.negative 2)).key ∧
      (({} : GateSet).insertAll [.negation (.positive 1) (.negative 2)]).insert
          (.negation (.positive 1) (.negative 2)) =
        ({} : GateSet).insertAll [.negation (.positive 1) (.negative 2)] := by
  obtain ⟨same_iff, taken, _⟩ := gates_told_apart [.negation (.positive 1) (.negative 2)]
    (.negation (.positive 1) (.negative 2))
  refine ⟨fun same => ?_, (taken _ (List.mem_singleton_self _) rfl).2⟩
  have collapsed := (same_iff _).mp same
  cases collapsed

end GateSet
end Encoding
end PropSat
