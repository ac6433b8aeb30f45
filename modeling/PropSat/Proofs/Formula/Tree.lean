import Mathlib.Data.List.Basic
import PropSat.Formula.Text
import PropSat.Proofs.Formula.Renaming

/-!
# Trees determine formulas

In the tree form of a formula the root stands on the one line that is indented least, between the
lines of its operands.  So the lines of two formulas that have the same tree form are taken apart at
the same line, at every depth.  What a line stands for follows from the lines around it and not from
its label, so variables may bear the names of connectives.
-/

namespace PropSat

/-- Repeated entries before a list that does not begin with one can be counted. -/
theorem replicate_append_inj {α : Type} {entry : α} {count other : Nat} {front back : List α}
    (front_head : front.head? ≠ some entry) (back_head : back.head? ≠ some entry)
    (same : List.replicate count entry ++ front = List.replicate other entry ++ back) :
    count = other ∧ front = back := by
  induction count generalizing other with
  | zero =>
      cases other with
      | zero => exact ⟨rfl, same⟩
      | succ other => exact (front_head (congrArg List.head? same)).elim
  | succ count induction =>
      cases other with
      | zero => exact (back_head (congrArg List.head? same.symm)).elim
      | succ other =>
          obtain ⟨counts, rests⟩ := induction (List.cons.inj same).2
          exact ⟨congrArg Nat.succ counts, rests⟩

namespace Connective

theorem word_inj {first second : Connective} : first.word = second.word ↔ first = second := by
  cases first <;> cases second <;> decide

theorem sourceName_word (connective : Connective) : SourceName connective.word := by
  cases connective <;> exact ⟨by decide, List.all_eq_true.mp rfl⟩

end Connective

namespace Formula

/-- A line of a tree form: the depth of a node and what it is called. -/
@[ext]
structure TreeLine where
  depth : Nat
  label : String

namespace TreeLine

/-- A line as it is written. -/
def written (line : TreeLine) : String := indent line.depth ++ line.label ++ "\n"

theorem toList_written (line : TreeLine) :
    line.written.toList = List.replicate (2 * line.depth) ' ' ++ line.label.toList ++ ['\n'] := by
  rw [written, String.toList_append, String.toList_append, toList_indent]
  rfl

/-- A line that is labelled by a source name can be cut off a text. -/
theorem written_append_inj {first second : TreeLine} (first_source : SourceName first.label)
    (second_source : SourceName second.label) {front back : List Char}
    (same : first.written.toList ++ front = second.written.toList ++ back) :
    first = second ∧ front = back := by
  have no_blank (name : String) (source : SourceName name) (rest : List Char) :
      (name.toList ++ '\n' :: rest).head? ≠ some ' ' := by
    intro blank
    rw [List.head?_append_of_ne_nil _ source.1] at blank
    cases source.2 ' ' (List.mem_of_head? blank)
  have newline (rest : List Char) : Breaks ('\n' :: rest) := breaks_cons rfl
  simp only [toList_written, List.append_assoc, List.singleton_append] at same
  obtain ⟨blanks, texts⟩ := replicate_append_inj (no_blank _ first_source front)
    (no_blank _ second_source back) same
  have labels : first.label.toList = second.label.toList := by
    rw [← takeWhile_word first_source.2 (newline front), texts,
      takeWhile_word second_source.2 (newline back)]
  have rests : '\n' :: front = '\n' :: back := by
    rw [← dropWhile_word first_source.2 (newline front), texts,
      dropWhile_word second_source.2 (newline back)]
  exact ⟨TreeLine.ext (Nat.eq_of_mul_eq_mul_left Nat.two_pos blanks) (String.toList_inj.mp labels),
    (List.cons.inj rests).2⟩

/-- Lines that are labelled by source names can be read off what is written. -/
theorem eq_of_join_eq {left right : List TreeLine}
    (left_source : ∀ line ∈ left, SourceName line.label)
    (right_source : ∀ line ∈ right, SourceName line.label)
    (same : String.join (left.map written) = String.join (right.map written)) : left = right := by
  have not_empty (line : TreeLine) (rest : String) : line.written ++ rest ≠ "" := by
    intro empty
    have no_text := congrArg String.toList empty
    simp [toList_written] at no_text
  induction left generalizing right with
  | nil =>
      cases right with
      | nil => rfl
      | cons line rest => exact (not_empty _ _ (String.join_cons.symm.trans same.symm)).elim
  | cons first front induction =>
      cases right with
      | nil => exact (not_empty _ _ (String.join_cons.symm.trans same)).elim
      | cons second back =>
          obtain ⟨first_source, front_source⟩ := List.forall_mem_cons.mp left_source
          obtain ⟨second_source, back_source⟩ := List.forall_mem_cons.mp right_source
          rw [List.map_cons, List.map_cons, String.join_cons, String.join_cons] at same
          have texts := congrArg String.toList same
          rw [String.toList_append, String.toList_append] at texts
          obtain ⟨rfl, rests⟩ := written_append_inj first_source second_source texts
          rw [induction front_source back_source (String.toList_inj.mp rests)]

end TreeLine

/-- Lines of the tree form at some depth. -/
def treeLines (nameOf : Nat → String) (depth : Nat) : Formula → List TreeLine
  | var atom => [{ depth, label := nameOf atom }]
  | neg inner => { depth, label := "NOT" } :: inner.treeLines nameOf (depth + 1)
  | bin connective left right =>
      left.treeLines nameOf (depth + 1) ++
        { depth, label := connective.word } :: right.treeLines nameOf (depth + 1)

/-- What the root of a formula is called. -/
def rootLabel (nameOf : Nat → String) : Formula → String
  | var atom => nameOf atom
  | neg _ => "NOT"
  | bin connective _ _ => connective.word

/-- Lines of the operand that stands above the root. -/
def linesAbove (nameOf : Nat → String) (depth : Nat) : Formula → List TreeLine
  | var _ => []
  | neg _ => []
  | bin _ left _ => left.treeLines nameOf (depth + 1)

/-- Lines of the operand that stands below the root. -/
def linesBelow (nameOf : Nat → String) (depth : Nat) : Formula → List TreeLine
  | var _ => []
  | neg inner => inner.treeLines nameOf (depth + 1)
  | bin _ _ right => right.treeLines nameOf (depth + 1)

section Lines

variable {nameOf : Nat → String} {depth : Nat}

theorem treeAt_eq (formula : Formula) :
    formula.treeAt nameOf depth =
      String.join ((formula.treeLines nameOf depth).map TreeLine.written) := by
  induction formula generalizing depth with
  | var atom => simp [treeAt, treeLines, TreeLine.written]
  | neg inner induction =>
      have newline : "NOT\n" = "NOT" ++ "\n" := rfl
      simp [treeAt, treeLines, TreeLine.written, induction, newline, String.append_assoc]
  | bin connective left right left_induction right_induction =>
      simp [treeAt, treeLines, TreeLine.written, left_induction, right_induction,
        String.append_assoc]

/-- The root stands between the lines of its operands. -/
theorem treeLines_eq (formula : Formula) :
    formula.treeLines nameOf depth =
      formula.linesAbove nameOf depth ++
        { depth, label := formula.rootLabel nameOf } :: formula.linesBelow nameOf depth := by
  cases formula <;> rfl

theorem treeLines_ne_nil (formula : Formula) : formula.treeLines nameOf depth ≠ [] := by
  rw [treeLines_eq]
  exact List.append_ne_nil_of_right_ne_nil _ (List.cons_ne_nil _ _)

/-- No node is indented less than the root. -/
theorem le_depth_of_mem {formula : Formula} {line : TreeLine}
    (member : line ∈ formula.treeLines nameOf depth) : depth ≤ line.depth := by
  induction formula generalizing depth with
  | var atom =>
      obtain rfl := List.mem_singleton.mp member
      exact Nat.le_refl depth
  | neg inner induction =>
      rcases List.mem_cons.mp member with rfl | deeper
      · exact Nat.le_refl _
      · exact Nat.le_of_succ_le (induction deeper)
  | bin connective left right left_induction right_induction =>
      rcases List.mem_append.mp member with deeper | member
      · exact Nat.le_of_succ_le (left_induction deeper)
      · rcases List.mem_cons.mp member with rfl | deeper
        · exact Nat.le_refl _
        · exact Nat.le_of_succ_le (right_induction deeper)

/-- The root is the only node at its depth. -/
theorem root_notMem (formula : Formula) (label : String) :
    { depth, label } ∉ formula.linesAbove nameOf depth ∧
      { depth, label } ∉ formula.linesBelow nameOf depth := by
  have not_deeper (inner : Formula) : { depth, label } ∉ inner.treeLines nameOf (depth + 1) :=
    fun member => Nat.not_succ_le_self depth (le_depth_of_mem member)
  cases formula with
  | var atom => exact ⟨List.not_mem_nil, List.not_mem_nil⟩
  | neg inner => exact ⟨List.not_mem_nil, not_deeper inner⟩
  | bin connective left right => exact ⟨not_deeper left, not_deeper right⟩

/-- Lines are taken apart at the root. -/
theorem parts_eq_of_treeLines_eq {left right : Formula}
    (same : left.treeLines nameOf depth = right.treeLines nameOf depth) :
    left.linesAbove nameOf depth = right.linesAbove nameOf depth ∧
      left.rootLabel nameOf = right.rootLabel nameOf ∧
        left.linesBelow nameOf depth = right.linesBelow nameOf depth := by
  obtain ⟨above, below⟩ := root_notMem left (right.rootLabel nameOf)
  rw [treeLines_eq, treeLines_eq right, List.append_cons_inj_of_notMem above below] at same
  obtain ⟨aboves, roots, belows⟩ := same
  exact ⟨aboves, congrArg TreeLine.label roots, belows⟩

/-- Formulas with the same lines are the same, if no two of their atoms bear one name. -/
theorem eq_of_treeLines_eq {left right : Formula}
    (apart : ∀ first ∈ left.atoms, ∀ second ∈ right.atoms, nameOf first = nameOf second →
      first = second)
    (same : left.treeLines nameOf depth = right.treeLines nameOf depth) : left = right := by
  induction left generalizing right depth with
  | var atom =>
      obtain ⟨aboves, labels, belows⟩ := parts_eq_of_treeLines_eq same
      cases right with
      | var other => rw [apart atom List.mem_cons_self other List.mem_cons_self labels]
      | neg inner => exact (treeLines_ne_nil inner belows.symm).elim
      | bin connective left right => exact (treeLines_ne_nil right belows.symm).elim
  | neg inner induction =>
      obtain ⟨aboves, labels, belows⟩ := parts_eq_of_treeLines_eq same
      cases right with
      | var other => exact (treeLines_ne_nil inner belows).elim
      | neg other => exact congrArg neg (induction apart belows)
      | bin connective left right => exact (treeLines_ne_nil left aboves.symm).elim
  | bin connective first second first_induction second_induction =>
      obtain ⟨aboves, labels, belows⟩ := parts_eq_of_treeLines_eq same
      cases right with
      | var other => exact (treeLines_ne_nil second belows).elim
      | neg other => exact (treeLines_ne_nil first aboves).elim
      | bin other third fourth =>
          have left_apart := fun atom member other occurs =>
            apart atom (List.mem_append_left _ member) other (List.mem_append_left _ occurs)
          have right_apart := fun atom member other occurs =>
            apart atom (List.mem_append_right _ member) other (List.mem_append_right _ occurs)
          rw [Connective.word_inj.mp labels, first_induction left_apart aboves,
            second_induction right_apart belows]

theorem sourceName_label_of_mem {formula : Formula}
    (source : ∀ atom ∈ formula.atoms, SourceName (nameOf atom)) :
    ∀ line ∈ formula.treeLines nameOf depth, SourceName line.label := by
  induction formula generalizing depth with
  | var atom => exact List.forall_mem_singleton.mpr (source atom List.mem_cons_self)
  | neg inner induction =>
      have source_not : SourceName "NOT" := ⟨by decide, List.all_eq_true.mp rfl⟩
      exact List.forall_mem_cons.mpr ⟨source_not, induction source⟩
  | bin connective left right left_induction right_induction =>
      obtain ⟨left_source, right_source⟩ := List.forall_mem_append.mp source
      exact List.forall_mem_append.mpr ⟨left_induction left_source,
        List.forall_mem_cons.mpr ⟨connective.sourceName_word, right_induction right_source⟩⟩

end Lines

theorem tree?_eq {table : AtomTable} {formula : Formula}
    (inside : ∀ atom ∈ formula.atoms, atom < table.count) :
    formula.tree? table = some (formula.tree table.nameAt) := by
  rw [tree?, if_pos (within_iff.mpr inside)]

/-- Formulas over source names have the same tree form only if they are the same, also where atoms
bear the names of connectives. -/
theorem tree?_eq_iff {table : AtomTable} {left right : Formula}
    (plain : table.PlainOn (left.atoms ++ right.atoms)) :
    ∃ leftTree rightTree, left.tree? table = some leftTree ∧ right.tree? table = some rightTree ∧
      (leftTree = rightTree ↔ left = right) := by
  obtain ⟨left_inside, right_inside⟩ := List.forall_mem_append.mp plain.inside
  obtain ⟨left_source, right_source⟩ := List.forall_mem_append.mp plain.source
  refine ⟨_, _, tree?_eq left_inside, tree?_eq right_inside, ?_, congrArg (tree table.nameAt)⟩
  intro same
  rw [tree, tree, treeAt_eq, treeAt_eq] at same
  have lines_eq := TreeLine.eq_of_join_eq (sourceName_label_of_mem left_source)
    (sourceName_label_of_mem right_source) same
  refine eq_of_treeLines_eq ?_ lines_eq
  intro first first_mem second second_mem
  exact plain.apart first (List.mem_append_left _ first_mem) second
    (List.mem_append_right _ second_mem)

/-- Two formulas over atoms that are called as negation and conjunction are. -/
theorem tree?_eq_iff_named_as_connectives :
    ∃ leftTree rightTree,
      (neg (bin .and (var 0) (var 1))).tree? (.ofNames ["NOT", "AND"]) = some leftTree ∧
      (bin .and (neg (var 0)) (var 1)).tree? (.ofNames ["NOT", "AND"]) = some rightTree ∧
        (leftTree = rightTree ↔
          neg (bin .and (var 0) (var 1)) = bin .and (neg (var 0)) (var 1)) := by
  have plain : (AtomTable.ofNames ["NOT", "AND"]).PlainOn [0, 1, 0, 1] :=
    { inside := by decide
      source := by
        intro atom member
        simp only [List.mem_cons, List.not_mem_nil, or_false] at member
        rcases member with rfl | rfl | rfl | rfl <;> exact ⟨by decide, List.all_eq_true.mp rfl⟩
      apart := by decide }
  exact tree?_eq_iff plain

example :
    (bin .and (neg (var 0)) (var 1)).tree? (.ofNames ["NOT", "AND"]) =
      some "  NOT\n    NOT\nAND\n  AND\n" := rfl

end Formula
end PropSat
