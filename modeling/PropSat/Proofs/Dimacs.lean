import PropSat.Cnf
import PropSat.Proofs.Decimal

/-!
# Reading signed numbers back

Clauses written as signed numbers are read back line by line and word by word.  A clause ends at the
zero that closes its line.  No literal is written as zero, since atoms are counted from one, so
nothing is lost: neither an empty clause, nor an order, nor a repetition.
-/

namespace PropSat
namespace Dimacs

/-- Read a number in decimal digits. -/
def number? (word : List Char) : Option Nat :=
  if word ≠ [] ∧ word.all Char.isDigit then some (Nat.ofDigitChars 10 word 0) else none

/-- Read a number in decimal digits, perhaps after a minus sign. -/
def integer? : List Char → Option Int
  | '-' :: digits => (number? digits).map fun number => -Int.ofNat number
  | digits => (number? digits).map Int.ofNat

/-- The literal that a number stands for, with the sign as its polarity; zero stands for none. -/
def literal? (number : Int) : Option Literal :=
  if number = 0 then none
  else some { atom := number.natAbs - 1, polarity := decide (0 < number) }

/-- The clause on a line: numbers separated by blanks, of which the last is zero and no other. -/
def clause? (line : List Char) : Option Clause :=
  match (line.splitOn ' ').mapM integer? with
  | none => none
  | some numbers => if numbers.getLast? = some 0 then numbers.dropLast.mapM literal? else none

/-- The numbers of atoms and of clauses on a problem line. -/
def problem? (line : List Char) : Option (Nat × Nat) :=
  match line.splitOn ' ' with
  | [mark, format, atoms, clauses] =>
      if mark = "p".toList ∧ format = "cnf".toList then
        match number? atoms, number? clauses with
        | some atomCount, some clauseCount => some (atomCount, clauseCount)
        | _, _ => none
      else none
  | _ => none

/-- The lines of a text, if each of them is ended. -/
def lines? (text : List Char) : Option (List (List Char)) :=
  let pieces := text.splitOn '\n'
  if pieces.getLast? = some [] then some pieces.dropLast else none

/-- Read a problem line and as many clauses as it says. -/
def read? (text : String) : Option Cnf :=
  match lines? text.toList with
  | some (first :: rest) =>
      match problem? first, rest.mapM clause? with
      | some (atomCount, clauseCount), some clauses =>
          if clauses.length = clauseCount then some { atomCount, clauses } else none
      | _, _ => none
  | _ => none

section Pieces

theorem splitOn_closed {separator : Char} {pieces : List (List Char)} {last : List Char}
    (free : ∀ piece ∈ pieces, separator ∉ piece) (last_free : separator ∉ last) :
    (pieces.flatMap (fun piece => piece ++ [separator]) ++ last).splitOn separator =
      pieces ++ [last] := by
  induction pieces with
  | nil => exact List.splitOn_eq_singleton last_free
  | cons piece pieces induction =>
      obtain ⟨piece_free, pieces_free⟩ := List.forall_mem_cons.mp free
      rw [List.flatMap_cons, List.append_assoc, List.append_assoc, List.singleton_append,
        List.splitOn_append_cons_self_of_not_mem piece_free, induction pieces_free,
        List.cons_append]

theorem mapM_map_eq_some {α β γ : Type} {read : α → Option β} {write : γ → α} {value : γ → β}
    {entries : List γ} (reads : ∀ entry ∈ entries, read (write entry) = some (value entry)) :
    (entries.map write).mapM read = some (entries.map value) := by
  induction entries with
  | nil => rfl
  | cons entry entries induction =>
      obtain ⟨first, rest⟩ := List.forall_mem_cons.mp reads
      rw [List.map_cons, List.mapM_cons, first, induction rest]
      rfl

end Pieces

section Words

variable {word : List Char} {number : Nat}

theorem number?_of_isDecimal (decimal : IsDecimal word number) : number? word = some number := by
  rw [number?, if_pos ⟨decimal.nonempty, List.all_eq_true.mpr decimal.digit⟩, decimal.value]

theorem integer?_of_isDecimal (decimal : IsDecimal word number) :
    integer? word = some (.ofNat number) := by
  unfold integer?
  split
  · exact absurd List.mem_cons_self (decimal.notMem (by decide))
  · rw [number?_of_isDecimal decimal, Option.map_some]

/-- The number that stands for a literal. -/
def signed (literal : Literal) : Int :=
  if literal.polarity then .ofNat (literal.atom + 1) else -.ofNat (literal.atom + 1)

theorem integer?_dimacs (literal : Literal) :
    integer? literal.dimacs.toList = some (signed literal) := by
  have decimal := isDecimal_toString (literal.atom + 1)
  rw [Literal.dimacs, signed]
  split
  · exact integer?_of_isDecimal decimal
  · rw [String.toList_append]
    exact congrArg (Option.map fun number => -Int.ofNat number) (number?_of_isDecimal decimal)

theorem literal?_signed (literal : Literal) : literal? (signed literal) = some literal := by
  obtain ⟨atom, polarity⟩ := literal
  cases polarity <;> simp [literal?, signed] <;> omega

theorem natAbs_signed (literal : Literal) : (signed literal).natAbs = literal.atom + 1 := by
  rw [signed]
  split
  · rfl
  · exact Int.natAbs_neg _

theorem signed_ne_zero (literal : Literal) : signed literal ≠ 0 := by
  rw [← Int.natAbs_ne_zero, natAbs_signed]
  exact Nat.succ_ne_zero _

/-- A character that is neither a minus sign nor a digit occurs in no literal. -/
theorem notMem_dimacs (literal : Literal) {character : Char} (no_sign : character ≠ '-')
    (no_digit : character.isDigit = false) : character ∉ literal.dimacs.toList := by
  have absent := (isDecimal_toString (literal.atom + 1)).notMem no_digit
  rw [Literal.dimacs]
  split
  · exact absent
  · rw [String.toList_append]
    simpa [no_sign] using absent

end Words

section Lines

/-- The words on the line of a clause: one for each literal, and the zero. -/
theorem splitOn_clause_dimacs (clause : Clause) :
    clause.dimacs.toList.splitOn ' ' =
      (clause.map fun literal => literal.dimacs.toList) ++ [['0']] := by
  have line_eq : clause.dimacs.toList =
      (clause.map fun literal => literal.dimacs.toList).flatMap (fun word => word ++ [' ']) ++
        ['0'] := by
    simp [Clause.dimacs, String.toList_join, List.flatMap_map]
  rw [line_eq, splitOn_closed ?_ (by decide)]
  exact List.forall_mem_map.mpr fun literal _ => notMem_dimacs literal (by decide) (by decide)

theorem clause?_dimacs (clause : Clause) : clause? clause.dimacs.toList = some clause := by
  have numbers_eq : ((clause.map fun literal => literal.dimacs.toList) ++ [['0']]).mapM integer? =
      some (clause.map signed ++ [0]) := by
    rw [List.mapM_append, mapM_map_eq_some fun literal _ => integer?_dimacs literal]
    rfl
  have literals_eq := mapM_map_eq_some fun literal (_ : literal ∈ clause) => literal?_signed literal
  rw [List.map_id'] at literals_eq
  simp only [clause?, splitOn_clause_dimacs, numbers_eq, List.getLast?_concat,
    List.dropLast_concat, literals_eq, if_true]

theorem newline_notMem_clause_dimacs (clause : Clause) : '\n' ∉ clause.dimacs.toList := by
  have absent : ∀ literal ∈ clause, '\n' ∉ literal.dimacs.toList :=
    fun literal _ => notMem_dimacs literal (by decide) (by decide)
  simpa [Clause.dimacs, String.toList_join] using absent

/-- The problem line. -/
def problemLine (cnf : Cnf) : List Char :=
  ["p".toList, "cnf".toList, (toString cnf.atomCount).toList].flatMap (fun word => word ++ [' ']) ++
    (toString cnf.clauses.length).toList

theorem problem?_problemLine (cnf : Cnf) :
    problem? (problemLine cnf) = some (cnf.atomCount, cnf.clauses.length) := by
  have atoms := isDecimal_toString cnf.atomCount
  have clauses := isDecimal_toString cnf.clauses.length
  have words_eq : (problemLine cnf).splitOn ' ' =
      ["p".toList, "cnf".toList, (toString cnf.atomCount).toList] ++
        [(toString cnf.clauses.length).toList] := by
    apply splitOn_closed _ (clauses.notMem (by decide))
    simp only [List.forall_mem_cons]
    exact ⟨by decide, by decide, atoms.notMem (by decide), by simp⟩
  simp only [problem?, words_eq, List.cons_append, List.nil_append, and_self, if_true,
    number?_of_isDecimal atoms, number?_of_isDecimal clauses]

theorem newline_notMem_problemLine (cnf : Cnf) : '\n' ∉ problemLine cnf := by
  have no_digit : '\n'.isDigit = false := by decide
  have atoms := (isDecimal_toString cnf.atomCount).notMem no_digit
  have clauses := (isDecimal_toString cnf.clauses.length).notMem no_digit
  rw [problemLine]
  generalize (toString cnf.atomCount).toList = atom_word at atoms ⊢
  generalize (toString cnf.clauses.length).toList = clause_word at clauses ⊢
  simp [atoms, clauses]

theorem lines?_dimacs (cnf : Cnf) :
    lines? cnf.dimacs.toList =
      some (problemLine cnf :: cnf.clauses.map fun clause => clause.dimacs.toList) := by
  have text_eq : cnf.dimacs.toList =
      (problemLine cnf :: cnf.clauses.map fun clause => clause.dimacs.toList).flatMap
        (fun line => line ++ ['\n']) ++ [] := by
    simp [Cnf.dimacs, problemLine, String.toList_join, List.flatMap_map]
  have free : ∀ line ∈ problemLine cnf :: cnf.clauses.map fun clause => clause.dimacs.toList,
      '\n' ∉ line :=
    List.forall_mem_cons.mpr ⟨newline_notMem_problemLine cnf,
      List.forall_mem_map.mpr fun clause _ => newline_notMem_clause_dimacs clause⟩
  simp only [lines?, text_eq, splitOn_closed free List.not_mem_nil, List.getLast?_concat,
    List.dropLast_concat, if_true]

theorem read?_dimacs (cnf : Cnf) : read? cnf.dimacs = some cnf := by
  have clauses_eq := mapM_map_eq_some fun clause (_ : clause ∈ cnf.clauses) => clause?_dimacs clause
  rw [List.map_id'] at clauses_eq
  simp only [read?, lines?_dimacs, problem?_problemLine, clauses_eq, if_true]

end Lines

/-- Clauses written as signed numbers are read back as they were, so different ones are written
differently.  The number of a literal is never zero, and its absolute value is one more than the
atom. -/
theorem dimacs_faithful (cnf : Cnf) :
    read? cnf.dimacs = some cnf ∧ (∀ other : Cnf, other.dimacs = cnf.dimacs ↔ other = cnf) ∧
      ∀ literal : Literal, ∃ number, integer? literal.dimacs.toList = some number ∧ number ≠ 0 ∧
        number.natAbs = literal.atom + 1 ∧ literal? number = some literal := by
  refine ⟨read?_dimacs cnf, fun other => ⟨fun same => ?_, fun same => congrArg Cnf.dimacs same⟩,
    fun literal => ⟨signed literal, integer?_dimacs literal, signed_ne_zero literal,
      natAbs_signed literal, literal?_signed literal⟩⟩
  have read_eq := read?_dimacs other
  rw [same, read?_dimacs cnf] at read_eq
  exact (Option.some.inj read_eq).symm

example :
    read? "p cnf 2 2\n0\n-2 1 0\n" =
      some { atomCount := 2, clauses := [[], [.negative 1, .positive 0]] } := rfl

-- A clause that is not closed by a zero is none.
example : read? "p cnf 2 1\n-2 1\n" = none := rfl

end Dimacs
end PropSat
