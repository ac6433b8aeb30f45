import PropSat.CommandLine.Arguments
import PropSat.Proofs.Decimal

/-!
# Reading arguments

The options are listed once, with the values that they take.  An argument is read by the name before
its first equality sign and by the value from there to the next one.  So an option is taken for what
it asks for whatever follows behind a further equality sign, and for a flag that is the first one.
-/

namespace PropSat
namespace CommandLine

/-- Options without a value, with what they ask for. -/
def flags : List (String × Argument) :=
  [("-q", .quiet 1), ("-qq", .quiet 2), ("--dimacs", .dimacs), ("--tseitin", .tseitin)]

/-- Options with a count for a value, with what they ask for. -/
def countOptions : List (String × (Option Nat → Argument)) :=
  [("--decision_limit", .decisionLimit), ("--random", .seed), ("--time_limit", .timeLimit)]

/-- A count that a setting can hold, in digits and perhaps after a plus sign. -/
inductive Counts : List Char → Nat → Prop where
  | plain {digits : List Char} {count : Nat} (decimal : IsDecimal digits count)
      (fits : count ≤ greatestCount) : Counts digits count
  | signed {digits : List Char} {count : Nat} (decimal : IsDecimal digits count)
      (fits : count ≤ greatestCount) : Counts ('+' :: digits) count

/-- Names of the options with a value. -/
def valuedNames : List String := ["--decision_limit", "--equiv", "--random", "--time_limit"]

/-- What an option with a value asks for. -/
inductive Takes : String → List Char → Argument → Prop where
  | count {name : String} {request : Option Nat → Argument} {word : List Char} {count : Nat}
      (known : (name, request) ∈ countOptions) (counts : Counts word count) :
      Takes name word (request (some count))
  | template (template : IffTemplate) :
      Takes "--equiv" template.text.toList (.iffTemplate (some template))

/-- What an argument asks for that is a formula, or an option with its value and nothing else. -/
inductive Asks : List Char → Argument → Prop where
  | formula {text : List Char} (plain : text.head? ≠ some '-') :
      Asks text (.formula (.ofList text))
  | flag {name : String} {request : Argument} (known : (name, request) ∈ flags) :
      Asks name.toList request
  | valued {name : String} {word : List Char} {request : Argument}
      (takes : Takes name word request) : Asks (name.toList ++ '=' :: word) request

/-- What an argument is taken to ask for, if an equality sign and anything else may follow an
option. -/
inductive TakenFor : List Char → Argument → Prop where
  | whole {text : List Char} {request : Argument} (asks : Asks text request) :
      TakenFor text request
  | trailed {option surplus : List Char} {request : Argument} (hyphen : option.head? = some '-')
      (asks : Asks option request) : TakenFor (option ++ '=' :: surplus) request

/-- Whether a request has the value that it needs, within the bounds of every setting. -/
def Argument.Usable : Argument → Prop
  | .formula _ | .dimacs | .tseitin => True
  | .quiet level => level = 1 ∨ level = 2
  | .iffTemplate template => ∃ chosen, template = some chosen
  | .decisionLimit count | .seed count | .timeLimit count =>
      ∃ number ≤ greatestCount, count = some number
  | .unknown _ => False

/-- Whether a request lacks the value that it needs, or is for no known option. -/
def Argument.Refused : Argument → Prop
  | .iffTemplate template => template = none
  | .decisionLimit count | .seed count | .timeLimit count => count = none
  | .unknown _ => True
  | _ => False

section Counts

variable {word : List Char} {count : Nat}

theorem Counts.fits (counts : Counts word count) : count ≤ greatestCount := by
  cases counts with
  | plain _ fits | signed _ fits => exact fits

theorem Counts.notMem (counts : Counts word count) : '=' ∉ word := by
  cases counts with
  | plain decimal _ => exact decimal.notMem (by decide)
  | signed decimal _ => simpa using decimal.notMem (by decide)

/-- The check that is made of digits, and the number that they are read as. -/
theorem reads_iff {digits : List Char} :
    (!digits.isEmpty && digits.all Char.isDigit && decide (digitsValue digits ≤ greatestCount)) =
        true ↔
      IsDecimal digits (digitsValue digits) ∧ digitsValue digits ≤ greatestCount := by
  simp only [Bool.and_eq_true, Bool.not_eq_true', List.isEmpty_eq_false_iff, List.all_eq_true,
    decide_eq_true_eq]
  constructor
  · rintro ⟨⟨nonempty, digit⟩, fits⟩
    exact ⟨⟨nonempty, digit, rfl⟩, fits⟩
  · rintro ⟨decimal, fits⟩
    exact ⟨⟨decimal.nonempty, decimal.digit⟩, fits⟩

theorem readCount?_eq_some_iff : readCount? word = some count ↔ Counts word count := by
  unfold readCount?
  constructor
  · intro read
    split at read
    all_goals
      obtain ⟨reads, count_eq⟩ := Option.ite_none_right_eq_some.mp read
      obtain ⟨decimal, fits⟩ := reads_iff.mp reads
      cases count_eq
    · exact .signed decimal fits
    · exact .plain decimal fits
  · intro counts
    have reads {digits : List Char} (decimal : IsDecimal digits count)
        (fits : count ≤ greatestCount) :
        (if (!digits.isEmpty && digits.all Char.isDigit &&
            decide (digitsValue digits ≤ greatestCount)) = true then some (digitsValue digits)
          else none) = some count := by
      have value : digitsValue digits = count := decimal.value
      rw [if_pos (reads_iff.mpr (value ▸ ⟨decimal, fits⟩)), value]
    cases counts with
    | plain decimal fits =>
        split
        · exact absurd List.mem_cons_self (decimal.notMem (by decide))
        · exact reads decimal fits
    | signed decimal fits => exact reads decimal fits

theorem usable_or_eq_none (value : Option (List Char)) :
    (∃ number ≤ greatestCount, value.bind readCount? = some number) ∨
      value.bind readCount? = none := by
  cases count_eq : value.bind readCount? with
  | none => exact .inr rfl
  | some count =>
      obtain ⟨word, _, read⟩ := Option.bind_eq_some_iff.mp count_eq
      exact .inl ⟨count, (readCount?_eq_some_iff.mp read).fits, rfl⟩

end Counts

/-- Whether a word can be the name of an option. -/
structure IsName (name : List Char) : Prop where
  /-- Options begin with a hyphen. -/
  hyphen : name.head? = some '-'
  /-- The name ends before the first equality sign. -/
  free : '=' ∉ name

instance (name : List Char) : Decidable (IsName name) :=
  decidable_of_iff (name.head? = some '-' ∧ '=' ∉ name)
    ⟨fun both => ⟨both.1, both.2⟩, fun both => ⟨both.hyphen, both.free⟩⟩

section Names

variable {name : String} {word : List Char} {request : Argument}

theorem isName_of_flag (known : (name, request) ∈ flags) : IsName name.toList := by
  have names : ∀ flag ∈ flags, IsName flag.1.toList := by decide
  exact names _ known

theorem Takes.mem_valuedNames (takes : Takes name word request) : name ∈ valuedNames := by
  cases takes with
  | count known _ =>
      have names : ∀ option ∈ countOptions, option.1 ∈ valuedNames := by decide
      exact names _ known
  | template => decide

theorem Takes.isName (takes : Takes name word request) : IsName name.toList := by
  have names : ∀ name ∈ valuedNames, IsName name.toList := by decide
  exact names _ takes.mem_valuedNames

theorem Takes.notMem (takes : Takes name word request) : '=' ∉ word := by
  cases takes with
  | count _ counts => exact counts.notMem
  | template template => cases template <;> decide

end Names

section Cutting

variable {front : List Char}

theorem optionName_append (free : '=' ∉ front) (rest : List Char) :
    optionName (front ++ rest) = front ++ optionName rest :=
  List.takeWhile_append_of_pos fun _ member => decide_eq_true fun same => free (same ▸ member)

theorem optionValue?_append (free : '=' ∉ front) (rest : List Char) :
    optionValue? (front ++ rest) = optionValue? rest := by
  rw [optionValue?, optionValue?, List.dropWhile_append_of_pos]
  exact fun _ member => decide_eq_true fun same => free (same ▸ member)

/-- A text is the name before its first equality sign, and what there is from there on. -/
theorem exists_eq_optionName_append (text : List Char) :
    ∃ rest, text = optionName text ++ rest ∧ (rest = [] ∨ ∃ back, rest = '=' :: back) := by
  refine ⟨text.dropWhile (· ≠ '='), List.takeWhile_append_dropWhile.symm, ?_⟩
  have head := List.head?_dropWhile_not (· ≠ '=') text
  cases rest_eq : text.dropWhile (· ≠ '=') with
  | nil => exact .inl rfl
  | cons first back =>
      rw [rest_eq] at head
      refine .inr ⟨back, ?_⟩
      rw [show first = '=' by simpa using head]

end Cutting

section Texts

variable {text name : String} {word : List Char} {request : Argument}

theorem ofText_formula (plain : text.toList.head? ≠ some '-') :
    Argument.ofText text = .formula text :=
  if_pos plain

theorem ofText_flag (known : (name, request) ∈ flags) (hyphen : text.toList.head? = some '-')
    (named : optionName text.toList = name.toList) : Argument.ofText text = request := by
  unfold Argument.ofText
  rw [if_neg (by simpa using hyphen), named, String.ofList_toList]
  simp only [flags, List.mem_cons, Prod.mk.injEq, List.not_mem_nil, or_false] at known
  rcases known with ⟨rfl, rfl⟩ | ⟨rfl, rfl⟩ | ⟨rfl, rfl⟩ | ⟨rfl, rfl⟩ <;> rfl

theorem ofText_valued (takes : Takes name word request) (hyphen : text.toList.head? = some '-')
    (named : optionName text.toList = name.toList)
    (value : optionValue? text.toList = some word) : Argument.ofText text = request := by
  unfold Argument.ofText
  rw [if_neg (by simpa using hyphen), named, String.ofList_toList]
  simp only [value]
  cases takes with
  | count known counts =>
      have read := readCount?_eq_some_iff.mpr counts
      simp only [countOptions, List.mem_cons, Prod.mk.injEq, List.not_mem_nil, or_false] at known
      rcases known with ⟨rfl, rfl⟩ | ⟨rfl, rfl⟩ | ⟨rfl, rfl⟩
      · exact congrArg Argument.decisionLimit read
      · exact congrArg Argument.seed read
      · exact congrArg Argument.timeLimit read
  | template template => cases template <;> rfl

theorem TakenFor.of_append {option rest : List Char} (asks : Asks option request)
    (hyphen : option.head? = some '-') (ended : rest = [] ∨ ∃ back, rest = '=' :: back) :
    TakenFor (option ++ rest) request := by
  rcases ended with rfl | ⟨surplus, rfl⟩
  · rw [List.append_nil]
    exact .whole asks
  · exact .trailed hyphen asks

/-- An argument by the name of a flag is taken for the flag. -/
theorem takenFor_flag (known : (name, request) ∈ flags)
    (named : optionName text.toList = name.toList) : TakenFor text.toList request := by
  obtain ⟨rest, text_eq, ended⟩ := exists_eq_optionName_append text.toList
  rw [text_eq, named]
  exact .of_append (.flag known) (isName_of_flag known).hyphen ended

/-- An argument by the name of an option is taken for the option with the value that it gives. -/
theorem takenFor_valued (takes : Takes name word request)
    (named : optionName text.toList = name.toList)
    (value : optionValue? text.toList = some word) : TakenFor text.toList request := by
  obtain ⟨rest, text_eq, ended⟩ := exists_eq_optionName_append text.toList
  rw [named] at text_eq
  rw [text_eq, optionValue?_append takes.isName.free] at value
  rcases ended with rfl | ⟨back, rfl⟩
  · cases value
  · have word_eq : optionName back = word := Option.some.inj value
    obtain ⟨surplus, back_eq, ended⟩ := exists_eq_optionName_append back
    have hyphen : (name.toList ++ '=' :: word).head? = some '-' := by
      rw [List.head?_append, takes.isName.hyphen, Option.some_or]
    rw [text_eq, back_eq, word_eq, ← List.cons_append, ← List.append_assoc]
    exact .of_append (.valued takes) hyphen ended

theorem takenFor_count {request : Option Nat → Argument} {count : Option Nat}
    (known : (name, request) ∈ countOptions) (named : optionName text.toList = name.toList)
    (read : (optionValue? text.toList).bind readCount? = count)
    (usable : ∃ number ≤ greatestCount, count = some number) :
    TakenFor text.toList (request count) := by
  obtain ⟨number, _, rfl⟩ := usable
  obtain ⟨word, value, word_read⟩ := Option.bind_eq_some_iff.mp read
  exact takenFor_valued (.count known (readCount?_eq_some_iff.mp word_read)) named value

theorem ofText?_eq_some_iff {template : IffTemplate} :
    IffTemplate.ofText? text = some template ↔ text = template.text := by
  unfold IffTemplate.ofText?
  cases template <;> grind [IffTemplate.text]

theorem takenFor_template {template : Option IffTemplate}
    (named : optionName text.toList = "--equiv".toList)
    (read : ((optionValue? text.toList).bind fun value => IffTemplate.ofText? (.ofList value)) =
      template)
    (usable : ∃ chosen, template = some chosen) :
    TakenFor text.toList (.iffTemplate template) := by
  obtain ⟨chosen, rfl⟩ := usable
  obtain ⟨word, value, word_read⟩ := Option.bind_eq_some_iff.mp read
  have word_eq : word = chosen.text.toList := by
    rw [← ofText?_eq_some_iff.mp word_read, String.toList_ofList]
  exact takenFor_valued (.template chosen) named (word_eq ▸ value)

/-- An argument is read as what it is taken to ask for. -/
theorem takenFor_of_ofText (read : Argument.ofText text = request) (usable : request.Usable) :
    TakenFor text.toList request := by
  by_cases plain : text.toList.head? ≠ some '-'
  · rw [ofText_formula plain] at read
    have asks := Asks.formula plain
    rw [String.ofList_toList, read] at asks
    exact .whole asks
  · unfold Argument.ofText at read
    rw [if_neg plain] at read
    have named {name : String} (same : String.ofList (optionName text.toList) = name) :
        optionName text.toList = name.toList := by rw [← same, String.toList_ofList]
    split at read
    all_goals
      rename_i same
      subst read
    -- The options in the order in which they are told apart.
    · exact takenFor_flag (by simp [flags]) (named same)
    · exact takenFor_flag (by simp [flags]) (named same)
    · exact takenFor_flag (by simp [flags]) (named same)
    · exact takenFor_flag (by simp [flags]) (named same)
    · exact takenFor_count (by simp [countOptions]) (named same) rfl usable
    · exact takenFor_template (named same) rfl usable
    · exact takenFor_count (by simp [countOptions]) (named same) rfl usable
    · exact takenFor_count (by simp [countOptions]) (named same) rfl usable
    · exact usable.elim

theorem Asks.usable {text : List Char} (asks : Asks text request) : request.Usable := by
  cases asks with
  | formula _ => trivial
  | flag known =>
      have usable : ∀ flag ∈ flags, flag.2.Usable := by simp [flags, Argument.Usable]
      exact usable _ known
  | valued takes =>
      cases takes with
      | @count _ _ _ count known counts =>
          have usable : ∀ option ∈ countOptions, (option.2 (some count)).Usable := by
            simp [countOptions, Argument.Usable, counts.fits]
          exact usable _ known
      | template template => exact ⟨template, rfl⟩

/-- An option is read as what it asks for, also before an equality sign. -/
theorem ofText_of_asks {option rest : List Char} (asks : Asks option request)
    (ended : optionName rest = []) (hyphen : option.head? = some '-' ∨ rest = [])
    (text_eq : text.toList = option ++ rest) : Argument.ofText text = request := by
  cases asks with
  | formula plain =>
      rcases hyphen with hyphen | rfl
      · exact absurd hyphen plain
      · rw [List.append_nil] at text_eq
        rw [ofText_formula (text_eq ▸ plain), ← text_eq, String.ofList_toList]
  | flag known =>
      have is_name := isName_of_flag known
      refine ofText_flag known ?_ ?_ <;> rw [text_eq]
      · rw [List.head?_append, is_name.hyphen, Option.some_or]
      · rw [optionName_append is_name.free, ended, List.append_nil]
  | @valued name word request takes =>
      have is_name := takes.isName
      rw [List.append_assoc, List.cons_append] at text_eq
      refine ofText_valued takes ?_ ?_ ?_ <;> rw [text_eq]
      · rw [List.head?_append, is_name.hyphen, Option.some_or]
      · rw [optionName_append is_name.free]
        exact List.append_nil _
      · rw [optionValue?_append is_name.free]
        have word_eq : optionName (word ++ rest) = word := by
          rw [optionName_append takes.notMem, ended, List.append_nil]
        exact congrArg some word_eq

/-- Reading an argument finds just what it is taken to ask for. -/
theorem takenFor_iff :
    TakenFor text.toList request ↔ Argument.ofText text = request ∧ request.Usable := by
  constructor
  · intro taken
    generalize text_eq : text.toList = characters at taken
    cases taken with
    | whole asks =>
        exact ⟨ofText_of_asks asks rfl (.inr rfl) (text_eq.trans (List.append_nil _).symm),
          asks.usable⟩
    | trailed hyphen asks => exact ⟨ofText_of_asks asks rfl (.inl hyphen) text_eq, asks.usable⟩
  · rintro ⟨read, usable⟩
    exact takenFor_of_ofText read usable

/-- What stands behind an option is no part of any option. -/
theorem not_asks_of_surplus {option surplus : List Char} (asks : Asks option request)
    (hyphen : option.head? = some '-') (other : Argument) :
    ¬ Asks (option ++ '=' :: surplus) other := by
  intro other_asks
  generalize text_eq : option ++ '=' :: surplus = text at other_asks
  cases other_asks with
  | formula plain =>
      apply plain
      rw [← text_eq, List.head?_append, hyphen, Option.some_or]
  | flag known =>
      apply (isName_of_flag known).free
      rw [← text_eq]
      simp
  | @valued other_name other_word _ other_takes =>
      cases asks with
      | formula plain => exact plain hyphen
      | @flag name _ known =>
          have same_name : name.toList = other_name.toList := by
            have names := congrArg optionName text_eq
            rw [optionName_append (isName_of_flag known).free,
              optionName_append other_takes.isName.free] at names
            exact List.append_cancel_right names
          have apart : ∀ flag ∈ flags, flag.1 ∉ valuedNames := by decide
          exact apart _ known (String.toList_inj.mp same_name ▸ other_takes.mem_valuedNames)
      | valued _ =>
          -- There are two equality signs on the left, and one on the right.
          have counted := congrArg (List.count '=') text_eq
          simp only [List.count_append, List.count_cons_self,
            List.count_eq_zero.mpr other_takes.isName.free,
            List.count_eq_zero.mpr other_takes.notMem] at counted
          omega

/-- What is read is either usable or refused. -/
theorem usable_or_refused (text : String) :
    (Argument.ofText text).Usable ∨ (Argument.ofText text).Refused := by
  by_cases plain : text.toList.head? ≠ some '-'
  · rw [ofText_formula plain]
    exact .inl trivial
  · unfold Argument.ofText
    rw [if_neg plain]
    split
    · exact .inl (.inl rfl)
    · exact .inl (.inr rfl)
    · exact .inl trivial
    · exact .inl trivial
    · exact usable_or_eq_none _
    · exact (Option.eq_none_or_eq_some _).symm
    · exact usable_or_eq_none _
    · exact usable_or_eq_none _
    · exact .inr trivial

end Texts

end CommandLine
end PropSat
