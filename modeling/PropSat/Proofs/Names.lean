import PropSat.AtomTable

/-!
# Names and tables

Source variables bear nonempty alphanumeric names, which can be cut off a text that goes on with
another character.  In a table without repeated names, looking a name up inverts looking an atom up.
What asking for names leads to is told by the table that includes them, which lists the distinct
names in the order of their first occurrence: as long as it fits within the atoms that there are,
every name is given one of its atoms.
-/

namespace PropSat

/-- Whether a name is one that a source variable can bear. -/
def SourceName (name : String) : Prop :=
  name.toList ≠ [] ∧ ∀ character ∈ name.toList, character.isAlphanum = true

/-- Whether a text goes on with a character that no source name has, or ends. -/
def Breaks (text : List Char) : Prop := ∀ first ∈ text.head?, first.isAlphanum = false

theorem breaks_nil : Breaks [] := by
  intro first member
  cases member

theorem breaks_cons {first : Char} {rest : List Char} (other : first.isAlphanum = false) :
    Breaks (first :: rest) := by
  intro character member
  cases member
  exact other

section Cutting

variable {word rest : List Char}

theorem takeWhile_of_breaks (breaks : Breaks rest) : rest.takeWhile Char.isAlphanum = [] := by
  cases rest with
  | nil => rfl
  | cons first rest => simp [breaks first rfl]

theorem dropWhile_of_breaks (breaks : Breaks rest) : rest.dropWhile Char.isAlphanum = rest := by
  cases rest with
  | nil => rfl
  | cons first rest => simp [breaks first rfl]

theorem takeWhile_word (alphanumeric : ∀ character ∈ word, character.isAlphanum = true)
    (breaks : Breaks rest) : (word ++ rest).takeWhile Char.isAlphanum = word := by
  rw [List.takeWhile_append_of_pos alphanumeric, takeWhile_of_breaks breaks, List.append_nil]

theorem dropWhile_word (alphanumeric : ∀ character ∈ word, character.isAlphanum = true)
    (breaks : Breaks rest) : (word ++ rest).dropWhile Char.isAlphanum = rest := by
  rw [List.dropWhile_append_of_pos alphanumeric, dropWhile_of_breaks breaks]

theorem breaks_dropWhile (text : List Char) : Breaks (text.dropWhile Char.isAlphanum) := by
  induction text with
  | nil => exact breaks_nil
  | cons first rest induction =>
      by_cases alphanumeric : first.isAlphanum = true
      · rw [List.dropWhile_cons_of_pos alphanumeric]
        exact induction
      · rw [List.dropWhile_cons_of_neg alphanumeric]
        exact breaks_cons (Bool.eq_false_iff.mpr alphanumeric)

end Cutting

namespace AtomTable

/-- Whether no name is borne by two atoms. -/
def Distinct (table : AtomTable) : Prop := table.names.toList.Nodup

/-- Whether a later table has all atoms of an earlier one, under the same names. -/
def Below (earlier later : AtomTable) : Prop := earlier.names.toList <+: later.names.toList

/-- Whether all names are those of source variables, each given once. -/
structure Plain (table : AtomTable) : Prop where
  /-- No name is given twice. -/
  distinct : table.Distinct
  /-- Every name is nonempty and alphanumeric. -/
  alphanumeric : ∀ name ∈ table.names.toList, SourceName name

theorem name?_eq (table : AtomTable) (atom : Nat) :
    table.name? atom = table.names.toList[atom]? := by
  rw [name?, Array.getElem?_toList]

theorem count_eq (table : AtomTable) : table.count = table.names.toList.length := by
  rw [count, Array.length_toList]

theorem Below.refl (table : AtomTable) : table.Below table := List.prefix_refl _

theorem Below.trans {first second third : AtomTable} (low : first.Below second)
    (high : second.Below third) : first.Below third :=
  List.IsPrefix.trans low high

theorem Below.count_le {earlier later : AtomTable} (below : earlier.Below later) :
    earlier.count ≤ later.count := by
  rw [count_eq, count_eq]
  exact below.length_le

theorem Below.name? {earlier later : AtomTable} (below : earlier.Below later) {atom : Nat}
    {name : String} (named : earlier.name? atom = some name) : later.name? atom = some name := by
  rw [name?_eq] at named ⊢
  obtain ⟨added, later_eq⟩ := below
  obtain ⟨inside, _⟩ := List.getElem?_eq_some_iff.mp named
  rw [← later_eq, List.getElem?_append_left inside, named]

theorem latestBelow_eq_some_iff {table : AtomTable} {name : String} {bound atom : Nat} :
    table.latestBelow name bound = some atom ↔
      atom < bound ∧ table.name? atom = some name ∧
        ∀ later, atom < later → later < bound → table.name? later ≠ some name := by
  induction bound with
  | zero => simp [latestBelow]
  | succ bound induction =>
      rw [latestBelow]
      split
      · rename_i named
        constructor
        · intro found
          have same : bound = atom := Option.some.inj found
          subst same
          exact ⟨Nat.lt_succ_self bound, named, fun later above below => by omega⟩
        · rintro ⟨inside, _, latest⟩
          by_cases same : atom = bound
          · rw [same]
          · exact (latest bound (by omega) (Nat.lt_succ_self bound) named).elim
      · rename_i not_named
        rw [induction]
        constructor
        · rintro ⟨inside, named, latest⟩
          refine ⟨by omega, named, fun later above below => ?_⟩
          by_cases same : later = bound
          · rw [same]
            exact not_named
          · exact latest later above (by omega)
        · rintro ⟨inside, named, latest⟩
          have different : atom ≠ bound := by
            rintro rfl
            exact not_named named
          exact ⟨by omega, named, fun later above below => latest later above (by omega)⟩

theorem name?_lt_count {table : AtomTable} {atom : Nat} {name : String}
    (named : table.name? atom = some name) : atom < table.count :=
  (Array.getElem?_eq_some_iff.mp named).1

theorem exists_name?_of_mem {table : AtomTable} {name : String}
    (member : name ∈ table.names.toList) : ∃ atom, table.name? atom = some name := by
  obtain ⟨atom, named⟩ := List.mem_iff_getElem?.mp member
  exact ⟨atom, (table.name?_eq atom).trans named⟩

/-- A name denotes the latest atom that bears it. -/
theorem find?_eq_some_iff {table : AtomTable} {name : String} {atom : Nat} :
    table.find? name = some atom ↔
      table.name? atom = some name ∧ ∀ later, table.name? later = some name → later ≤ atom := by
  rw [find?, latestBelow_eq_some_iff]
  constructor
  · rintro ⟨_, named, latest⟩
    refine ⟨named, fun later later_named => ?_⟩
    by_cases above : atom < later
    · exact (latest later above (name?_lt_count later_named) later_named).elim
    · omega
  · rintro ⟨named, latest⟩
    refine ⟨name?_lt_count named, named, fun later above _ later_named => ?_⟩
    have not_above := latest later later_named
    omega

theorem latestBelow_eq_none_iff {table : AtomTable} {name : String} {bound : Nat} :
    table.latestBelow name bound = none ↔ ∀ atom < bound, table.name? atom ≠ some name := by
  induction bound with
  | zero => simp [latestBelow]
  | succ bound induction =>
      rw [latestBelow]
      split
      · rename_i named
        simp only [reduceCtorEq, false_iff]
        exact fun unnamed => unnamed bound (Nat.lt_succ_self bound) named
      · rename_i not_named
        rw [induction]
        constructor
        · intro unnamed atom inside
          by_cases same : atom = bound
          · rw [same]
            exact not_named
          · exact unnamed atom (by omega)
        · exact fun unnamed atom inside => unnamed atom (by omega)

theorem find?_eq_none_iff {table : AtomTable} {name : String} :
    table.find? name = none ↔ name ∉ table.names.toList := by
  rw [find?, latestBelow_eq_none_iff, List.mem_iff_getElem?]
  simp only [not_exists, ← name?_eq]
  constructor
  · intro unnamed atom named
    exact unnamed atom (name?_lt_count named) named
  · exact fun unnamed atom _ => unnamed atom

namespace Distinct

variable {table : AtomTable}

theorem atom_eq (distinct : table.Distinct) {first second : Nat} {name : String}
    (first_named : table.name? first = some name) (second_named : table.name? second = some name) :
    first = second := by
  have inside := name?_lt_count first_named
  rw [count_eq] at inside
  rw [name?_eq] at first_named second_named
  exact (List.getElem?_inj inside distinct).mp (first_named.trans second_named.symm)

/-- Without repeated names, looking a name up inverts looking an atom up. -/
theorem find?_iff (distinct : table.Distinct) {name : String} {atom : Nat} :
    table.find? name = some atom ↔ table.name? atom = some name := by
  rw [find?_eq_some_iff]
  constructor
  · exact And.left
  · intro named
    exact ⟨named, fun later later_named => Nat.le_of_eq (distinct.atom_eq later_named named)⟩

end Distinct

/-- Whether a table has no more atoms than there are to give out. -/
def Fits (table : AtomTable) : Prop := table.count ≤ atomLimit

instance (table : AtomTable) : Decidable table.Fits :=
  inferInstanceAs (Decidable (table.count ≤ atomLimit))

theorem Fits.of_below {earlier later : AtomTable} (below : earlier.Below later)
    (fits : later.Fits) : earlier.Fits :=
  Nat.le_trans below.count_le fits

/-- The table with a name behind the others, unless it is among them.  It may have more atoms than
there are to give out. -/
def including (table : AtomTable) (name : String) : AtomTable :=
  if name ∈ table.names.toList then table else table.extend name

/-- Names of a table after one was added if it was missing. -/
theorem names_including (table : AtomTable) (name : String) :
    (table.including name).names.toList =
      if name ∈ table.names.toList then table.names.toList else table.names.toList ++ [name] := by
  rw [including]
  split
  · rfl
  · exact Array.toList_push

theorem below_including (table : AtomTable) (name : String) :
    table.Below (table.including name) := by
  rw [Below, names_including]
  split
  · exact List.prefix_refl _
  · exact List.prefix_append _ _

theorem Distinct.including {table : AtomTable} (distinct : table.Distinct) (name : String) :
    (table.including name).Distinct := by
  rw [Distinct, names_including]
  split
  · exact distinct
  · rename_i absent
    refine List.nodup_append.mpr ⟨distinct, by simp, ?_⟩
    intro other member added added_mem
    rw [List.mem_singleton.mp added_mem]
    rintro rfl
    exact absent member

/-- What asking for a name does: it gives an atom of that name, or there is none left for it. -/
theorem intern_cases (table : AtomTable) (name : String) :
    (∃ atom, (table.including name).name? atom = some name ∧
        table.intern name = (.ok atom, table.including name) ∧
        (table.Fits → (table.including name).Fits)) ∨
      (¬ (table.including name).Fits ∧ table.intern name = (.error .noAtomLeft, table)) := by
  cases found : table.find? name with
  | some atom =>
      have named := (find?_eq_some_iff.mp found).1
      have member : name ∈ table.names.toList :=
        List.mem_of_getElem? ((table.name?_eq atom).symm.trans named)
      have same : table.including name = table := if_pos member
      rw [intern, found, same]
      exact .inl ⟨atom, named, rfl, id⟩
  | none =>
      have added : table.including name = table.extend name := if_neg (find?_eq_none_iff.mp found)
      have fits_iff : (table.extend name).Fits ↔ table.count < atomLimit := by
        rw [Fits, count, extend, Array.size_push]
        exact Nat.succ_le_iff
      rw [intern, found, added, fits_iff]
      by_cases room : table.count < atomLimit
      · exact .inl ⟨table.count, Array.getElem?_push_size, if_pos room, fun _ => room⟩
      · exact .inr ⟨room, if_neg room⟩

/-- A name is given an atom if the table with that name has no more atoms than there are. -/
theorem exists_intern {table : AtomTable} {name : String} (fits : (table.including name).Fits) :
    ∃ atom, (table.including name).name? atom = some name ∧
      table.intern name = (.ok atom, table.including name) := by
  rcases table.intern_cases name with ⟨atom, named, interned, _⟩ | ⟨full, _⟩
  · exact ⟨atom, named, interned⟩
  · exact absurd fits full

/-- A name is given none otherwise. -/
theorem intern_of_not_fits {table : AtomTable} {name : String} (fits : table.Fits)
    (full : ¬ (table.including name).Fits) : table.intern name = (.error .noAtomLeft, table) := by
  rcases table.intern_cases name with ⟨_, _, _, grown⟩ | ⟨_, refused⟩
  · exact absurd (grown fits) full
  · exact refused

/-- Add the names that are missing, in turn. -/
def includingAll (table : AtomTable) (names : List String) : AtomTable :=
  names.foldl including table

@[simp]
theorem includingAll_nil (table : AtomTable) : table.includingAll [] = table := rfl

@[simp]
theorem includingAll_cons (table : AtomTable) (name : String) (names : List String) :
    table.includingAll (name :: names) = (table.including name).includingAll names := rfl

theorem includingAll_append (table : AtomTable) (front back : List String) :
    table.includingAll (front ++ back) = (table.includingAll front).includingAll back :=
  List.foldl_append

theorem below_includingAll (table : AtomTable) (names : List String) :
    table.Below (table.includingAll names) := by
  induction names generalizing table with
  | nil => exact Below.refl table
  | cons name names induction => exact (table.below_including name).trans (induction _)

theorem Distinct.includingAll {table : AtomTable} (distinct : table.Distinct)
    (names : List String) : (table.includingAll names).Distinct := by
  induction names generalizing table with
  | nil => exact distinct
  | cons name names induction => exact induction (distinct.including name)

theorem mem_names_includingAll {table : AtomTable} {names : List String} {name : String} :
    name ∈ (table.includingAll names).names.toList ↔
      name ∈ table.names.toList ∨ name ∈ names := by
  induction names generalizing table with
  | nil => simp
  | cons first names induction =>
      rw [includingAll_cons, induction, names_including]
      grind

end AtomTable

theorem eraseDups_eq_self {names : List String} (distinct : names.Nodup) :
    names.eraseDups = names := by
  induction names with
  | nil => rfl
  | cons name names induction =>
      obtain ⟨absent, rest_distinct⟩ := List.nodup_cons.mp distinct
      rw [List.eraseDups_cons, List.filter_eq_self.mpr, induction rest_distinct]
      intro other member
      simp only [Bool.not_eq_true', beq_eq_false_iff_ne]
      rintro rfl
      exact absent member

theorem AtomTable.Distinct.names_includingAll {table : AtomTable} (distinct : table.Distinct)
    (names : List String) :
    (table.includingAll names).names.toList = (table.names.toList ++ names).eraseDups := by
  induction names generalizing table with
  | nil => rw [includingAll_nil, List.append_nil, eraseDups_eq_self distinct]
  | cons name names induction =>
      rw [includingAll_cons, induction (distinct.including name), names_including]
      split
      · rename_i member
        have skipped : (name :: names).removeAll table.names.toList =
            names.removeAll table.names.toList := by
          rw [List.removeAll, List.filter_cons_of_neg (by simpa using member), List.removeAll]
        rw [List.eraseDups_append, List.eraseDups_append, skipped]
      · rw [List.append_assoc, List.singleton_append]

end PropSat
