import PropSat.AtomRegistry
import PropSat.Proofs.Names

/-!
# The registry of atoms and the table of its names

What a registry stores apart stays in lockstep under every call that may give out an atom: a name
denotes the latest atom that bears it, and the literals stored for an atom are those on that atom.
The registry hence gives out the atoms that the table of its names gives out, and fails where the
table fails.
-/

namespace PropSat

/-- A call that may give out an atom. -/
inductive AtomCall where
  /-- Add an atom under a name, in use or not. -/
  | add (name : String)
  /-- Ask for the atom that a name denotes, added if there is none. -/
  | intern (name : String)

/-- The name that a call is about. -/
def AtomCall.name : AtomCall → String
  | add name => name
  | intern name => name

namespace AtomTable

/-- Atom and table that a call leads to. -/
def call (table : AtomTable) : AtomCall → Except Fault Nat × AtomTable
  | .add name => table.add name
  | .intern name => table.intern name

/-- Table after some calls. -/
def after (table : AtomTable) (calls : List AtomCall) : AtomTable :=
  calls.foldl (fun table call => (table.call call).2) table

theorem name?_extend (table : AtomTable) (name : String) (atom : Nat) :
    (table.extend name).name? atom =
      if atom = table.count then some name else table.name? atom :=
  Array.getElem?_push

theorem count_extend (table : AtomTable) (name : String) :
    (table.extend name).count = table.count + 1 :=
  Array.size_push name

/-- An added name denotes the added atom, and what other names denote stays. -/
theorem find?_extend (table : AtomTable) (name other : String) :
    (table.extend name).find? other =
      if other = name then some table.count else table.find? other := by
  by_cases same : other = name
  · rw [if_pos same, find?_eq_some_iff, name?_extend, if_pos rfl, same]
    refine ⟨rfl, fun later named => ?_⟩
    have inside := name?_lt_count named
    rw [count_extend] at inside
    omega
  · rw [if_neg same]
    -- The added atom bears another name, so the same atoms bear this one as before.
    have borne : ∀ atom, (table.extend name).name? atom = some other ↔
        table.name? atom = some other := by
      intro atom
      rw [name?_extend]
      split
      · rename_i at_end
        simp only [Option.some.injEq, Ne.symm same, false_iff]
        intro named
        have inside := name?_lt_count named
        omega
      · rfl
    ext atom
    simp only [find?_eq_some_iff, borne]

theorem poles?_extend (table : AtomTable) (name : String) (atom : Nat) :
    (table.extend name).poles? atom =
      if atom = table.count then some (.positive table.count, .negative table.count)
      else table.poles? atom := by
  rw [poles?, count_extend, poles?]
  grind

end AtomTable

namespace AtomRegistry

/-- Answer to a call and registry that it leads to. -/
def call (registry : AtomRegistry) : AtomCall → Except Fault Nat × AtomRegistry
  | .add name => registry.add name
  | .intern name => registry.intern name

/-- Registry after some calls. -/
def after (registry : AtomRegistry) (calls : List AtomCall) : AtomRegistry :=
  calls.foldl (fun registry call => (registry.call call).2) registry

theorem after_append (registry : AtomRegistry) (front back : List AtomCall) :
    registry.after (front ++ back) = (registry.after front).after back :=
  List.foldl_append

section Extension

variable (registry : AtomRegistry) (name : String)

theorem count_extend : (registry.extend name).count = registry.count + 1 := Array.size_push name

theorem table_extend : (registry.extend name).table = registry.table.extend name := rfl

theorem find?_extend (other : String) :
    (registry.extend name).find? other =
      if other = name then some registry.count else registry.find? other := by
  by_cases same : other = name
  · simp [find?, extend, same]
  · simp [find?, extend, List.lookup_cons, same, beq_false_of_ne same]

theorem poles?_extend (aligned : registry.poles.size = registry.count) (atom : Nat) :
    (registry.extend name).poles? atom =
      if atom = registry.count then some (.positive registry.count, .negative registry.count)
      else registry.poles? atom := by
  rw [poles?, extend, Array.getElem?_push, aligned, poles?]

/-- An atom is added, or there is none left. -/
theorem add_cases :
    (registry.count < atomLimit ∧
        registry.add name = (.ok registry.count, registry.extend name)) ∨
      (atomLimit ≤ registry.count ∧ registry.add name = (.error .noAtomLeft, registry)) := by
  by_cases room : registry.count < atomLimit
  · exact .inl ⟨room, if_pos room⟩
  · exact .inr ⟨Nat.le_of_not_lt room, if_neg room⟩

/-- A name in use gives its atom, and another is added. -/
theorem intern_cases :
    (∃ atom, registry.find? name = some atom ∧ registry.intern name = (.ok atom, registry)) ∨
      (registry.find? name = none ∧ registry.intern name = registry.add name) := by
  cases found : registry.find? name with
  | some atom => exact .inl ⟨atom, rfl, by rw [intern, found]⟩
  | none => exact .inr ⟨rfl, by rw [intern, found]⟩

end Extension

/-- What a call does: it finds the atom of its name, adds one, or fails for lack of one. -/
theorem call_cases (registry : AtomRegistry) (call : AtomCall) :
    (∃ atom, registry.find? call.name = some atom ∧ registry.call call = (.ok atom, registry)) ∨
      (registry.count < atomLimit ∧
        registry.call call = (.ok registry.count, registry.extend call.name)) ∨
      (atomLimit ≤ registry.count ∧ registry.call call = (.error .noAtomLeft, registry)) := by
  cases call with
  | add name => exact .inr (registry.add_cases name)
  | intern name =>
      rcases registry.intern_cases name with ⟨atom, denoted, found⟩ | ⟨_, added⟩
      · exact .inl ⟨atom, denoted, found⟩
      · rw [AtomRegistry.call, added]
        exact .inr (registry.add_cases name)

/-- A registry and the table of its names, where every part says the same about an atom. -/
structure Lockstep (registry : AtomRegistry) : Prop where
  /-- No more atoms are given out than there are. -/
  within : registry.count ≤ atomLimit
  /-- There are literals for each atom. -/
  aligned : registry.poles.size = registry.count
  /-- A name denotes the latest atom that bears it. -/
  find?_eq : ∀ name, registry.find? name = registry.table.find? name
  /-- The literals stored for an atom are on that atom. -/
  poles?_eq : ∀ atom, registry.poles? atom = registry.table.poles? atom

namespace Lockstep

variable {registry : AtomRegistry}

theorem empty : Lockstep {} where
  within := Nat.zero_le _
  aligned := rfl
  find?_eq _ := rfl
  poles?_eq _ := rfl

theorem extend (lockstep : Lockstep registry) (room : registry.count < atomLimit)
    (name : String) : Lockstep (registry.extend name) where
  within := by
    rw [count_extend]
    exact room
  aligned := by
    rw [count_extend, ← lockstep.aligned]
    exact Array.size_push _
  find?_eq other := by
    rw [find?_extend, table_extend, AtomTable.find?_extend, lockstep.find?_eq]
    rfl
  poles?_eq atom := by
    rw [poles?_extend registry name lockstep.aligned, table_extend, AtomTable.poles?_extend,
      lockstep.poles?_eq]
    rfl

/-- Every call keeps the parts in lockstep. -/
theorem call (lockstep : Lockstep registry) (call : AtomCall) :
    Lockstep (registry.call call).2 := by
  rcases registry.call_cases call with ⟨_, _, found⟩ | ⟨room, added⟩ | ⟨_, refused⟩
  · rw [found]
    exact lockstep
  · rw [added]
    exact lockstep.extend room call.name
  · rw [refused]
    exact lockstep

theorem find?_eq_some_iff (lockstep : Lockstep registry) {name : String} {atom : Nat} :
    registry.find? name = some atom ↔
      registry.name? atom = some name ∧
        ∀ other, registry.name? other = some name → other ≤ atom := by
  rw [lockstep.find?_eq]
  exact AtomTable.find?_eq_some_iff

theorem find?_eq_none_iff (lockstep : Lockstep registry) {name : String} :
    registry.find? name = none ↔ ∀ atom, registry.name? atom ≠ some name := by
  rw [lockstep.find?_eq, AtomTable.find?, AtomTable.latestBelow_eq_none_iff]
  exact ⟨fun none_below atom named => none_below atom (AtomTable.name?_lt_count named) named,
    fun none_at atom _ => none_at atom⟩

theorem after (lockstep : Lockstep registry) (calls : List AtomCall) :
    Lockstep (registry.after calls) := by
  induction calls generalizing registry with
  | nil => exact lockstep
  | cons first calls induction => exact induction (lockstep.call first)

end Lockstep

section Calls

variable {registry : AtomRegistry} {call : AtomCall}

/-- A name denotes the atom by which a call with it was answered. -/
theorem find?_call {atom : Nat} (given : (registry.call call).1 = .ok atom) :
    (registry.call call).2.find? call.name = some atom := by
  rcases registry.call_cases call with ⟨_, denoted, found⟩ | ⟨_, added⟩ | ⟨_, refused⟩
  · rw [found] at given ⊢
    exact denoted.trans (congrArg some (Except.ok.inj given))
  · rw [added] at given ⊢
    rw [find?_extend, if_pos rfl]
    exact congrArg some (Except.ok.inj given)
  · rw [refused] at given
    cases given

/-- A call fails only when all atoms are given out, and then changes nothing. -/
theorem call_refused {fault : Fault} (failed : (registry.call call).1 = .error fault) :
    fault = .noAtomLeft ∧ atomLimit ≤ registry.count ∧ (registry.call call).2 = registry := by
  rcases registry.call_cases call with ⟨_, _, found⟩ | ⟨_, added⟩ | ⟨full, refused⟩
  · rw [found] at failed
    cases failed
  · rw [added] at failed
    cases failed
  · rw [refused] at failed ⊢
    exact ⟨(Except.error.inj failed).symm, full, rfl⟩

variable (registry call)

/-- No call renames an atom. -/
theorem below_call : registry.table.Below (registry.call call).2.table := by
  rcases registry.call_cases call with ⟨_, _, found⟩ | ⟨_, added⟩ | ⟨_, refused⟩
  · rw [found]
    exact .refl _
  · rw [added, table_extend, AtomTable.Below, AtomTable.extend, Array.toList_push]
    exact List.prefix_append _ _
  · rw [refused]
    exact .refl _

theorem below_after (calls : List AtomCall) :
    registry.table.Below (registry.after calls).table := by
  induction calls generalizing registry with
  | nil => exact .refl _
  | cons first calls induction => exact (registry.below_call first).trans (induction _)

variable {registry}

/-- Adding a name does what it does to the table of the names. -/
theorem table_add (registry : AtomRegistry) (name : String) :
    (registry.add name).1 = (registry.table.add name).1 ∧
      (registry.add name).2.table = (registry.table.add name).2 := by
  have same_count : registry.table.count = registry.count := rfl
  rcases registry.add_cases name with ⟨room, added⟩ | ⟨full, refused⟩
  · rw [added, AtomTable.add, same_count, if_pos room]
    exact ⟨rfl, rfl⟩
  · rw [refused, AtomTable.add, same_count, if_neg (Nat.not_lt_of_le full)]
    exact ⟨rfl, rfl⟩

/-- A call does what it does to the table of the names. -/
theorem Lockstep.table_call (lockstep : Lockstep registry) :
    (registry.call call).1 = (registry.table.call call).1 ∧
      (registry.call call).2.table = (registry.table.call call).2 := by
  cases call with
  | add name => exact registry.table_add name
  | intern name =>
      have same := lockstep.find?_eq name
      rcases registry.intern_cases name with ⟨atom, denoted, found⟩ | ⟨unused, interned⟩
      · rw [same] at denoted
        rw [AtomRegistry.call, found, AtomTable.call, AtomTable.intern, denoted]
        exact ⟨rfl, rfl⟩
      · rw [same] at unused
        rw [AtomRegistry.call, interned, AtomTable.call, AtomTable.intern, unused]
        exact registry.table_add name

/-- A registry has the names that the table has after the same calls. -/
theorem Lockstep.table_after (lockstep : Lockstep registry) (calls : List AtomCall) :
    (registry.after calls).table = registry.table.after calls := by
  induction calls generalizing registry with
  | nil => rfl
  | cons first calls induction =>
      have rest := induction (lockstep.call first)
      rw [(lockstep.table_call first).2] at rest
      exact rest

end Calls

section Asking

variable {registry : AtomRegistry}

/-- Asking for a name does not give it to a second atom. -/
theorem Lockstep.distinct_intern (lockstep : Lockstep registry)
    (distinct : registry.table.Distinct) (name : String) :
    (registry.intern name).2.table.Distinct := by
  rcases registry.intern_cases name with ⟨_, _, found⟩ | ⟨unused, interned⟩
  · rw [found]
    exact distinct
  · rw [interned]
    rcases registry.add_cases name with ⟨_, added⟩ | ⟨_, refused⟩
    · have absent : name ∉ registry.table.names.toList :=
        AtomTable.find?_eq_none_iff.mp ((lockstep.find?_eq name).symm.trans unused)
      have extended := distinct.including name
      rw [AtomTable.including, if_neg absent] at extended
      rw [added]
      exact extended
    · rw [refused]
      exact distinct

theorem Lockstep.distinct_after (lockstep : Lockstep registry)
    (distinct : registry.table.Distinct) {calls : List AtomCall}
    (asked : ∀ call ∈ calls, ∃ name, call = .intern name) :
    (registry.after calls).table.Distinct := by
  induction calls generalizing registry with
  | nil => exact distinct
  | cons first calls induction =>
      obtain ⟨name, rfl⟩ := asked first List.mem_cons_self
      exact induction (lockstep.call (.intern name)) (lockstep.distinct_intern distinct name)
        fun call member => asked call (List.mem_cons_of_mem _ member)

end Asking

/-- What holds of a registry whichever calls filled it. -/
structure Consistent (registry : AtomRegistry) : Prop where
  /-- The atoms are the numbers below the count, and each has a name. -/
  named : ∀ atom, (∃ name, registry.name? atom = some name) ↔ atom < registry.count
  /-- The literals stored for an atom are those on that very atom. -/
  paired : ∀ atom, registry.poles? atom =
    if atom < registry.count then some (.positive atom, .negative atom) else none
  /-- A name denotes the greatest atom that bears it. -/
  denotes : ∀ name atom, registry.find? name = some atom ↔
    registry.name? atom = some name ∧ ∀ other, registry.name? other = some name → other ≤ atom
  /-- A name denotes nothing if no atom bears it. -/
  denotes_none : ∀ name, registry.find? name = none ↔ ∀ atom, registry.name? atom ≠ some name
  /-- Asking for a name that an atom bears changes nothing, and for another adds an atom. -/
  interned : ∀ name,
    (∃ atom, registry.name? atom = some name) ∧ (registry.intern name).2 = registry ∨
      (∀ atom, registry.name? atom ≠ some name) ∧ registry.intern name = registry.add name
  /-- The name in a call denotes the atom in its answer. -/
  answered : ∀ call atom, (registry.call call).1 = .ok atom →
    (registry.call call).2.find? call.name = some atom
  /-- A call fails only when all atoms are given out, and then changes nothing. -/
  refused : ∀ call fault, (registry.call call).1 = .error fault →
    fault = .noAtomLeft ∧ registry.count = atomLimit ∧ (registry.call call).2 = registry
  /-- A call does what it does to the table of the names. -/
  follows : ∀ call,
    (registry.call call).1 = (registry.table.call call).1 ∧
      (registry.call call).2.table = (registry.table.call call).2

theorem Lockstep.consistent {registry : AtomRegistry} (lockstep : Lockstep registry) :
    Consistent registry where
  named atom := by
    rw [← Option.isSome_iff_exists, name?, isSome_getElem?]
    rfl
  paired := lockstep.poles?_eq
  denotes name atom := lockstep.find?_eq_some_iff
  denotes_none name := lockstep.find?_eq_none_iff
  interned name := by
    rcases registry.intern_cases name with ⟨atom, denoted, found⟩ | ⟨unused, added⟩
    · have named := (lockstep.find?_eq_some_iff.mp denoted).1
      exact .inl ⟨⟨atom, named⟩, congrArg Prod.snd found⟩
    · exact .inr ⟨lockstep.find?_eq_none_iff.mp unused, added⟩
  answered call atom given := find?_call given
  refused call fault failed := by
    obtain ⟨none_left, full, unchanged⟩ := call_refused failed
    exact ⟨none_left, Nat.le_antisymm lockstep.within full, unchanged⟩
  follows call := lockstep.table_call call

/-- Whichever calls fill a registry, its atoms are the numbers below its count, each with the
literals on it and with a name that no later call changes; a name denotes the greatest atom that
bears it; and if names were only asked for, names and atoms determine each other.  The same calls
fill a table with the same names. -/
theorem consistent_after (calls : List AtomCall) :
    Consistent (after {} calls) ∧
      (∀ later atom name, (after {} calls).name? atom = some name →
        (after {} (calls ++ later)).name? atom = some name) ∧
      ((∀ call ∈ calls, ∃ name, call = .intern name) → ∀ name atom,
        (after {} calls).find? name = some atom ↔ (after {} calls).name? atom = some name) ∧
      (after {} calls).table = AtomTable.after {} calls := by
  have lockstep := Lockstep.empty.after calls
  refine ⟨lockstep.consistent, fun later atom name named => ?_, fun asked name atom => ?_,
    Lockstep.empty.table_after calls⟩
  · rw [after_append]
    exact (below_after (after {} calls) later).name? named
  · have distinct : (after {} calls).table.Distinct := Lockstep.empty.distinct_after .nil asked
    rw [lockstep.find?_eq]
    exact distinct.find?_iff

/-- A name given to a second atom denotes that one, and the first atom keeps it. -/
theorem consistent_after_rebinding :
    (after {} [.intern "p", .intern "q", .add "p", .intern "p"]).find? "p" = some 2 ∧
      (after {} [.intern "p", .intern "q", .add "p", .intern "p"]).name? 0 = some "p" ∧
      (after {} [.intern "p", .intern "q", .intern "p"]).find? "p" = some 0 := by
  have rebound := consistent_after [.intern "p", .intern "q", .add "p", .intern "p"]
  have asked := consistent_after [.intern "p", .intern "q", .intern "p"]
  refine ⟨(rebound.1.denotes "p" 2).mpr ⟨by decide, ?_⟩, by decide, ?_⟩
  · intro other named
    have inside := (rebound.1.named other).mp ⟨"p", named⟩
    exact Nat.le_of_lt_succ inside
  · refine (asked.2.2.1 ?_ "p" 0).mpr (by decide)
    simp

end AtomRegistry
end PropSat
