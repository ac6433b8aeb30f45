import PropSat.Proofs.Formula.Canonical

/-!
# Renaming atoms

The atoms of a formula are listed from left to right, and a formula is renamed by replacing each of
them.  Renaming is injective if no two atoms become one, and the standard renaming numbers the atoms
by their first occurrence.
-/

namespace PropSat

section Lists

variable {α β : Type} [DecidableEq α] [DecidableEq β]

/-- First occurrences are different from each other. -/
theorem nodup_eraseDups (entries : List α) : entries.eraseDups.Nodup := by
  induction length_eq : entries.length using Nat.strongRecOn generalizing entries with
  | ind length induction =>
      cases entries with
      | nil => exact List.nodup_nil
      | cons entry rest =>
          have shorter : (rest.filter fun other => !other == entry).length < length := by
            rw [← length_eq, List.length_cons]
            exact Nat.lt_succ_of_le (List.length_filter_le _ _)
          rw [List.eraseDups_cons, List.nodup_cons]
          exact ⟨by simp [List.mem_eraseDups], induction _ shorter _ rfl⟩

/-- The first occurrences of entries are those of their images, if no two entries have one image. -/
theorem eraseDups_map {image : α → β} {entries : List α}
    (apart : ∀ first ∈ entries, ∀ second ∈ entries, image first = image second → first = second) :
    (entries.map image).eraseDups = entries.eraseDups.map image := by
  induction length_eq : entries.length using Nat.strongRecOn generalizing entries with
  | ind length induction =>
      cases entries with
      | nil => rfl
      | cons entry rest =>
          have same_filter : (rest.map image).filter (fun other => !other == image entry) =
              (rest.filter fun other => !other == entry).map image := by
            rw [List.filter_map]
            congr 1
            apply List.filter_congr
            intro other member
            by_cases same : other = entry
            · simp [same]
            · have images_apart : image other ≠ image entry := fun images =>
                same (apart other (.tail _ member) entry List.mem_cons_self images)
              simp [beq_eq_false_iff_ne.mpr same, beq_eq_false_iff_ne.mpr images_apart]
          have shorter : (rest.filter fun other => !other == entry).length < length := by
            rw [← length_eq, List.length_cons]
            exact Nat.lt_succ_of_le (List.length_filter_le _ _)
          rw [List.map_cons, List.eraseDups_cons, List.eraseDups_cons, List.map_cons, same_filter,
            induction _ shorter _ rfl]
          intro first first_mem second second_mem
          exact apart first (.tail _ (List.mem_filter.mp first_mem).1) second
            (.tail _ (List.mem_filter.mp second_mem).1)

/-- An entry stands where its image does, if no two entries have one image. -/
theorem idxOf_map {image : α → β} {entries : List α} {entry : α}
    (apart : ∀ other ∈ entries, image other = image entry → other = entry) :
    (entries.map image).idxOf (image entry) = entries.idxOf entry := by
  induction entries with
  | nil => rfl
  | cons first rest induction =>
      obtain ⟨first_apart, rest_apart⟩ := List.forall_mem_cons.mp apart
      rw [List.map_cons, List.idxOf_cons, List.idxOf_cons, induction rest_apart]
      by_cases same : first = entry
      · simp [same]
      · have images_apart : image first ≠ image entry := fun images => same (first_apart images)
        simp [beq_eq_false_iff_ne.mpr same, beq_eq_false_iff_ne.mpr images_apart]

end Lists

namespace Formula

/-- Atoms from left to right, with repetitions. -/
def atoms : Formula → List Nat
  | var atom => [atom]
  | neg inner => inner.atoms
  | bin _ left right => left.atoms ++ right.atoms

/-- Replace every atom. -/
def rename (atomOf : Nat → Nat) : Formula → Formula
  | var atom => var (atomOf atom)
  | neg inner => neg (inner.rename atomOf)
  | bin connective left right => bin connective (left.rename atomOf) (right.rename atomOf)

/-- The distinct atoms in the order of their first occurrence. -/
def support (formula : Formula) : List Nat := formula.atoms.eraseDups

/-- The formula with its atoms numbered by first occurrence. -/
def renumbered (formula : Formula) : Formula := formula.rename formula.support.idxOf

theorem within_iff {bound : Nat} {formula : Formula} :
    formula.within bound = true ↔ ∀ atom ∈ formula.atoms, atom < bound := by
  induction formula with
  | var atom => simp [within, atoms]
  | neg inner induction => exact induction
  | bin connective left right left_induction right_induction =>
      simp only [within, atoms, Bool.and_eq_true, left_induction, right_induction,
        List.forall_mem_append]

theorem rename_congr {first second : Nat → Nat} {formula : Formula}
    (agree : ∀ atom ∈ formula.atoms, first atom = second atom) :
    formula.rename first = formula.rename second := by
  induction formula with
  | var atom => exact congrArg var (agree atom List.mem_cons_self)
  | neg inner induction => exact congrArg neg (induction agree)
  | bin connective left right left_induction right_induction =>
      obtain ⟨left_agree, right_agree⟩ := List.forall_mem_append.mp agree
      rw [rename, rename, left_induction left_agree, right_induction right_agree]

theorem rename_eq_self {atomOf : Nat → Nat} {formula : Formula}
    (fixed : ∀ atom ∈ formula.atoms, atomOf atom = atom) : formula.rename atomOf = formula := by
  induction formula with
  | var atom => exact congrArg var (fixed atom List.mem_cons_self)
  | neg inner induction => exact congrArg neg (induction fixed)
  | bin connective left right left_induction right_induction =>
      obtain ⟨left_fixed, right_fixed⟩ := List.forall_mem_append.mp fixed
      rw [rename, left_induction left_fixed, right_induction right_fixed]

/-- Formulas that are renamed alike are the same, if no two of their atoms become one. -/
theorem rename_inj {atomOf : Nat → Nat} {left right : Formula}
    (apart : ∀ first ∈ left.atoms, ∀ second ∈ right.atoms, atomOf first = atomOf second →
      first = second)
    (same : left.rename atomOf = right.rename atomOf) : left = right := by
  induction left generalizing right with
  | var atom =>
      cases right with
      | var other =>
          have atoms_eq := apart atom List.mem_cons_self other List.mem_cons_self
            (var.inj same)
          rw [atoms_eq]
      | neg _ | bin _ _ _ => cases same
  | neg inner induction =>
      cases right with
      | neg other => exact congrArg neg (induction apart (neg.inj same))
      | var _ | bin _ _ _ => cases same
  | bin connective first second first_induction second_induction =>
      cases right with
      | bin symbol third fourth =>
          obtain ⟨rfl, firsts, seconds⟩ := bin.inj same
          have left_apart := fun atom member other occurs =>
            apart atom (List.mem_append_left _ member) other (List.mem_append_left _ occurs)
          have right_apart := fun atom member other occurs =>
            apart atom (List.mem_append_right _ member) other (List.mem_append_right _ occurs)
          rw [first_induction left_apart firsts, second_induction right_apart seconds]
      | var _ | neg _ => cases same

/-- Numbering atoms by the first occurrence of their names is numbering them by their own, if no two
of them bear one name. -/
theorem rename_idxOf_names {nameOf : Nat → String} {formula : Formula}
    (apart : ∀ first ∈ formula.atoms, ∀ second ∈ formula.atoms, nameOf first = nameOf second →
      first = second) :
    (formula.rename fun atom => (formula.atoms.map nameOf).eraseDups.idxOf (nameOf atom)) =
      formula.renumbered := by
  rw [eraseDups_map apart]
  apply rename_congr
  intro atom member
  apply idxOf_map
  intro other other_mem same
  exact apart other (List.mem_eraseDups.mp other_mem) atom member same

/-- A renamed formula is written alike, if the atoms bear the names that they had. -/
theorem canonical_rename {atomOf : Nat → Nat} {nameOf other : Nat → String} {formula : Formula}
    (agree : ∀ atom ∈ formula.atoms, nameOf (atomOf atom) = other atom) :
    (formula.rename atomOf).canonical nameOf = formula.canonical other := by
  induction formula with
  | var atom => exact agree atom List.mem_cons_self
  | neg inner induction => rw [rename, canonical, canonical, induction agree]
  | bin connective left right left_induction right_induction =>
      obtain ⟨left_agree, right_agree⟩ := List.forall_mem_append.mp agree
      rw [rename, canonical, canonical, left_induction left_agree, right_induction right_agree]

theorem eval_rename (atomOf : Nat → Nat) (assignment : Assignment) (formula : Formula) :
    (formula.rename atomOf).eval assignment =
      formula.eval fun atom => assignment (atomOf atom) := by
  induction formula with
  | var atom => rfl
  | neg inner induction => rw [rename, eval, eval, induction]
  | bin connective left right left_induction right_induction =>
      rw [rename, eval, eval, left_induction, right_induction]

theorem eval_congr_of_atoms {left right : Assignment} {formula : Formula}
    (agree : ∀ atom ∈ formula.atoms, left atom = right atom) :
    formula.eval left = formula.eval right := by
  induction formula with
  | var atom => exact agree atom List.mem_cons_self
  | neg inner induction => rw [eval, eval, induction agree]
  | bin connective first second first_induction second_induction =>
      obtain ⟨first_agree, second_agree⟩ := List.forall_mem_append.mp agree
      rw [eval, eval, first_induction first_agree, second_induction second_agree]

end Formula

namespace AtomTable

/-- The place of an entry among others bears the name of the entry, if they are named in turn. -/
theorem nameAt_ofNames_map {α : Type} [DecidableEq α] {nameOf : α → String} {entries : List α}
    {entry : α} (member : entry ∈ entries) :
    (ofNames (entries.map nameOf)).nameAt (entries.idxOf entry) = nameOf entry := by
  have inside : entries.idxOf entry < entries.length := List.idxOf_lt_length_of_mem member
  simp [nameAt, ofNames, inside]

theorem nameAt_ofNames {names : List String} {name : String} (member : name ∈ names) :
    (ofNames names).nameAt (names.idxOf name) = name := by
  have named : (ofNames (names.map id)).nameAt (names.idxOf name) = id name :=
    nameAt_ofNames_map member
  rwa [List.map_id] at named

/-- Whether some atoms of a table bear names of source variables, no two of them the same one. -/
structure PlainOn (table : AtomTable) (atoms : List Nat) : Prop where
  /-- The table has the atoms. -/
  inside : ∀ atom ∈ atoms, atom < table.count
  /-- Their names are those of source variables. -/
  source : ∀ atom ∈ atoms, SourceName (table.nameAt atom)
  /-- No name is borne by two of them. -/
  apart : ∀ first ∈ atoms, ∀ second ∈ atoms, table.nameAt first = table.nameAt second →
    first = second

theorem PlainOn.mono {table : AtomTable} {more fewer : List Nat} (plain : table.PlainOn more)
    (subset : fewer ⊆ more) : table.PlainOn fewer where
  inside atom member := plain.inside atom (subset member)
  source atom member := plain.source atom (subset member)
  apart first first_mem second second_mem :=
    plain.apart first (subset first_mem) second (subset second_mem)

theorem Plain.plainOn {table : AtomTable} (plain : table.Plain) {atoms : List Nat}
    (inside : ∀ atom ∈ atoms, atom < table.count) : table.PlainOn atoms where
  inside := inside
  source atom member := plain.alphanumeric _ (nameAt_mem (inside atom member))
  apart first first_mem second second_mem :=
    plain.nameAt_inj (inside first first_mem) (inside second second_mem)

/-- The names of the atoms of a formula, which are numbered by first occurrence. -/
def restrict (table : AtomTable) (formula : Formula) : AtomTable :=
  .ofNames (formula.support.map table.nameAt)

end AtomTable
end PropSat
