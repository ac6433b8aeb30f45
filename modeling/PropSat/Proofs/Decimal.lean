import PropSat.Proofs.Names

/-!
# Decimal numbers

A number may be given by its digits, and there may be further zeros in front of them.  The written
form of a number is one such way to give it, and a name that tells the number apart from others.
-/

namespace PropSat

/-- Whether a word gives a number in decimal digits. -/
structure IsDecimal (word : List Char) (number : Nat) : Prop where
  /-- There is some digit. -/
  nonempty : word ≠ []
  /-- There are only digits. -/
  digit : ∀ character ∈ word, character.isDigit = true
  /-- Each digit counts ten times as much as the next. -/
  value : Nat.ofDigitChars 10 word 0 = number

theorem isDecimal_toString (number : Nat) : IsDecimal (toString number).toList number := by
  rw [Nat.toString_eq_repr, Nat.toList_repr]
  exact
    { nonempty := Nat.toDigits_ne_nil
      digit := fun character => Nat.isDigit_of_mem_toDigits (by decide) (by decide)
      value := Nat.ofDigitChars_ten_toDigits }

namespace IsDecimal

variable {word : List Char} {number other : Nat}

theorem number_eq (first : IsDecimal word number) (second : IsDecimal word other) :
    number = other :=
  first.value.symm.trans second.value

/-- A character that is no digit does not occur. -/
theorem notMem (decimal : IsDecimal word number) {character : Char}
    (other : character.isDigit = false) : character ∉ word := by
  intro member
  rw [decimal.digit character member] at other
  cases other

end IsDecimal

theorem toString_inj {first second : Nat} (same : toString first = toString second) :
    first = second :=
  (isDecimal_toString first).number_eq (same ▸ isDecimal_toString second)

/-- A number is written as a name. -/
theorem sourceName_toString (number : Nat) : SourceName (toString number) :=
  ⟨(isDecimal_toString number).nonempty,
    fun character member =>
      Bool.or_eq_true_iff.mpr (.inr ((isDecimal_toString number).digit character member))⟩

end PropSat
