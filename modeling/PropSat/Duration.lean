/-!
# Durations

Durations are counted in nanoseconds, so that any run exceeds a limit of zero seconds.
-/

namespace PropSat

/-- A length of time. -/
structure Duration where
  /-- Length in nanoseconds. -/
  nanoseconds : Nat
  deriving DecidableEq

namespace Duration

instance : LE Duration := ⟨fun left right => left.nanoseconds ≤ right.nanoseconds⟩

instance : DecidableLE Duration := fun left right =>
  inferInstanceAs (Decidable (left.nanoseconds ≤ right.nanoseconds))

theorem le_iff {left right : Duration} : left ≤ right ↔ left.nanoseconds ≤ right.nanoseconds :=
  Iff.rfl

/-- Nanoseconds in a second. -/
def perSecond : Nat := 1000000000

/-- A whole number of seconds. -/
def ofSeconds (seconds : Nat) : Duration := { nanoseconds := seconds * perSecond }

/-- Whole seconds of a duration. -/
def seconds (duration : Duration) : Nat := duration.nanoseconds / perSecond

/-- The longest duration: a nanosecond less than 2⁶⁴ seconds. -/
def longest : Duration := { nanoseconds := UInt64.size * perSecond - 1 }

/-- The unit in which a duration is shown, with its length in nanoseconds. -/
def unit (duration : Duration) : Nat × String :=
  if perSecond ≤ duration.nanoseconds then (perSecond, "s")
  else if 1000000 ≤ duration.nanoseconds then (1000000, "ms")
  else if 1000 ≤ duration.nanoseconds then (1000, "µs")
  else (1, "ns")

/-- Quotient to the nearest number, and from the middle to the even one. -/
def roundedQuotient (dividend divisor : Nat) : Nat :=
  let quotient := dividend / divisor
  let remainder := dividend % divisor
  if divisor < 2 * remainder ∨ divisor = 2 * remainder ∧ quotient % 2 = 1 then quotient + 1
  else quotient

/-- Written form in the largest unit that fits, with two places. -/
def text (duration : Duration) : String :=
  let (length, name) := duration.unit
  let hundredths := roundedQuotient (duration.nanoseconds * 100) length
  toString (hundredths / 100) ++ "." ++ toString (hundredths / 10 % 10) ++
    toString (hundredths % 10) ++ name

end Duration

end PropSat
