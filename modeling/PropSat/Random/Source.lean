/-!
# Sources of randomness

A source yields numbers below a count and tosses with given odds, from a state that it updates; it
is lawful if the numbers are indeed below the count.  A draw is a computation on that state; it
fails where a number is asked for and there is none to choose from.
-/

namespace PropSat
namespace Random

/-- Size of the words from which a number is drawn. -/
inductive Width where
  | short
  | long
  deriving DecidableEq

/-- Number of words of a width. -/
def Width.words : Width → Nat
  | short => UInt32.size
  | long => UInt64.size

/-- Chances of a toss, as the number of long words, out of 2⁶⁴, on which it succeeds. -/
structure Odds where
  /-- Number of words on which a toss succeeds. -/
  favourable : Nat

/-- One success in two tosses. -/
def Odds.even : Odds := { favourable := UInt64.size / 2 }

/-- One success in five tosses, rounded to a fraction with a binary denominator. -/
def Odds.oneInFive : Odds := { favourable := 3689348814741910528 }

/-- A state from which numbers and tosses can be drawn. -/
class Source (σ : Type) where
  /-- Draw a number below a positive count, from words of a width. -/
  below (width : Width) (count : Nat) : σ → Nat × σ
  /-- Toss with the given odds. -/
  toss (odds : Odds) : σ → Bool × σ

/-- A source whose numbers stay below the counts that are asked for. -/
class LawfulSource (σ : Type) [Source σ] : Prop where
  /-- A number that is drawn is below its count, if anything is. -/
  below_lt (width : Width) {count : Nat} (some_number : 0 < count) (state : σ) :
    (Source.below width count state).1 < count

/-- Consecutive numbers to choose from. -/
structure Span where
  /-- The least number. -/
  least : Nat
  /-- How many there are. -/
  count : Nat
  /-- Size of the words to draw from. -/
  width : Width

namespace Span

/-- Width of the words for a span that is given by its bound: short if the bound is itself one. -/
def widthFor (bound : Nat) : Width := if bound < UInt32.size then .short else .long

/-- Numbers from `least` that are less than a bound. -/
def upTo (least bound : Nat) : Span :=
  { least, count := bound - least, width := widthFor bound }

/-- Numbers from `least` that are at most a bound. -/
def through (least bound : Nat) : Span :=
  { least, count := bound + 1 - least, width := widthFor bound }

end Span

/-- A computation that draws from a source. -/
abbrev Draw (σ α : Type) := StateT σ Option α

namespace Draw

variable {σ α : Type}

/-- Choose a number of a span. -/
def number [Source σ] (span : Span) : Draw σ Nat := fun state =>
  if span.count = 0 then none
  else
    let (offset, state) := Source.below span.width span.count state
    some (span.least + offset, state)

/-- Toss with the given odds. -/
def toss [Source σ] (odds : Odds) : Draw σ Bool := fun state => some (Source.toss odds state)

/-- Draw a number of times. -/
def times (draw : Draw σ α) : Nat → Draw σ (List α)
  | 0 => return []
  | count + 1 => do
      let first ← draw
      let rest ← draw.times count
      return first :: rest

end Draw
end Random
end PropSat
