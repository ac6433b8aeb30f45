import PropSat.Random.Source

/-!
# A seeded generator

The generator has four words of state, combined by additions, shifts and rotations.  Its state is
filled from a seed by mixing the seed's successors in steps of a fixed odd number.  Numbers below a
count are the high part of a product, corrected by the carry that one more word would cause; where
the high part is the greatest of them there is no such carry.
-/

namespace PropSat
namespace Random

/-- State of the generator. -/
structure Xoshiro where
  /-- First word. -/
  s0 : UInt64
  /-- Second word. -/
  s1 : UInt64
  /-- Third word. -/
  s2 : UInt64
  /-- Fourth word. -/
  s3 : UInt64
  deriving DecidableEq

namespace Xoshiro

/-- Shift to the left, with the bits that leave coming in on the right. -/
def rotateLeft (word amount : UInt64) : UInt64 := (word <<< amount) ||| (word >>> (64 - amount))

/-- Distance between the words that are mixed to fill a state. -/
def stride : UInt64 := 0x9e3779b97f4a7c15

/-- Spread the bits of a word. -/
def mix (word : UInt64) : UInt64 :=
  let word := (word ^^^ (word >>> 30)) * 0xbf58476d1ce4e5b9
  let word := (word ^^^ (word >>> 27)) * 0x94d049bb133111eb
  word ^^^ (word >>> 31)

/-- State for a seed. -/
def ofSeed (seed : UInt64) : Xoshiro :=
  { s0 := mix (seed + stride)
    s1 := mix (seed + 2 * stride)
    s2 := mix (seed + 3 * stride)
    s3 := mix (seed + 4 * stride) }

/-- The next word. -/
def next (state : Xoshiro) : UInt64 × Xoshiro :=
  let { s0, s1, s2, s3 } := state
  let word := rotateLeft (s0 + s3) 23 + s0
  let t := s1 <<< 17
  let s2 := s2 ^^^ s0
  let s3 := s3 ^^^ s1
  let s1 := s1 ^^^ s2
  let s0 := s0 ^^^ s3
  (word, { s0, s1, s2 := s2 ^^^ t, s3 := rotateLeft s3 45 })

/-- The next word of a width: the high half of a long one, or all of it. -/
def word (width : Width) (state : Xoshiro) : Nat × Xoshiro :=
  let (word, state) := state.next
  match width with
  | .short => ((word >>> 32).toNat, state)
  | .long => (word.toNat, state)

/-- A number below a count. -/
def below (width : Width) (count : Nat) (state : Xoshiro) : Nat × Xoshiro :=
  let (first, state) := state.word width
  let high := first * count / width.words
  let low := first * count % width.words
  if width.words - count < low then
    let (second, state) := state.word width
    let carry := second * count / width.words
    (if width.words ≤ low + carry then high + 1 else high, state)
  else
    (high, state)

/-- Whether a word is among the favourable ones. -/
def toss (odds : Odds) (state : Xoshiro) : Bool × Xoshiro :=
  let (word, state) := state.next
  (word.toNat < odds.favourable, state)

instance : Source Xoshiro where
  below
  toss

theorem word_lt (width : Width) (state : Xoshiro) : (state.word width).1 < width.words := by
  cases width with
  | short =>
      change (state.next.1 >>> 32).toNat < UInt32.size
      have bound := state.next.1.toNat_lt
      rw [UInt64.toNat_shiftRight, Nat.shiftRight_eq_div_pow]
      exact Nat.div_lt_of_lt_mul bound
  | long => exact state.next.1.toNat_lt

section Product

variable {word words count : Nat}

theorem mul_add_le (count : Nat) (word_lt : word < words) : word * count + count ≤ words * count := by
  rw [← Nat.succ_mul]
  exact Nat.mul_le_mul_right count word_lt

theorem high_lt (word_lt : word < words) (some_number : 0 < count) :
    word * count / words < count := by
  have spent := mul_add_le count word_lt
  exact Nat.div_lt_of_lt_mul (by omega)

/-- Where the high part of a product is the greatest number below the count, the low part leaves no
room for a carry. -/
theorem low_le_of_high_eq (word_lt : word < words) (greatest : word * count / words + 1 = count) :
    word * count % words ≤ words - count := by
  have spent := mul_add_le count word_lt
  have parts := Nat.div_add_mod (word * count) words
  have whole : words * (word * count / words) + words = words * count := by
    rw [← Nat.mul_succ, Nat.succ_eq_add_one, greatest]
  omega

end Product

instance : LawfulSource Xoshiro where
  below_lt width count some_number state := by
    have first_lt := state.word_lt width
    have below_count := high_lt first_lt some_number
    change (state.below width count).1 < count
    rw [below]
    simp only
    split
    · rename_i carries
      have not_greatest : (state.word width).1 * count / width.words + 1 ≠ count := fun greatest =>
        absurd carries (Nat.not_lt_of_le (low_le_of_high_eq first_lt greatest))
      simp only
      split <;> omega
    · exact below_count

end Xoshiro
end Random
end PropSat
