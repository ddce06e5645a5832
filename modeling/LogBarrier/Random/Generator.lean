/-!
# Pseudorandom numbers

A generator of pseudorandom numbers with 64 bits of state. Every draw advances the state by a fixed
odd amount and folds the 128-bit product of the state with a scrambled copy of itself.
-/

namespace LogBarrier

/-- A generator of pseudorandom numbers. -/
structure Generator where
  /-- The state. -/
  state : UInt64

namespace Generator

/-- The amount by which a draw advances the state. -/
def increment : UInt64 := 0x2d358dccaa6c78a5

/-- The mask that scrambles the copy of the state. -/
def mask : UInt64 := 0x8bb84b93962eacc9

/-- The two halves of the 128-bit product, combined bit by bit. -/
def foldedProduct (a b : UInt64) : UInt64 :=
  let product := a.toNat * b.toNat
  UInt64.ofNat product ^^^ UInt64.ofNat (product >>> 64)

/-- Draws 64 bits. -/
def nextWord (source : Generator) : UInt64 × Generator :=
  let state := source.state + increment
  (foldedProduct state (state ^^^ mask), ⟨state⟩)

/-- The number in the unit interval with the upper 63 bits of a word behind the binary point. -/
def unitOfWord (word : UInt64) : Float := (word >>> 1).toFloat / 9223372036854775808.0

/-- Draws from the half-open unit interval. A draw that is rounded up to one is repeated, as often
as the limit says. -/
def nextBelow : Nat → Generator → Float × Generator
  | 0, source => (0, source)
  | limit + 1, source =>
    let (word, source) := source.nextWord
    let u := unitOfWord word
    if u < 1 then (u, source) else nextBelow limit source

/-- Draws from the half-open unit interval. Only one word in `2⁵⁴` has to be drawn again. -/
def nextUnit (source : Generator) : Float × Generator := nextBelow 64 source

end Generator

end LogBarrier
