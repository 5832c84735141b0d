import Interleaving.Word

/-!
# Seeded random numbers

A permuted congruential generator of 128 bits of state, and uniform choice below a bound without
bias. Two generators with the same seeds give the same numbers.
-/

namespace Interleaving

/-- The state of the generator, a number below `2 ^ 128`. -/
structure Random where
  state : Nat
deriving DecidableEq

namespace Random

/-- The multiplier of the congruence. -/
def multiplier : Nat := 0x2360ED051FC65DA44385DF649FCCF645

/-- The increment of the congruence. -/
def increment : Nat := 0x5851F42D4C957F2D14057B7EF767814F

/-- The generator whose state has the two words as its high and its low half. -/
def ofWords (high low : UInt64) : Random := ⟨high.toNat * Word.modulus + low.toNat⟩

/-- The generator of a seed; the low half of the state is the seed with some bits flipped. -/
def ofSeed (seed : UInt64) : Random := ofWords seed (seed ^^^ 0x9e3779b97f4a7c15)

/-- The next random word. -/
def next (r : Random) : UInt64 × Random :=
  let state := (r.state * multiplier + increment) % (Word.modulus * Word.modulus)
  let low : UInt64 := UInt64.ofNat state
  let high : UInt64 := UInt64.ofNat (state / Word.modulus)
  let high := high ^^^ (high >>> 32)
  let high := high * 0xda942042e4dd58b5
  let high := high ^^^ (high >>> 48)
  (high * (low ||| 1), ⟨state⟩)

/-- Draws until the low half of the product of a random word and `n` shows no bias; the high half is
the choice. -/
def belowFrom (n : Nat) : Nat → Random → Nat × Random
  | 0, r => (0, r)
  | fuel + 1, r =>
    let (x, r) := r.next
    let product := x.toNat * n
    if product % Word.modulus < Word.modulus % n then belowFrom n fuel r
    else (product / Word.modulus, r)

/-- A random number below `n`. A power of two takes the low bits of one word; any other bound takes
the high half of a product. Each draw is rejected with probability below one half, and the draws
end after a thousand rejections. -/
def below (r : Random) (n : Nat) : Nat × Random :=
  if n &&& (n - 1) = 0 then
    let (x, r) := r.next
    (x.toNat &&& (n - 1), r)
  else belowFrom n 1000 r

end Random

end Interleaving
