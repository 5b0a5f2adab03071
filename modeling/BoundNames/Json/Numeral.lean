import BoundNames.Json.Basic

/-!
# The value of a numeral

A numeral is read in one pass. Its digits form a significand for as long as that stays below
`2 ^ 64`; digits of the whole part that no longer fit count as powers of ten, and digits of the
fraction from the first that does not fit are left out. A numeral with neither fraction nor exponent
whose digits all fit is an integer if 64 bits can hold it with its sign. Every other numeral is the
significand, rounded to binary64, multiplied or divided by a power of ten, rounded again.
-/

set_option autoImplicit false
set_option relaxedAutoImplicit false

namespace BoundNames.Json

/-- A numeral as it is written, digit by digit. The exponent has a flag for its minus sign. -/
structure Numeral where
  negative : Bool
  whole : List Nat
  fraction : Option (List Nat)
  exponent : Option (Bool × List Nat)

namespace Numeral

/-- Appends digits to a significand as long as it stays below `2 ^ 64`, and leaves the rest. -/
def extend : Nat → List Nat → Nat × List Nat
  | n, [] => (n, [])
  | n, d :: ds => if n * 10 + d < UInt64.size then extend (n * 10 + d) ds else (n, d :: ds)

/-- The number that a list of decimal digits stands for. -/
def ofDigits (ds : List Nat) : Nat :=
  ds.foldl (fun n d ↦ n * 10 + d) 0

/-- The greatest power of ten of binary64, by its exponent. -/
def greatestPower : Nat := 308

/-- The binary64 value nearest to `10 ^ k`. -/
def power (k : Nat) : Float :=
  Float.ofScientific 1 false k

/-- The value `x` times `10 ^ k`, one rounding for each factor, or nothing if it is too great. -/
def scale? (x : Float) (k : Int) : Option Float :=
  if k.natAbs ≤ greatestPower then
    if 0 ≤ k then
      let y := x * power k.natAbs
      if y.isInf then none else some y
    else some (x / power k.natAbs)
  else if x == 0 then some x
  else if 0 ≤ k then none
  else scale? (x / power greatestPower) (k + greatestPower)
termination_by k.natAbs
decreasing_by simp only [greatestPower] at *; omega

/-- Puts the sign before a value. -/
def signed (n : Numeral) (x : Float) : Number :=
  .float (if n.negative then -x else x)

/-- The greatest magnitude of a negative integer of 64 bits. -/
def greatestNegative : Nat := 0x8000000000000000

/-- The least number that an exponent cannot have. -/
def exponentLimit : Nat := 0x80000000

/-- An integer keeps its value if 64 bits can hold it; minus zero and what is too small become
binary64 values. -/
def integer (n : Numeral) (significand : Nat) : Number :=
  if n.negative then
    if significand = 0 ∨ greatestNegative < significand then n.signed significand.toUInt64.toFloat
    else .integer (-significand)
  else .integer significand

/-- The value of a numeral, or nothing if it is beyond the range of binary64. An exponent that 31
bits cannot hold gives zero if it is negative or the significand is zero. -/
def value? (n : Numeral) : Option Number :=
  let (head, left) := extend 0 n.whole
  let (significand, skipped) := extend head (n.fraction.getD [])
  let places := (n.fraction.getD []).length - skipped.length
  let shift : Int := left.length - places
  let x := significand.toUInt64.toFloat
  match n.fraction, n.exponent, left with
  | none, none, [] => some (n.integer significand)
  | _, none, _ => (scale? x shift).map n.signed
  | _, some (minus, digits), _ =>
    let e := ofDigits digits
    if e < exponentLimit then (scale? x (if minus then shift - e else shift + e)).map n.signed
    else if significand = 0 ∨ minus then some (n.signed 0)
    else none

end Numeral

end BoundNames.Json
