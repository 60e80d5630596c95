/-! # The shortest decimal of a binary fraction

A binary64 number stands for all reals that round to it, an interval around its own value. `shortest` finds
the decimal with the fewest digits in that interval, and of those the nearest to the value. It looks at
decimal grids of one, two, … up to seventeen digits, and on each at the two neighbours of the value. All
comparisons are made on natural numbers, after every quantity has been brought to one unit.
-/
namespace Listfile
set_option autoImplicit false

/-- The number `digits · 10 ^ exponent`. -/
structure Decimal where
  digits : Nat
  exponent : Int
deriving DecidableEq, Repr, Inhabited

namespace Decimal

/-- How many decimal digits a number has; zero has one. -/
def digitCount (n : Nat) : Nat := (Nat.toDigits 10 n).length

/-- A positive finite binary number `mantissa · 2 ^ exponent`. `narrow` says that its lower neighbour is only
half as far away as its upper one. -/
structure BinaryFraction where
  mantissa : Nat
  exponent : Int
  narrow : Bool
deriving DecidableEq, Repr, Inhabited

/-- The weight of the leading bit of a mantissa, `2 ^ 52`, which is not stored. -/
def hiddenBit : Nat := 0x10000000000000

/-- The fields of a positive finite double. -/
def BinaryFraction.ofFloat (x : Float) : BinaryFraction :=
  let bits : Nat := x.toBits.toNat
  let field : Nat := bits / hiddenBit % 0x800
  let fraction : Nat := bits % hiddenBit
  if field = 0 then ⟨fraction, -1074, false⟩
  else ⟨hiddenBit + fraction, (field : Int) - 1075, fraction = 0 ∧ 1 < field⟩

/-- The interval of numbers that round to a binary fraction, and the fraction, as multiples of
`unit / divisor`. The ends belong to it if the mantissa is even, as ties round to even. -/
structure RoundingInterval where
  low : Nat
  value : Nat
  high : Nat
  closed : Bool
  unit : Nat
  divisor : Nat

/-- Quarters of the last mantissa bit measure both ends exactly. -/
def BinaryFraction.interval (x : BinaryFraction) : RoundingInterval where
  low := 4 * x.mantissa - (if x.narrow then 1 else 2)
  value := 4 * x.mantissa
  high := 4 * x.mantissa + 2
  closed := x.mantissa % 2 = 0
  unit := Nat.pow 2 (x.exponent - 2).toNat
  divisor := Nat.pow 2 (2 - x.exponent).toNat

namespace RoundingInterval

/-- The exponent of the first decimal digit of the value. -/
def leading (i : RoundingInterval) : Int :=
  let above := i.value * i.unit
  if i.divisor ≤ above then digitCount (above / i.divisor) - 1
  else -(digitCount ((i.divisor - 1) / above) : Int)

/-- Whether a decimal lies in the interval. -/
def contains (i : RoundingInterval) (d : Decimal) : Bool :=
  let point := d.digits * Nat.pow 10 d.exponent.toNat * i.divisor
  let scale := i.unit * Nat.pow 10 (-d.exponent).toNat
  if i.closed then i.low * scale ≤ point ∧ point ≤ i.high * scale
  else i.low * scale < point ∧ point < i.high * scale

/-- The decimal with the given last place that is in the interval and nearest to the value; between two
that are equally near, the one whose last digit is even. -/
def nearestOn? (i : RoundingInterval) (place : Int) : Option Decimal :=
  let value := i.value * i.unit * Nat.pow 10 (-place).toNat
  let step := i.divisor * Nat.pow 10 place.toNat
  let lower : Decimal := ⟨value / step, place⟩
  let upper : Decimal := ⟨value / step + 1, place⟩
  let twice := 2 * (value % step)
  let preferLower := twice < step ∨ (twice = step ∧ lower.digits % 2 = 0)
  match i.contains lower, i.contains upper with
  | true, true => some (if preferLower then lower else upper)
  | true, false => some lower
  | false, true => some upper
  | false, false => none

end RoundingInterval

/-- The same number without zeros at the end of its digits. -/
def trim (d : Decimal) : Decimal :=
  if h : d.digits ≠ 0 ∧ d.digits % 10 = 0 then trim ⟨d.digits / 10, d.exponent + 1⟩ else d
termination_by d.digits
decreasing_by omega

/-- The decimal with the fewest digits among those that round to a positive binary fraction. -/
def shortest (x : BinaryFraction) : Decimal :=
  let interval := x.interval
  let leading := interval.leading
  let grids := (List.range 17).map fun n : Nat => leading - n
  trim ((grids.findSome? interval.nearestOn?).getD ⟨x.mantissa, 0⟩)

end Decimal

end Listfile
