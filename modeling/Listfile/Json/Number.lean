import Listfile.Json.Value
import Listfile.Decimal.Shortest
/-! # The text of a number

An integer is written with all its digits. A double is written as the shortest decimal that reads back,
always with a point or an exponent, so that it is not taken for an integer.
-/
namespace Listfile.Json.Number
set_option autoImplicit false

/-- Decimals are written without an exponent if their leading digit stands for `10 ^ k` with `k` from `-5`
to `15`. -/
def isPositional (leading : Int) : Bool := -5 ≤ leading ∧ leading ≤ 15

def decimalText (d : Decimal) : String :=
  let digits := Nat.toDigits 10 d.digits
  let leading := d.exponent + digits.length - 1
  let zeros (n : Nat) := List.replicate n '0'
  String.ofList <|
    if isPositional leading then
      if 0 ≤ d.exponent then digits ++ zeros d.exponent.toNat ++ ['.', '0']
      else if 0 ≤ leading then digits.take (leading + 1).toNat ++ '.' :: digits.drop (leading + 1).toNat
      else '0' :: '.' :: zeros (-leading - 1).toNat ++ digits
    else
      let fraction := if digits.length = 1 then [] else '.' :: digits.drop 1
      let sign := if leading < 0 then '-' else '+'
      digits.take 1 ++ fraction ++ 'e' :: sign :: Nat.toDigits 10 leading.natAbs

/-- A finite double, whose sign is its highest bit. -/
def doubleText (x : Float) : String :=
  let sign := if x.toBits.toNat < 0x8000000000000000 then "" else "-"
  if x == 0.0 then sign ++ "0.0"
  else sign ++ decimalText (Decimal.shortest (.ofFloat x.abs))

/-- An integer, with a sign only if it is negative. -/
def integerText (value : Int) : String :=
  let digits := Nat.toDigits 10 value.natAbs
  String.ofList (if value < 0 then '-' :: digits else digits)

def text : Number → String
  | integer value => integerText value
  | double value => doubleText value

end Listfile.Json.Number
