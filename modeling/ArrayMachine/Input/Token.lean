import ArrayMachine.Single.Literal

/-!
# Tokens

The written forms of the scalars that can be read from a stream. A token is read as a whole or not
at all: an integer is an optional sign and digits, in the 32-bit range, a boolean is `T` or `F`,
and a real is a `RealLiteral`.
-/

namespace ArrayMachine.Token

/-- An integer, unless it does not fit 32 bits. -/
def integer? (token : List UInt8) : Option Int32 :=
  let (negative, ds) := splitSign token
  if ds ≠ [] && ds.all Decimal.isDigit then
    let n : Int := if negative then -(Decimal.ofDigits ds : Int) else Decimal.ofDigits ds
    if Int32.minValue.toInt ≤ n ∧ n ≤ Int32.maxValue.toInt then some (Int32.ofInt n) else none
  else none

def boolean? (token : List UInt8) : Option Bool :=
  if token = [Ascii.upperT] then some true
  else if token = [Ascii.upperF] then some false
  else none

def real? (token : List UInt8) : Option Single := (RealLiteral.read? token).map RealLiteral.value

end ArrayMachine.Token
