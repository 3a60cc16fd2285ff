import ArrayMachine.Ascii
import ArrayMachine.Decimal
import ArrayMachine.Single.Basic

/-!
# Real literals

The written form of a real: an optional sign, digits with at most one point among or around them,
and optionally an `e` or `E` with a signed or unsigned whole exponent. There is at least one digit
beside the point, and at least one in the exponent if there is an exponent. `RealLiteral.read?`
takes a whole token apart and `RealLiteral.value` rounds the decimal number once.
-/

namespace ArrayMachine

/-- A decimal number in the parts it is written in. -/
structure RealLiteral where
  negative : Bool
  /-- The digits before the point. -/
  whole : List UInt8
  /-- The digits after the point. -/
  fraction : List UInt8
  exponent : Int
deriving DecidableEq

/-- An optional sign and what follows it. -/
def splitSign : List UInt8 → Bool × List UInt8
  | byte :: rest =>
    if byte = Ascii.minus then (true, rest)
    else if byte = Ascii.plus then (false, rest)
    else (false, byte :: rest)
  | [] => (false, [])

namespace RealLiteral

/-- An exponent that takes up all of the text. No text is the exponent zero. -/
def readExponent? : List UInt8 → Option Int
  | [] => some 0
  | mark :: rest =>
    if mark = Ascii.lowerE || mark = Ascii.upperE then
      let (negative, ds) := splitSign rest
      if ds ≠ [] && ds.all Decimal.isDigit then
        some (if negative then -(Decimal.ofDigits ds : Int) else Decimal.ofDigits ds)
      else none
    else none

/-- The digits after a point, if the text starts with one, and what follows. -/
def splitFraction : List UInt8 → List UInt8 × List UInt8
  | byte :: rest => if byte = Ascii.point then rest.span Decimal.isDigit else ([], byte :: rest)
  | [] => ([], [])

/-- The literal that takes up a whole token. -/
def read? (token : List UInt8) : Option RealLiteral :=
  let (negative, unsigned) := splitSign token
  let (whole, rest) := unsigned.span Decimal.isDigit
  let (fraction, rest) := splitFraction rest
  if whole = [] && fraction = [] then none
  else (readExponent? rest).map fun exponent => { negative, whole, fraction, exponent }

/-- The single nearest to the number of some digits times `10 ^ scale`. From `10 ^ 40` on the answer
is infinite, and below `10 ^ -46` it is zero, so such numbers are not written out. -/
def nearest (negative : Bool) (ds : List UInt8) (scale : Int) : Single :=
  let significant := ds.dropWhile (Decimal.digitValue · = 0)
  let places := significant.length + scale
  if significant = [] || places < -46 then Single.zero negative
  else if 40 < places then Single.infinity negative
  else
    let number := Decimal.ofDigits significant
    if 0 ≤ scale then
      Single.ofQuotient negative (number * Decimal.place scale.toNat * Single.quantaPerUnit) 1
    else Single.ofQuotient negative (number * Single.quantaPerUnit) (Decimal.place (-scale).toNat)

/-- The single nearest to the number written. -/
def value (literal : RealLiteral) : Single :=
  nearest literal.negative (literal.whole ++ literal.fraction)
    (literal.exponent - literal.fraction.length)

end RealLiteral

end ArrayMachine
