import ArrayMachine.Ascii
import ArrayMachine.Decimal
import ArrayMachine.Single.Basic

/-!
# The text of a real

A finite real is written with six significant digits, the exact value rounded to nearest and a tie
to the even digit, zeros at the end of a fraction left out. It is positional where the decimal
exponent is from -4 to 5, and otherwise has one digit before the point and an exponent of at least
two digits.
-/

namespace ArrayMachine.Single

/-- Six significant digits, as a number from `100000` to `999999`, and the exponent of ten of the
first. -/
structure SixDigits where
  digits : Nat
  exponent : Int
deriving DecidableEq

/-- The exponent of ten of a positive number of quanta. One quantum lies between `10 ^ -45` and
`10 ^ -44`, so the digits of the number in units of `10 ^ -45` count it. -/
def decimalExponent (quanta : Nat) : Int :=
  (Decimal.digits (quanta * Decimal.place 45 / quantaPerUnit)).length - 46

/-- The exact value in units of its sixth digit, rounded; a million of them are a hundred thousand
of the next exponent's. -/
def sixDigits (quanta : Nat) : SixDigits :=
  let exponent := decimalExponent quanta
  let rounded :=
    if exponent ≤ 5 then roundDiv (quanta * Decimal.place (5 - exponent).toNat) quantaPerUnit
    else roundDiv quanta (quantaPerUnit * Decimal.place (exponent - 5).toNat)
  if rounded = 1000000 then ⟨100000, exponent + 1⟩ else ⟨rounded, exponent⟩

/-- The digits without the zeros at their end. -/
def trimZeros (ds : List UInt8) : List UInt8 := (ds.reverse.dropWhile (· = Ascii.zero)).reverse

/-- Digits, a point and a fraction; without a fraction there is no point. -/
def withFraction (whole fraction : List UInt8) : List UInt8 :=
  match trimZeros fraction with
  | [] => whole
  | ds => whole ++ Ascii.point :: ds

/-- An exponent with its sign and at least two digits. -/
def exponentText (exponent : Int) : List UInt8 :=
  let ds := Decimal.digits exponent.natAbs
  Ascii.lowerE :: (if exponent < 0 then Ascii.minus else Ascii.plus) ::
    (List.replicate (2 - ds.length) Ascii.zero ++ ds)

/-- The written form of six digits. -/
def SixDigits.text (six : SixDigits) : List UInt8 :=
  let ds := Decimal.digits six.digits
  if 0 ≤ six.exponent ∧ six.exponent < 6 then
    let whole := six.exponent.toNat + 1
    withFraction (ds.take whole) (ds.drop whole)
  else if -4 ≤ six.exponent ∧ six.exponent < 0 then
    withFraction [Ascii.zero] (List.replicate (-six.exponent - 1).toNat Ascii.zero ++ ds)
  else withFraction (ds.take 1) (ds.drop 1) ++ exponentText six.exponent

/-- The text of a number without its sign. -/
def sizeText (x : Single) : List UInt8 :=
  if x.isInfinite then Ascii.bytes ['i', 'n', 'f']
  else if x.isZero then [Ascii.zero]
  else (sixDigits x.quanta).text

/-- The bytes a real prints as. -/
def text (x : Single) : List UInt8 :=
  if x.isNaN then Ascii.bytes ['n', 'a', 'n']
  else if x.negative then Ascii.minus :: x.sizeText
  else x.sizeText

end ArrayMachine.Single
