import ArrayMachine.Single.Arithmetic

/-!
# Powers of singles

`x ^ y` is `2 ^ (y * log₂ x)`, computed in fixed point with 256 binary places and rounded once. The
fixed-point power is first cut to 200 places: its error is far below that, so a power that is
exactly a single, or exactly halfway between two, is met exactly. The cases without a finite
positive base are set apart in front.
-/

namespace ArrayMachine.Single

/-! ## Fixed point -/

namespace Fixed

/-- One, with 256 binary places. -/
def one : Nat := 1 <<< 256

def mul (x y : Nat) : Nat := x * y / one

/-- `count` terms of `power / (2k + 1) + power * square / (2k + 3) + …`. -/
def oddTerms : Nat → (power square k : Nat) → Nat
  | 0, _, _, _ => 0
  | count + 1, power, square, k =>
    power / (2 * k + 1) + oddTerms count (mul power square) square (k + 1)

/-- The natural logarithm of `num / den`, for a quotient in `[1, 2]`: twice the area hyperbolic
tangent of `(num - den) / (num + den)`, which is at most a third, so ninety terms reach below the
last place. -/
def log (num den : Nat) : Nat :=
  let ratio := (num - den) * one / (num + den)
  2 * oddTerms 90 ratio (mul ratio ratio) 0

/-- `count` terms of `term + term * x / (k + 1) + …`. -/
def powerTerms : Nat → (term x k : Nat) → Nat
  | 0, _, _, _ => 0
  | count + 1, term, x, k => term + powerTerms count (mul term x / (k + 1)) x (k + 1)

/-- The exponential of a number in `[0, 1]`, for which seventy terms reach below the last place. -/
def exp (x : Nat) : Nat := powerTerms 70 one x 0

/-- The binary logarithm of `n / 2 ^ 149`, for a positive `n`. -/
def log2 (n : Nat) : Int :=
  let top := Nat.log2 n
  ((top : Int) - 149) * one + (log n (1 <<< top) * one / log 2 1 : Nat)

end Fixed

/-- The magnitude of `x ^ y` for the positive `x` of `quanta` quanta and the `y` of `units`. -/
def powerMagnitude (quanta : Nat) (units : Int) : Nat :=
  let exponent := (Fixed.log2 quanta * units).fdiv quantaPerUnit
  if 200 * (Fixed.one : Int) ≤ exponent then infiniteMagnitude
  else if exponent ≤ -200 * (Fixed.one : Int) then 0
  else
    let whole := exponent.fdiv Fixed.one
    let fraction := (exponent - whole * Fixed.one).toNat
    let mantissa := (Fixed.exp (Fixed.mul fraction (Fixed.log 2 1)) + 1 <<< 55) >>> 56
    roundScaled mantissa (whole - 51)

/-- A finite whole number. -/
def isWhole (x : Single) : Bool := x.isFinite && x.quanta % quantaPerUnit = 0

/-- A finite odd whole number. -/
def isOdd (x : Single) : Bool := x.isWhole && x.quanta / quantaPerUnit % 2 = 1

/-- The power forced by a NaN operand. An odd power of a NaN is always positive. -/
def nanPower? (x y : Single) : Option Single :=
  if x.isNaN && y.isOdd then some (ofMagnitude false x.quiet.magnitude) else nanOf? x y

/-- `x ^ y`. Everything to the power zero is one, and one to every power. A negative base has
powers at whole numbers only, negative at the odd ones. -/
def pow (x y : Single) : Single :=
  if y.isZero || x = one then one
  else (nanPower? x y).getD <|
    let negative := x.negative && y.isOdd
    if y.isInfinite then
      if x.magnitude = one.magnitude then one
      else if decide (x.magnitude < one.magnitude) = y.negative then infinity false
      else zero false
    else if x.isZero || x.isInfinite then
      if x.isZero = y.negative then infinity negative else zero negative
    else if x.negative && !y.isWhole then indefinite
    else ofMagnitude negative (powerMagnitude x.quanta y.units)

end ArrayMachine.Single
