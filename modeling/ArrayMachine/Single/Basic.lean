/-!
# Single-precision reals

A `Single` is a 32-bit word: a sign bit above a magnitude of 8 exponent bits and 23 fraction bits.
Every finite single is a whole number of quanta of `2 ^ -149`, so exact values are integers: a
single is `significand` times `2 ^ scale` quanta, and `units` reads it as a number of quanta.
`roundScaled` and `roundMagnitude` turn an exact product or quotient back into the nearest
magnitude, a tie going to the even one. All arithmetic is built from these, one rounding per
operation.

Comparisons are of numbers (`-0` equals `0`, a NaN equals nothing); equality of `Single` as a type is
equality of the words.
-/

namespace ArrayMachine

/-- A single-precision real, as its word. -/
structure Single where
  bits : UInt32
deriving DecidableEq

namespace Single

/-! ## The parts of a word -/

/-- The weight of the sign bit. -/
def signWeight : Nat := 0x80000000

/-- The weight of the lowest exponent bit. The fraction of a word is below it. -/
def exponentWeight : Nat := 0x800000

/-- The magnitude of the infinities. Larger magnitudes are NaNs. -/
def infiniteMagnitude : Nat := 0x7f800000

/-- The sign bit is set. -/
def negative (x : Single) : Bool := signWeight ≤ x.bits.toNat

/-- The word without its sign bit. Finite magnitudes are ordered as the values they stand for. -/
def magnitude (x : Single) : Nat := x.bits.toNat % signWeight

/-- The single of a sign and a magnitude. -/
def ofMagnitude (negative : Bool) (magnitude : Nat) : Single :=
  ⟨UInt32.ofNat (if negative then magnitude + signWeight else magnitude)⟩

def isNaN (x : Single) : Bool := infiniteMagnitude < x.magnitude

def isInfinite (x : Single) : Bool := x.magnitude = infiniteMagnitude

def isFinite (x : Single) : Bool := x.magnitude < infiniteMagnitude

/-- The two zeros. -/
def isZero (x : Single) : Bool := x.magnitude = 0

def zero (negative : Bool) : Single := ofMagnitude negative 0

def infinity (negative : Bool) : Single := ofMagnitude negative infiniteMagnitude

def one : Single := ⟨0x3f800000⟩

/-- The NaN of an operation that has no answer. -/
def indefinite : Single := ⟨0xffc00000⟩

/-- The NaN an operation answers when an operand is one: the same word, made quiet. -/
def quiet (x : Single) : Single := ⟨x.bits ||| 0x00400000⟩

/-! ## Exact values -/

/-- How many quanta of `2 ^ -149` one is. -/
def quantaPerUnit : Nat := 1 <<< 149

/-- The binary digits of a finite single. Above the lowest exponent the fraction has a one in front
of it. -/
def significand (x : Single) : Nat :=
  let fraction := x.magnitude % exponentWeight
  if x.magnitude < exponentWeight then fraction else fraction + exponentWeight

/-- The number of binary places that the digits stand above the quantum. The two lowest exponents
have the same. -/
def scale (x : Single) : Nat := x.magnitude / exponentWeight - 1

/-- The size of a finite single, in quanta. -/
def quanta (x : Single) : Nat := x.significand <<< x.scale

/-- The value of a finite single in units of `2 ^ base` quanta, where `base` is not above its
scale. -/
def unitsAbove (base : Nat) (x : Single) : Int :=
  let size := x.significand <<< (x.scale - base)
  if x.negative then -(size : Int) else size

/-- The value of a finite single, in quanta. -/
def units (x : Single) : Int := x.unitsAbove 0

/-- The whole number nearest to `num / den`, of two the even one. -/
def roundDiv (num den : Nat) : Nat :=
  let quotient := num / den
  let rest := num % den
  if 2 * rest < den ∨ (2 * rest = den ∧ quotient % 2 = 0) then quotient else quotient + 1

/-- The magnitude nearest to `num / den` quanta. Twenty-four binary digits are kept; a magnitude
is their number plus one exponent weight for every binary place dropped, and one too large is
infinite. -/
def roundMagnitude (num den : Nat) : Nat :=
  let dropped := Nat.log2 (num / den) - 23
  min (dropped * exponentWeight + roundDiv num (den <<< dropped)) infiniteMagnitude

/-- The single nearest to `num / den` quanta, with the given sign. -/
def ofQuotient (negative : Bool) (num den : Nat) : Single :=
  ofMagnitude negative (roundMagnitude num den)

/-- The magnitude nearest to `n * 2 ^ scale` quanta. -/
def roundScaled (n : Nat) (scale : Int) : Nat :=
  if n = 0 then 0
  else
    let dropped := (Nat.log2 n + scale - 23).toNat
    let shift := dropped - scale
    let kept := if shift ≤ 0 then n <<< (-shift).toNat else roundDiv n (1 <<< shift.toNat)
    min (dropped * exponentWeight + kept) infiniteMagnitude

/-- The single nearest to `n * 2 ^ scale` quanta, with the given sign. -/
def ofScaled (negative : Bool) (n : Nat) (scale : Int) : Single :=
  ofMagnitude negative (roundScaled n scale)

/-- The single nearest to an integer. One is `2 ^ 149` quanta. -/
def ofInt (n : Int) : Single := ofScaled (n < 0) n.natAbs 149

/-- The integer part, cut off at the ends of the 32-bit range. A NaN counts as zero. -/
def toInt32 (x : Single) : Int32 :=
  if x.isNaN then 0
  else if x.isInfinite then if x.negative then Int32.minValue else Int32.maxValue
  else
    let whole := x.units.tdiv quantaPerUnit
    Int32.ofInt (max Int32.minValue.toInt (min Int32.maxValue.toInt whole))

/-! ## Order -/

/-- A number ordered as the single is, the two zeros alike. -/
def rank (x : Single) : Int := if x.negative then -(x.magnitude : Int) else x.magnitude

/-- Equality of values: the zeros are equal, a NaN is unequal to everything. -/
def numEq (x y : Single) : Bool := !x.isNaN && !y.isNaN && x.rank = y.rank

def less (x y : Single) : Bool := !x.isNaN && !y.isNaN && x.rank < y.rank

def atMost (x y : Single) : Bool := !x.isNaN && !y.isNaN && x.rank ≤ y.rank

end Single

end ArrayMachine
