import ArrayMachine.Single.Basic

/-!
# Arithmetic of singles

Sum, difference, product, quotient and remainder. A NaN operand is answered by itself, made quiet,
the left one first; an operation without an answer gives `Single.indefinite`; infinities count as
limits of numbers, and zeros keep a sign; all else is the exact result rounded once.
-/

namespace ArrayMachine.Single

/-- The other sign. -/
def neg (x : Single) : Single := ⟨x.bits ^^^ 0x80000000⟩

/-- The answer forced by a NaN operand. -/
def nanOf? (x y : Single) : Option Single :=
  if x.isNaN then some x.quiet else if y.isNaN then some y.quiet else none

/-- The sum of numbers. Opposite infinities have none; a sum of zero is negative only where both
numbers are. -/
def addNumbers (x y : Single) : Single :=
  if x.isInfinite then
    if y.isInfinite && x.negative != y.negative then indefinite else x
  else if y.isInfinite then y
  else
    let base := min x.scale y.scale
    let sum := x.unitsAbove base + y.unitsAbove base
    if sum = 0 then zero (x.negative && y.negative) else ofScaled (sum < 0) sum.natAbs base

def add (x y : Single) : Single := (nanOf? x y).getD (addNumbers x y)

def sub (x y : Single) : Single := (nanOf? x y).getD (addNumbers x y.neg)

/-- The product. Zero times infinity has none. -/
def mul (x y : Single) : Single :=
  (nanOf? x y).getD <|
    let negative := x.negative != y.negative
    if x.isInfinite || y.isInfinite then
      if x.isZero || y.isZero then indefinite else infinity negative
    else ofScaled negative (x.significand * y.significand) (x.scale + y.scale - 149)

/-- The quotient. Zero by zero and infinity by infinity have none. -/
def div (x y : Single) : Single :=
  (nanOf? x y).getD <|
    let negative := x.negative != y.negative
    if x.isInfinite then if y.isInfinite then indefinite else infinity negative
    else if y.isInfinite then zero negative
    else if y.isZero then if x.isZero then indefinite else infinity negative
    else ofQuotient negative (x.quanta * quantaPerUnit) y.quanta

/-- What is left of `x` after taking away `y` a whole number of times, with the sign of `x`. It is
always exact. -/
def rem (x y : Single) : Single :=
  (nanOf? x y).getD <|
    if x.isInfinite || y.isZero then indefinite
    else if y.isInfinite then x
    else ofScaled x.negative (x.quanta % y.quanta) 0

instance : Neg Single := ⟨neg⟩
instance : Add Single := ⟨add⟩
instance : Sub Single := ⟨sub⟩
instance : Mul Single := ⟨mul⟩
instance : Div Single := ⟨div⟩
instance : Mod Single := ⟨rem⟩

end ArrayMachine.Single
