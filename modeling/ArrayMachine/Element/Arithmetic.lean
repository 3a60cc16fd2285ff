import ArrayMachine.Element
import ArrayMachine.Operator
import ArrayMachine.Single.Power

/-!
# Operators on elements

`Element.unary` and `Element.binary` apply an operator to single elements. Integers wrap around at
32 bits and divide toward zero; reals follow `Single`. Both operands of a binary operator must have
one kind already.
-/

namespace ArrayMachine

/-! ## Integer powers -/

/-- `base ^ n` with wrapping products, by squaring. -/
def wrappingPower (base : Int32) (n : Nat) : Int32 :=
  if n = 0 then 1
  else
    let rest := wrappingPower (base * base) (n / 2)
    if n % 2 = 1 then base * rest else rest
termination_by n
decreasing_by omega

/-- `base ^ exponent`. A negative power is cut off toward zero, so it is zero except for the bases
one and minus one; zero has none. -/
def integerPower (base exponent : Int32) : Result Int32 :=
  if exponent < 0 then
    if base = 0 then .error (.divisionByZero s!"0 ^ {exponent}")
    else if base = 1 then .ok 1
    else if base = -1 then .ok (if exponent % 2 = 0 then 1 else -1)
    else .ok 0
  else .ok (wrappingPower base exponent.toInt.toNat)

namespace Element

/-! ## Unary operators -/

def unary (op : UnaryOp) (e : Element) : Result Element :=
  match op, e with
  | .not, boolean b => .ok (boolean !b)
  | .plus, integer n => .ok (integer n)
  | .minus, integer n => .ok (integer (-n))
  | .plus, real x => .ok (real x)
  | .minus, real x => .ok (real (-x))
  | _, _ => .error (.invalidOperandKind s!"unary operator {op.name} is not defined for {e.kind}")

/-! ## Binary operators -/

/-- An operator that elements of a kind do not have. -/
def undefinedFor (op : BinaryOp) (kind : Kind) : Fault :=
  .invalidOperandKind s!"operator {op.symbol} is not defined for {kind}"

def binaryBoolean (op : BinaryOp) (x y : Bool) : Result Element :=
  match op with
  | .equal => .ok (boolean (x == y))
  | .unequal => .ok (boolean (x != y))
  | .and => .ok (boolean (x && y))
  | .or => .ok (boolean (x || y))
  | .xor => .ok (boolean (x ^^ y))
  | _ => .error (undefinedFor op .boolean)

def binaryInteger (op : BinaryOp) (x y : Int32) : Result Element :=
  match op with
  | .equal => .ok (boolean (x = y))
  | .unequal => .ok (boolean (x ≠ y))
  | .less => .ok (boolean (x < y))
  | .greater => .ok (boolean (y < x))
  | .atMost => .ok (boolean (x ≤ y))
  | .atLeast => .ok (boolean (y ≤ x))
  | .power => integer <$> integerPower x y
  | .times => .ok (integer (x * y))
  | .divide =>
    if y = 0 then .error (.divisionByZero s!"{x} / 0") else .ok (integer (x / y))
  | .remainder =>
    if y = 0 then .error (.divisionByZero s!"{x} % 0") else .ok (integer (x % y))
  | .plus => .ok (integer (x + y))
  | .minus => .ok (integer (x - y))
  | _ => .error (undefinedFor op .integer)

def binaryReal (op : BinaryOp) (x y : Single) : Result Element :=
  match op with
  | .equal => .ok (boolean (x.numEq y))
  | .unequal => .ok (boolean !(x.numEq y))
  | .less => .ok (boolean (x.less y))
  | .greater => .ok (boolean (y.less x))
  | .atMost => .ok (boolean (x.atMost y))
  | .atLeast => .ok (boolean (y.atMost x))
  | .power => .ok (real (x.pow y))
  | .times => .ok (real (x * y))
  | .divide => .ok (real (x / y))
  | .remainder => .ok (real (x % y))
  | .plus => .ok (real (x + y))
  | .minus => .ok (real (x - y))
  | _ => .error (undefinedFor op .real)

def binary (op : BinaryOp) (a b : Element) : Result Element :=
  match a, b with
  | boolean x, boolean y => binaryBoolean op x y
  | integer x, integer y => binaryInteger op x y
  | real x, real y => binaryReal op x y
  | _, _ =>
    if a.kind = b.kind then .error (undefinedFor op a.kind)
    else .error (.invalidOperandKind
      s!"operands of {op.symbol} must share a kind, found {a.kind} and {b.kind}")

/-! ## The kind of an answer -/

theorem kind_of_binaryBoolean {op : BinaryOp} {x y : Bool} {r : Element}
    (h : binaryBoolean op x y = .ok r) : op.resultKind? .boolean = some r.kind := by
  cases op <;> cases h <;> rfl

theorem kind_of_binaryInteger {op : BinaryOp} {x y : Int32} {r : Element}
    (h : binaryInteger op x y = .ok r) : op.resultKind? .integer = some r.kind := by
  cases op
  case power =>
    obtain ⟨n, -, rfl⟩ := Result.map_eq_ok_iff.1 h
    rfl
  case divide | remainder =>
    simp only [binaryInteger] at h
    split at h
    · cases h
    · cases h
      rfl
  all_goals cases h <;> rfl

theorem kind_of_binaryReal {op : BinaryOp} {x y : Single} {r : Element}
    (h : binaryReal op x y = .ok r) : op.resultKind? .real = some r.kind := by
  cases op <;> cases h <;> rfl

/-- The answer of an operator has the kind that the operator promises. -/
theorem kind_of_binary {op : BinaryOp} {a b r : Element} (h : binary op a b = .ok r) :
    op.resultKind? a.kind = some r.kind := by
  unfold binary at h
  split at h
  · exact kind_of_binaryBoolean h
  · exact kind_of_binaryInteger h
  · exact kind_of_binaryReal h
  · split at h <;> cases h

end Element

end ArrayMachine
