import ArrayMachine.Value.Arrays

/-!
# Operators on values

`Value.unary` and `Value.binary` apply an operator to whole values. Intervals stay intervals under
signs, sums, differences and products with intervals and integer scalars; elsewhere they act as the
vectors of their members. Tuples can only be compared, field by field.
-/

namespace ArrayMachine.Value

/-! ## Unary operators -/

def unary (op : UnaryOp) (v : Value) : Result Value := do
  let v ← v.operand "a unary operator"
  match v.interval? with
  | some interval => return ofInterval (← interval.unary op)
  | none =>
    if v.type.isTuple then .error (.typeMismatch "tuples have no unary operators")
    else
      let shape ← v.arrayShape
      if v.isSentinel || shape.isEmptyArray then
        .error (.invalidOperandKind s!"unary operator {op.name} applied to {v.type}")
      else ofBuffer shape (← (← v.storedBuffer).unary op)

/-! ## Ranges and steps -/

/-- The interval from one integer scalar to another. -/
def range (a b : Value) : Result Value := do
  let head ← a.scalarInteger "range head"
  let tail ← b.scalarInteger "range tail"
  interval head tail

/-- The positions `0, step, 2 * step, …` below `length`. -/
def steppedPositions (length step : Nat) : List Nat :=
  (List.range ((length + step - 1) / step)).map (· * step)

/-- Every `step`-th element of an interval or a vector, the first one first. -/
def stepped (a b : Value) : Result Value := do
  let step ← b.scalarInteger "`by` step"
  match a.interval? with
  | some interval => return vector (.integers (← interval.every step).toArray)
  | none =>
    let shape ← a.arrayShape
    if shape.rank ≠ .vector then
      .error (.typeMismatch s!"`by` applies to intervals and vectors, found {a.type}")
    else if step ≤ 0 then
      .error (.invalidSize s!"`by` step must be positive, found {step}")
    else
      let picked ← (steppedPositions (shape.extent 0) step.toInt.toNat).mapM a.element
      let result := Shape.ofExtents shape.element [some picked.length] shape.isString
      if a.isSentinel then return sentinel result
      else ofBuffer result (← Buffer.ofElements shape.element picked)

/-! ## Intervals -/

/-- An interval, or the one-membered interval of an integer, null or identity scalar. -/
def asInterval? (v : Value) : Result (Option Interval) :=
  match v.interval? with
  | some interval => .ok (some interval)
  | none =>
    let integerLike := v.kind? = some .integer || v.isSentinel
    if v.rank? = some .scalar && integerLike then do
      let k ← v.scalarInteger "interval operand"
      return some (← Interval.ofEnds k k)
    else .ok none

/-- The operators under which two intervals are not widened to vectors. -/
def intervals? (op : BinaryOp) (x y : Interval) : Option (Result Value) :=
  match op with
  | .plus | .minus | .times => some (ofInterval <$> x.arithmetic op y)
  | .equal => some (.ok (boolean (x = y)))
  | .unequal => some (.ok (boolean (x ≠ y)))
  | _ => none

/-- An operator with an interval on at least one side. -/
def withInterval (op : BinaryOp) (a b : Value) : Result Value := do
  let x? ← a.asInterval?
  let y? ← b.asInterval?
  let direct := do intervals? op (← x?) (← y?)
  direct.getD (arrays op a.widened b.widened)

/-! ## Binary operators -/

/-- An operator on two operands that are not tuples. -/
def binaryPlain (op : BinaryOp) (a b : Value) : Result Value :=
  match op with
  | .range => range a b
  | .step => stepped a b
  | _ =>
    if a.interval?.isSome || b.interval?.isSome then withInterval op a b
    else arrays op a b

/-- The truth of a boolean scalar. -/
def truth (v : Value) : Result Bool := do return (← v.scalarElement).boolean?.getD false

mutual

/-- A binary operator on two values. -/
def binary (op : BinaryOp) (a b : Value) : Result Value := do
  let x ← a.operand s!"`{op.symbol}`"
  let y ← b.operand s!"`{op.symbol}`"
  match a, b with
  | ⟨_, .tuple fs⟩, ⟨_, .tuple gs⟩ =>
    if op ≠ .equal ∧ op ≠ .unequal then
      .error (.invalidOperandKind s!"tuples only support == and !=, found `{op.symbol}`")
    else if fs.length ≠ gs.length then
      .error (.typeMismatch s!"tuples of arity {fs.length} and {gs.length} cannot be compared")
    else
      let same ← fieldsEqual fs gs
      return boolean (if op = .equal then same else !same)
  | _, _ =>
    if x.type.isTuple || y.type.isTuple then
      .error (.typeMismatch s!"cannot apply `{op.symbol}` to {x.type} and {y.type}")
    else binaryPlain op x y

/-- All fields of one tuple equal those of another. Every pair is compared, also behind an unequal
one. -/
def fieldsEqual : List Value → List Value → Result Bool
  | v :: vs, w :: ws => do
    let here ← (← binary .equal v w).truth
    let rest ← fieldsEqual vs ws
    return here && rest
  | _, _ => .ok true

end

end ArrayMachine.Value
