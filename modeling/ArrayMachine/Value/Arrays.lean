import ArrayMachine.Buffer.Arithmetic
import ArrayMachine.Value.Operand

/-!
# Operators on arrays

Two arrays under a binary operator first become alike: a null or identity array takes the kind of
the other, both are promoted to their common kind, and a scalar is copied to every position of the
other's shape. Then the operator is applied to the elements at the same position. Equality compares
whole arrays, word by word; concatenation and the dot product have rules of their own.
-/

namespace ArrayMachine.Value

/-! ## Making operands alike -/

/-- Both operands with stored elements, a null or identity one taking the kind of the other. -/
def withoutSentinels (a b : Value) : Result (Value × Value) :=
  match a.isSentinel, b.isSentinel with
  | true, true =>
    .error (.invalidOperandKind "null and identity operands need a typed partner")
  | true, false => do return (← a.fillSentinel (← b.basicKind), b)
  | false, true => do return (a, ← b.fillSentinel (← a.basicKind))
  | false, false => .ok (a, b)

/-- The array with its elements promoted. -/
def promoteArray (v : Value) (kind : Kind) : Result Value := do
  let shape ← v.arrayShape
  if shape.element = kind then .ok v
  else ofBuffer (shape.withElement kind) (← (← v.storedBuffer).promote kind)

/-- The kind at which the elements of two arrays meet under an operator. -/
def meetingKind (op : BinaryOp) (a b : Kind) : Result Kind :=
  match a.common? b with
  | some kind => .ok kind
  | none => .error (.typeMismatch s!"`{op.symbol}` between {a} and {b}")

/-- The scalar at every position of the shape. -/
def broadcast (v : Value) (shape : Shape) : Result Value := do
  let e ← v.element 0
  ofBuffer (shape.withElement e.kind) (← Buffer.filled e.kind shape.size e)

/-- Two arrays with the same extents, a scalar being copied as often as the other needs. -/
def aligned (op : BinaryOp) (a b : Value) : Result (Value × Value) := do
  let s ← a.arrayShape
  let t ← b.arrayShape
  match s.rank, t.rank with
  | .scalar, .scalar => .ok (a, b)
  | .scalar, _ => return (← a.broadcast t, b)
  | _, .scalar => return (a, ← b.broadcast s)
  | _, _ =>
    if s.extents = t.extents then .ok (a, b)
    else .error (.dimensionMismatch s!"`{op.symbol}` between {a.type} and {b.type}")

/-! ## Concatenation -/

def matricesDoNotConcat : Fault := .dimensionMismatch "matrices cannot be concatenated"

/-- The empty array before or behind a vector changes nothing, and makes a vector of a scalar. -/
def concatEmpty (other : Value) : Result Value := do
  let shape ← other.arrayShape
  match shape.rank with
  | .unspecified => .ok emptyArray
  | .scalar => ofBuffer (Shape.vector shape.element 1) (← other.storedBuffer)
  | .vector => .ok other
  | .matrix => .error matricesDoNotConcat

/-- The elements of the one and then of the other. At least one operand is a vector; the answer is a
string if one of them is. -/
def concat (a b : Value) : Result Value := do
  let s ← a.arrayShape
  let t ← b.arrayShape
  if s.rank = .matrix ∨ t.rank = .matrix then .error matricesDoNotConcat
  else if s.rank = .scalar ∧ t.rank = .scalar then
    .error (.dimensionMismatch "concatenation needs at least one vector operand")
  else
    let joined ← (← a.storedBuffer).concat (← b.storedBuffer)
    let isString := (s.isString || t.isString) && joined.kind = .character
    ofBuffer (Shape.ofExtents joined.kind [some joined.length] isString) joined

/-! ## Products -/

/-- The dot product of two vectors, or the matrix product of two matrices. -/
def product (a b : Value) : Result Value := do
  let s ← a.arrayShape
  let t ← b.arrayShape
  match s.rank, t.rank with
  | .vector, .vector => return ofElement (← (← a.storedBuffer).dot (← b.storedBuffer))
  | .matrix, .matrix =>
    let (n, m, k) := (s.extent 0, s.extent 1, t.extent 1)
    if m ≠ t.extent 0 then
      .error (.dimensionMismatch s!"cannot multiply {n}x{m} by {t.extent 0}x{k}")
    else
      let table ← (← a.storedBuffer).matrixProduct (← b.storedBuffer) n m k
      ofBuffer (Shape.matrix table.kind n k) table
  | _, _ => .error (.dimensionMismatch s!"`**` between {a.type} and {b.type}")

/-! ## The operators -/

/-- An operator on two aligned arrays: one truth for equality, else an element per position. -/
def pointwise (op : BinaryOp) (answer : BinaryOp.ArrayResult) (a b : Value) : Result Value := do
  let (a, b) ← aligned op a b
  let x ← a.storedBuffer
  let y ← b.storedBuffer
  if answer.collapses then
    let same ← x.sameWords y
    return boolean (if op = .equal then same else !same)
  else
    let results ← Buffer.elementwise op x y
    ofBuffer ((← a.arrayShape).withElement answer.kind) results

/-- An operator on two arrays of known kinds. -/
def arraysOfKinds (op : BinaryOp) (a b : Value) : Result Value := do
  let kind ← meetingKind op (← a.basicKind) (← b.basicKind)
  let a ← a.promoteArray kind
  let b ← b.promoteArray kind
  match op.arrayResult? kind with
  | none => .error (.invalidOperandKind s!"operator `{op.symbol}` is not defined for {kind}")
  | some answer =>
    match op with
    | .concat => concat a b
    | .dot => product a b
    | _ => pointwise op answer a b

/-- An operator on two arrays. -/
def arrays (op : BinaryOp) (a b : Value) : Result Value := do
  let _ ← a.arrayShape
  let _ ← b.arrayShape
  let (a, b) ← withoutSentinels a b
  if a.isEmptyArray || b.isEmptyArray then
    if op = .concat then concatEmpty (if a.isEmptyArray then b else a)
    else .error (.invalidOperandKind s!"`{op.symbol}` applied to an empty array")
  else arraysOfKinds op a b

end ArrayMachine.Value
