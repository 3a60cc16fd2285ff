import ArrayMachine.Value.Operand

/-!
# Extents of a value, and reversal

The length of a vector or an interval, the rows and columns of a matrix, as integer scalars, and a
vector with its elements in the opposite order. The empty array has no elements, rows or columns.
-/

namespace ArrayMachine.Value

/-- A number of elements as an integer scalar. -/
def count (n : Nat) : Value := integer (Int32.ofNat n)

def lengthScalar (v : Value) : Result Value := do
  let v ← v.operand "length"
  match v.interval? with
  | some interval => return count interval.length
  | none =>
    let shape ← v.arrayShape
    match shape.rank with
    | .unspecified => return count 0
    | .vector => return count (shape.extent 0)
    | _ => .error (.dimensionMismatch s!"length expects a vector, found {v.type}")

/-- The extent of a matrix along an axis, under the name the caller gives it. -/
def matrixExtent (v : Value) (axis : Nat) (name : String) : Result Value := do
  let v ← v.operand name
  let shape ← v.arrayShape
  match shape.rank with
  | .unspecified => return count 0
  | .matrix => return count (shape.extent axis)
  | _ => .error (.dimensionMismatch s!"{name} expects a matrix, found {v.type}")

def rowsScalar (v : Value) : Result Value := v.matrixExtent 0 "rows"

def columnsScalar (v : Value) : Result Value := v.matrixExtent 1 "columns"

def reverse (v : Value) : Result Value := do
  let v ← v.operand "reverse"
  match v.interval? with
  | some interval => return vector (.integers interval.reversed.toArray)
  | none =>
    let shape ← v.arrayShape
    match shape.rank with
    | .unspecified => return emptyArray
    | .vector =>
      if v.isSentinel then return v
      else ofBuffer shape (← Buffer.ofElements shape.element (← v.elements).reverse)
    | _ => .error (.dimensionMismatch s!"reverse expects a vector, found {v.type}")

end ArrayMachine.Value
