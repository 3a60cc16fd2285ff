import ArrayMachine.Scope
import ArrayMachine.Value.Operand

/-!
# Indexing

A vector is indexed by one list of one-based indices and a matrix by two. Indexing a variable with
stored elements gives a view of it, and indexing a view gives a view of the same root; everything
else is copied. `materialize` copies what a view selects, `elementAt` reads one element through a
view, and `storeElement` writes one.

A vector indexed by itself gives a view whose positions follow the vector: they are read anew at
each use.
-/

namespace ArrayMachine

/-- The base of an indexing, or one of its indices: a variable on the stack, or a value. -/
inductive IndexOperand where
  | anchored (handle : Handle)
  | value (value : Value)

/-- The one-based indices along one axis. A single index removes the axis. -/
inductive IndexList where
  | single (index : Int)
  | many (indices : List Int)
deriving DecidableEq

/-! ## Selectors -/

/-- The root's position at a position of the selector. -/
def Selector.get (s : Selector) (pos : Nat) : Result Nat :=
  match s.get? pos with
  | some position => .ok position
  | none => .error (.outOfRange pos s.length)

namespace IndexList

/-- The zero-based position of a one-based index among `bound` elements. -/
def position (bound : Nat) (index : Int) : Result Nat :=
  if 1 ≤ index ∧ index ≤ bound then .ok (index - 1).toNat
  else .error (.indexOutOfRange index bound)

/-- The positions of the indices among `bound` elements. -/
def select (list : IndexList) (bound : Nat) : Result Selector :=
  match list with
  | single index => .single <$> position bound index
  | many indices => (.many ·.toArray) <$> indices.mapM (position bound)

/-- The positions of the indices among those that a selector has selected. -/
def selectThrough (list : IndexList) (outer : Selector) : Result Selector := do
  match ← list.select outer.length with
  | .single pos => return .single (← outer.get pos)
  | .many positions => return .many (← positions.toList.mapM outer.get).toArray

/-- An element as an index. -/
def ofElement (e : Element) : Result Int :=
  match e.toInteger with
  | .ok index => .ok index.toInt
  | .error _ => .error (.typeMismatch s!"indices must be integers, found {e.kind}")

/-- The indices that a value stands for: an integer scalar, a vector of integers, an interval or the
empty array. -/
def ofValue (v : Value) : Result IndexList := do
  match v.interval? with
  | some interval => return .many (interval.toList.map Int32.toInt)
  | none =>
    let v ← v.promoteMixed
    match v.shape? with
    | none => .error (.typeMismatch s!"{v.type} cannot be used as an index")
    | some shape =>
      match shape.rank with
      | .unspecified => return .many []
      | .scalar => return .single (← ofElement (← v.element 0))
      | .vector => return .many (← (← v.elements).mapM ofElement)
      | .matrix => .error (.dimensionMismatch "a matrix cannot be used as an index")

end IndexList

/-! ## Selections -/

namespace Selection

/-- The shape of what a selection selects of a root with the given shape and length. -/
def shape (selection : Selection) (root : Shape) (rootLength : Nat) : Shape :=
  let text (length : Nat) := Shape.ofExtents root.element [some length] root.isString
  match selection with
  | bySelf => text rootLength
  | vector (.single _) => Shape.scalar root.element
  | vector (.many positions) => text positions.size
  | matrix (.single _) (.single _) => Shape.scalar root.element
  | matrix (.single _) (.many columns) => Shape.vector root.element columns.size
  | matrix (.many rows) (.single _) => Shape.vector root.element rows.size
  | matrix (.many rows) (.many columns) =>
    Shape.matrix root.element rows.size columns.size

/-- The root's flat position that a position of the selection stands for. -/
def flatPosition (selection : Selection) (root : Value) (pos : Nat) : Result Nat :=
  match selection with
  | bySelf => do
    let length ← root.length
    match ← root.element pos with
    | .integer index => IndexList.position length index.toInt
    | other => .error (.typeMismatch s!"self-indexed view over {other.kind} elements")
  | vector positions => positions.get pos
  | matrix rows columns =>
    if columns.length = 0 then .error (.outOfRange pos 0)
    else do
      let rootColumns := (root.shape?.map (·.extent 1)).getD 0
      let row ← rows.get (pos / columns.length)
      let column ← columns.get (pos % columns.length)
      return rowMajor rootColumns row column

/-- The selection that index lists make of an array that is not a view. -/
def ofIndices (root : Value) (lists : List IndexList) : Result Selection :=
  match root.shape? with
  | none => .error (.typeMismatch s!"{root.type} cannot be indexed")
  | some shape =>
    match shape.rank, lists with
    | .vector, [index] => do return vector (← index.select (shape.extent 0))
    | .matrix, [rows, columns] => do
      return matrix (← rows.select (shape.extent 0)) (← columns.select (shape.extent 1))
    | .scalar, _ => .error (.dimensionMismatch "a scalar cannot be indexed")
    | rank, lists =>
      .error (.dimensionMismatch s!"{rank.name} indexed with {lists.length} indices")

/-- The selection that index lists make of what a selection has selected. -/
def compose (selection : Selection) (root : Value) (lists : List IndexList) : Result Selection :=
  match selection, lists with
  | bySelf, [index] => do
    let positions ← (List.range (← root.length)).mapM (bySelf.flatPosition root)
    return vector (← index.selectThrough (.many positions.toArray))
  | vector (.many positions), [index] => do
    return vector (← index.selectThrough (.many positions))
  | matrix (.single row) (.many columns), [index] => do
    return matrix (.single row) (← index.selectThrough (.many columns))
  | matrix (.many rows) (.single column), [index] => do
    return matrix (← index.selectThrough (.many rows)) (.single column)
  | matrix (.many rows) (.many columns), [i, j] => do
    return matrix (← i.selectThrough (.many rows)) (← j.selectThrough (.many columns))
  | _, lists => .error (.dimensionMismatch s!"view cannot take {lists.length} indices")

/-- A copy of what is selected of a root. -/
def gather (selection : Selection) (root : Value) : Result Value :=
  match root.shape? with
  | none => .error (.internal "gather from a non-array root")
  | some rootShape => do
    let shape := selection.shape rootShape (← root.length)
    let positions := List.range shape.size
    if root.isSentinel then
      let _ ← positions.mapM (selection.flatPosition root)
      return Value.sentinel shape
    else
      let elements ← positions.mapM fun pos => do root.element (← selection.flatPosition root pos)
      Value.ofBuffer shape (← Buffer.ofElements shape.element elements)

end Selection

namespace Scope

/-! ## Reading and writing through views -/

/-- The value itself, or a copy of what it selects if it is a view. -/
def materialize (scope : Scope) (v : Value) : Result Value :=
  match v.view? with
  | some view => do view.selection.gather (← scope.get view.root)
  | none => .ok v

/-- The element at a position of a value or of what a view selects. -/
def elementAt (scope : Scope) (v : Value) (pos : Nat) : Result Element :=
  match v.view? with
  | some view => do
    let length ← v.length
    if length ≤ pos then .error (.outOfRange pos length)
    else
      let root ← scope.get view.root
      root.element (← view.selection.flatPosition root pos)
  | none => v.element pos

/-- The shape of an array. -/
def shapeOfArray (v : Value) : Result Shape :=
  match v.shape? with
  | some shape => .ok shape
  | none => .error (.internal "array value without a shape")

/-- The shape of what a selection selects of a root. -/
def selectedShape (selection : Selection) (root : Value) : Result Shape := do
  return selection.shape (← shapeOfArray root) (← root.length)

/-- The stack with the element that a view selects at a position overwritten. -/
def storeElement (scope : Scope) (view : View) (pos : Nat) (e : Element) : Result Scope := do
  let root ← scope.get view.root
  let shape ← selectedShape view.selection root
  if shape.size ≤ pos then .error (.outOfRange pos shape.size)
  else scope.setElement view.root (← view.selection.flatPosition root pos) e

/-! ## Indexing -/

/-- The value of an operand. -/
def operandValue (scope : Scope) : IndexOperand → Result Value
  | .anchored handle => scope.get handle
  | .value v => .ok v

/-- The view of a root that a selection makes. -/
def viewOf (root : Value) (handle : Handle) (selection : Selection) : Result Value := do
  return Value.ofView (← selectedShape selection root) ⟨handle, selection⟩

/-- A copy of what index lists select of a value that is not on the stack. -/
def copySelected (base : Value) (lists : List IndexList) : Result Value := do
  let base := (← base.promoteMixed).widened
  (← Selection.ofIndices base lists).gather base

/-- A variable that can be indexed by itself: a stored vector of integers. -/
def isIntegerVector (v : Value) : Bool :=
  v.rank? = some .vector && v.buffer?.any (·.kind = .integer)

/-- The handle of a stored integer vector that is indexed by itself. -/
def selfIndexed? (base : IndexOperand) (baseValue : Value) (indices : List IndexOperand) :
    Option Handle :=
  match base, indices with
  | .anchored root, [.anchored other] =>
    if root = other && isIntegerVector baseValue then some root else none
  | _, _ => none

/-- What index lists select of a base that is neither the empty array nor indexed by itself. -/
def indexBy (scope : Scope) (base : IndexOperand) (baseValue : Value) (lists : List IndexList) :
    Result Value :=
  match baseValue.view? with
  | some view => do
    let root ← scope.get view.root
    viewOf root view.root (← view.selection.compose root lists)
  | none =>
    match base, baseValue.payload with
    | .anchored handle, .elements _ => do
      viewOf baseValue handle (← Selection.ofIndices baseValue lists)
    | _, _ => copySelected baseValue lists

/-- The fault of indexing the empty array by anything but no indices. -/
def emptyArrayIndexed : Fault :=
  .dimensionMismatch "an empty array can only be indexed by an empty index"

/-- The base indexed by the indices. -/
def index (scope : Scope) (base : IndexOperand) (indices : List IndexOperand) : Result Value := do
  let baseValue ← scope.operandValue base
  let lists ← indices.mapM fun operand => do
    IndexList.ofValue (← scope.materialize (← scope.operandValue operand))
  if baseValue.isEmptyArray then
    if lists = [.many []] then return Value.emptyArray
    else .error emptyArrayIndexed
  else match selfIndexed? base baseValue indices with
    | some root => do
      let positions := List.range (← baseValue.length)
      let _ ← positions.mapM (Selection.bySelf.flatPosition baseValue)
      viewOf baseValue root .bySelf
    | none => indexBy scope base baseValue lists

end Scope

end ArrayMachine
