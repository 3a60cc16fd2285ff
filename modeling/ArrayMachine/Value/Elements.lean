import ArrayMachine.Value.Build

/-!
# The elements of a value

Arrays and intervals have elements at zero-based positions, a matrix row by row. A null or identity
array has as many nulls or identities as its shape says. Only stored elements can be overwritten.

`Value.promoteMixed` makes the elements of a literal meet at one kind, and `Value.fillSentinel`
turns a null or identity array into stored zeros or ones.
-/

namespace ArrayMachine.Value

/-- The number of elements of an array or an interval. -/
def length (v : Value) : Result Nat :=
  match v.payload, v.type with
  | .interval interval, _ => .ok interval.length
  | _, .array shape => .ok shape.size
  | _, type => .error (.typeMismatch s!"{type.sortName} has no length")

/-- There is no element. -/
def isEmpty (v : Value) : Bool :=
  match v.length with
  | .ok length => length = 0
  | .error _ => true

/-- The element at a position within the value's length. -/
def elementWithin (v : Value) (pos : Nat) : Result Element :=
  match v.payload with
  | .elements buffer => buffer.get pos
  | .mixed elements =>
    match elements[pos]? with
    | some e => .ok e
    | none => .error (.outOfRange pos elements.length)
  | .interval interval => .integer <$> interval.get pos
  | .bare =>
    match v.kind? with
    | some .null => .ok .null
    | some .identity => .ok .identity
    | _ => .error (.internal "element storage missing")
  | .view _ => .error (.internal "view elements must be read through the scope stack")
  | .tuple _ => .error (.typeMismatch "tuples have no elements")

/-- The element at a zero-based position. -/
def element (v : Value) (pos : Nat) : Result Element := do
  let length ← v.length
  if length ≤ pos then .error (.outOfRange pos length) else v.elementWithin pos

/-- All elements, in order. -/
def elements (v : Value) : Result (List Element) := do
  (List.range (← v.length)).mapM v.element

/-- The only element of a scalar. -/
def scalarElement (v : Value) : Result Element :=
  if v.rank? = some .scalar then v.element 0
  else .error (.typeMismatch s!"expected a scalar, found {v.type}")

/-- The array with one stored element overwritten, the new one promoted to the array's kind. -/
def setElement (v : Value) (pos : Nat) (e : Element) : Result Value :=
  match v.payload with
  | .elements buffer => do return { v with payload := .elements (← buffer.set pos e) }
  | _ => .error (.typeMismatch s!"cannot store into {v.type}")

/-! ## Promotion -/

/-- A mixed literal with its elements at their common kind; any other value as it is. -/
def promoteMixed (v : Value) : Result Value :=
  match v.payload, v.shape? with
  | .mixed elements, some shape =>
    match Buffer.commonKind? elements with
    | none => .error (.typeMismatch "literal elements share no common type")
    | some kind =>
      if kind.isSentinel then .ok (sentinel (shape.withElement kind))
      else do return stored (shape.withElement kind) (← Buffer.ofElements kind elements)
  | .mixed _, none => .error (.internal "mixed payload without a shape")
  | _, _ => .ok v

/-- The array of `kind` that a null or identity array stands for. -/
def fillSentinel (v : Value) (kind : Kind) : Result Value :=
  match v.payload, v.shape? with
  | .bare, some shape =>
    let filled (e : Element) : Result Value := do
      let shape := shape.withElement kind
      return stored shape (← Buffer.filled kind shape.size e)
    match shape.element with
    | .null => filled .null
    | .identity => filled .identity
    | other => .error (.internal s!"fill_sentinel on a {other} array")
  | _, _ => .error (.internal "fill_sentinel on a non-sentinel value")

/-- An interval as the vector of its members; any other value as it is. -/
def widened (v : Value) : Value :=
  match v.interval? with
  | some interval => members interval
  | none => v

end ArrayMachine.Value
