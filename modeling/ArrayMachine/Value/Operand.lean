import ArrayMachine.Value.Elements

/-!
# Operands

What an operator asks of a value before it applies: that it is neither a stream nor a view, that it
is an array, that it stores its elements, or that it is an integer scalar. A mixed literal is
promoted on the way.
-/

namespace ArrayMachine.Value

/-- The value as an operand, where `role` names what it is an operand of. -/
def operand (v : Value) (role : String) : Result Value :=
  if v.isView then .error (.internal s!"views must be resolved before {role}")
  else match v.type with
    | .input | .output | .unknown =>
      .error (.typeMismatch s!"{v.type} cannot be an operand of {role}")
    | _ => v.promoteMixed

/-- The shape of an array. -/
def arrayShape (v : Value) : Result Shape :=
  match v.shape? with
  | some shape => .ok shape
  | none => .error (.typeMismatch s!"expected an array, found {v.type}")

/-- The stored elements of an array. -/
def storedBuffer (v : Value) : Result Buffer :=
  match v.buffer? with
  | some buffer => .ok buffer
  | none => .error (.invalidOperandKind s!"{v.type} has no element storage")

/-- The basic kind of an array that is not empty. -/
def basicKind (v : Value) : Result Kind := do
  let shape ← v.arrayShape
  if shape.isEmptyArray || !shape.element.isBasic then
    .error (.invalidOperandKind s!"{v.type} has no element type to lend")
  else .ok shape.element

/-- The integer of a scalar, null being zero and identity one. -/
def scalarInteger (v : Value) (role : String) : Result Int32 :=
  let invalid : Fault := .typeMismatch s!"{role} must be an integer scalar, found {v.type}"
  if v.rank? ≠ some .scalar then .error invalid
  else do
    match (← v.element 0).toInteger with
    | .ok n => .ok n
    | .error _ => .error invalid

end ArrayMachine.Value
