import ArrayMachine.Value.Build

/-!
# Tuples

A tuple value holds its fields; its type holds their names and types. Fields are found by position,
or by name through the type. Two tuples of equal arity can exchange their types, and so the names of
their fields, while the fields stay.
-/

namespace ArrayMachine

/-- The names of a tuple type's fields, `none` where a field has none. -/
def ValueType.fieldNames : ValueType → List (Option String)
  | .tuple fields => fields.map Prod.fst
  | _ => []

/-- The number of fields of a tuple type. -/
def ValueType.arity? : ValueType → Option Nat
  | .tuple fields => some fields.length
  | _ => none

namespace Value

/-- A tuple of values that are not views. -/
def compose (fields : List (Option String × Value)) : Result Value :=
  if fields = [] then .error (.invalidSize "tuples have at least one field")
  else if fields.any (·.2.isView) then
    .error (.internal "tuple fields must be resolved before composition")
  else .ok
    ⟨.tuple (fields.map fun (name, field) => (name, field.type)), .tuple (fields.map Prod.snd)⟩

def notATuple : Fault := .typeMismatch "field access on a non-tuple value"

/-- The field at a zero-based position. -/
def field (v : Value) (pos : Nat) : Result Value :=
  match v.fields? with
  | none => .error notATuple
  | some fields =>
    match fields[pos]? with
    | some field => .ok field
    | none => .error (.outOfRange pos fields.length)

/-- The tuple with one field changed by an operation that may fail. The type stays as it is. -/
def modifyField (v : Value) (pos : Nat) (change : Value → Result Value) : Result Value :=
  match v.fields? with
  | none => .error notATuple
  | some fields =>
    match fields[pos]? with
    | some field => do return { v with payload := .tuple (fields.set pos (← change field)) }
    | none => .error (.outOfRange pos fields.length)

/-- The field at the position that a name was resolved to. -/
def fieldResolved (v : Value) (name : String) (pos? : Option Nat) : Result Value :=
  match pos? with
  | some pos => v.field pos
  | none => .error (.typeMismatch s!"tuple has no field named `{name}`")

end Value

end ArrayMachine
