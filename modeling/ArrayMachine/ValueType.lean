import ArrayMachine.Shape

/-!
# Value types

The type of a value: an array of some shape, an interval, a tuple of named or nameless fields, one
of the two streams, or not known yet. `ValueType.text` is the type as a person reads it, and
`ValueType.outline` the longer form that spells out every part of it.
-/

namespace ArrayMachine

inductive IntervalKind where
  | integer
  /-- Declared as an interval of anything. -/
  | unspecified
deriving DecidableEq

inductive ValueType where
  | array (shape : Shape)
  | interval (kind : IntervalKind)
  | tuple (fields : List (Option String × ValueType))
  | input
  | output
  | unknown

namespace ValueType

/-! ## Equality -/

mutual

def decEq : (a b : ValueType) → Decidable (a = b)
  | array s, array t => if h : s = t then .isTrue (by rw [h]) else .isFalse (by simp [h])
  | interval j, interval k => if h : j = k then .isTrue (by rw [h]) else .isFalse (by simp [h])
  | tuple fs, tuple gs =>
    match decEqFields fs gs with
    | .isTrue h => .isTrue (by rw [h])
    | .isFalse h => .isFalse (by simp [h])
  | input, input => .isTrue rfl
  | output, output => .isTrue rfl
  | unknown, unknown => .isTrue rfl
  | array _, interval _ | array _, tuple _ | array _, input | array _, output | array _, unknown
  | interval _, array _ | interval _, tuple _ | interval _, input | interval _, output
  | interval _, unknown
  | tuple _, array _ | tuple _, interval _ | tuple _, input | tuple _, output | tuple _, unknown
  | input, array _ | input, interval _ | input, tuple _ | input, output | input, unknown
  | output, array _ | output, interval _ | output, tuple _ | output, input | output, unknown
  | unknown, array _ | unknown, interval _ | unknown, tuple _ | unknown, input
  | unknown, output => .isFalse (by simp)

def decEqFields : (fs gs : List (Option String × ValueType)) → Decidable (fs = gs)
  | [], [] => .isTrue rfl
  | [], _ :: _ => .isFalse (by simp)
  | _ :: _, [] => .isFalse (by simp)
  | (m, a) :: fs, (n, b) :: gs =>
    if hn : m = n then
      match decEq a b with
      | .isTrue hab =>
        match decEqFields fs gs with
        | .isTrue h => .isTrue (by rw [hn, hab, h])
        | .isFalse h => .isFalse (by simp [h])
      | .isFalse hab => .isFalse (by simp [hab])
    else .isFalse (by simp [hn])

end

instance : DecidableEq ValueType := decEq

/-! ## Parts -/

def shape? : ValueType → Option Shape
  | array shape => some shape
  | _ => none

def isStream : ValueType → Bool
  | input | output => true
  | _ => false

def isTuple : ValueType → Bool
  | tuple _ => true
  | _ => false

/-- The sort of a type, in a word or two. -/
def sortName : ValueType → String
  | array shape =>
    match shape.rank with
    | .scalar => "scalar"
    | .vector => if shape.isString then "string" else "vector"
    | .matrix => "matrix"
    | .unspecified => "empty array"
  | interval _ => "interval"
  | tuple _ => "tuple"
  | input => "std_input"
  | output => "std_output"
  | unknown => "unknown"

/-! ## Text -/

/-- An extent, `*` if it is open. -/
def extentText : Extent → String
  | some size => toString size
  | none => "*"

/-- A shape as its element kind and its extents in brackets; the empty array is `[]`. -/
def shapeText (shape : Shape) : String :=
  if shape.isEmptyArray then "[]"
  else
    let element := if shape.isString then "string" else shape.element.name
    match shape.extents with
    | [] => element
    | extents => s!"{element}[" ++ ", ".intercalate (extents.map extentText) ++ "]"

/-- A field's type, and its name if it has one. -/
def namedText (type : String) : Option String → String
  | some name => s!"{type} {name}"
  | none => type

mutual

def text : ValueType → String
  | array shape => shapeText shape
  | interval .integer => "integer interval"
  | interval .unspecified => "interval"
  | tuple fields => "tuple(" ++ ", ".intercalate (fieldTexts fields) ++ ")"
  | input => "std_input"
  | output => "std_output"
  | unknown => "unknown"

def fieldTexts : List (Option String × ValueType) → List String
  | [] => []
  | (name, type) :: rest => namedText type.text name :: fieldTexts rest

end

instance : ToString ValueType := ⟨text⟩

/-! ## Outline -/

def kindOutline : Kind → String
  | .boolean => "Boolean"
  | .integer => "Integer"
  | .real => "Real"
  | .character => "Character"
  | .null => "Null"
  | .identity => "Identity"
  | .mixed => "Mixed"

def extentOutline : Extent → String
  | some size => s!"Some({size})"
  | none => "None"

def dimsOutline : Dims → String
  | .unspecified => "Unspecified"
  | .fixed extents => "Fixed([" ++ ", ".intercalate (extents.map extentOutline) ++ "])"

def shapeOutline (shape : Shape) : String :=
  "Shape \x7b element: " ++ kindOutline shape.element ++ ", dims: " ++ dimsOutline shape.dims ++
    ", is_string: " ++ toString shape.isString ++ " \x7d"

/-- The outline of a tuple from the outlines of its fields. -/
def tupleOutline : List String → String
  | [] => "tuple"
  | fields => "tuple(" ++ ", ".intercalate fields ++ ")"

mutual

def outline : ValueType → String
  | array shape => "Array(" ++ shapeOutline shape ++ ")"
  | interval .integer => "Interval(Integer)"
  | interval .unspecified => "Interval(Unspecified)"
  | tuple fields => "Tuple(" ++ tupleOutline (fieldOutlines fields) ++ ")"
  | input => "StreamIn"
  | output => "StreamOut"
  | unknown => "Unknown"

def fieldOutlines : List (Option String × ValueType) → List String
  | [] => []
  | (name, type) :: rest => namedText type.outline name :: fieldOutlines rest

end

end ValueType

end ArrayMachine
