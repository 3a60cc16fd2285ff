import ArrayMachine.Buffer.Resize
import ArrayMachine.Value.Elements

/-!
# Conversion

A value meets a declared type in one of five modes, and each mode has its rules: whether the type
may still be unknown, whether an open extent may be taken from the value, how far extents may
change, and whether elements are promoted or cast. `Value.convert` builds the value of the target
type, or says why there is none.
-/

namespace ArrayMachine

/-! ## Modes -/

/-- Where a value meets a declared type. -/
inductive Mode where
  | promotion | cast | declaration | assignment | parameter
deriving DecidableEq

/-- What a mode permits. -/
structure Mode.Rules where
  unknownType : Bool
  openExtents : Bool
  resize : ResizeRule
  /-- Elements are cast, not promoted. -/
  casts : Bool

namespace Mode

/-- The name a mode has in the text of a fault. -/
def name : Mode → String
  | promotion => "Promotion"
  | cast => "Cast"
  | declaration => "Declaration"
  | assignment => "Assignment"
  | parameter => "Parameter"

def rules : Mode → Rules
  | promotion =>
    { unknownType := true, openExtents := false, resize := .sameSize, casts := false }
  | cast => { unknownType := false, openExtents := true, resize := .anySize, casts := true }
  | declaration | parameter =>
    { unknownType := true, openExtents := true, resize := .notLarger, casts := false }
  | assignment =>
    { unknownType := false, openExtents := false, resize := .sameSize, casts := false }

/-- A mode takes elements of the source kind to the target kind. -/
def converts (mode : Mode) (source target : Kind) : Bool :=
  if mode.rules.casts then source.castsTo target else source.promotesTo target

/-- The elements of a buffer at another kind. -/
def convertBuffer (mode : Mode) (buffer : Buffer) (kind : Kind) : Result Buffer :=
  if mode.rules.casts then buffer.cast kind else buffer.promote kind

end Mode

namespace Value

/-- The fault of a conversion that a mode does not permit. -/
def notAllowed (target : ValueType) (v : Value) (mode : Mode) : Fault :=
  .typeMismatch s!"{mode.name} of {v.type} into {target} is not allowed"

/-- The fault of an open extent where extents must be known. -/
def openExtent : Fault := .invalidSize "the declared size must be known in this context"

/-! ## Into an array type -/

/-- A target without dimensions changes the element kind only. -/
def convertKind (target : Shape) (v : Value) (mode : Mode) : Result Value :=
  match v.shape? with
  | none => .error (.internal "retag of a non-array value")
  | some source =>
    if source.isEmptyArray then .ok v
    else do
      let v ← if v.isSentinel then v.fillSentinel target.element else .ok v
      match v.buffer? with
      | none => .error (.internal "array value without storage")
      | some buffer =>
        ofBuffer (source.withElement target.element) (← mode.convertBuffer buffer target.element)

/-- An extent that the empty array can take on. -/
def extentForEmpty (mode : Mode) : Extent → Result Extent
  | none => if mode.rules.openExtents then .ok (some 0) else .error openExtent
  | some size =>
    if 0 < size ∧ mode.rules.resize = .sameSize then
      .error (.dimensionMismatch s!"the empty array cannot fill {size} elements")
    else .ok (some size)

/-- The zeros that the empty array becomes. -/
def convertEmpty (target : Shape) (mode : Mode) : Result Value :=
  if target.rank = .scalar then
    .error (.typeMismatch "the empty array cannot become a scalar")
  else do
    let extents ← target.extents.mapM (extentForEmpty mode)
    let resolved := Shape.ofExtents target.element extents target.isString
    ofBuffer resolved (← Buffer.zeros target.element resolved.size)

/-- The scalar at every position of the target. -/
def convertScalar (target : Shape) (buffer : Buffer) : Result Value :=
  if target.hasOpenExtent then
    .error (.invalidSize "a scalar cannot size an array of unknown extent")
  else do
    ofBuffer target (← Buffer.filled target.element target.size (← buffer.get 0))

/-- The target's extents, the open ones taken from the source. -/
def resolveExtents (target source : Shape) (mode : Mode) : Result (List Extent) :=
  target.extents.zipIdx.mapM fun
    | (some size, _) => .ok (some size)
    | (none, axis) =>
      if mode.rules.openExtents then .ok (some (source.extent axis)) else .error openExtent

/-- A vector or matrix with the target's extents, its elements at their places. -/
def convertExtents (target source : Shape) (v : Value) (buffer : Buffer) (mode : Mode) :
    Result Value := do
  let extents ← resolveExtents target source mode
  let resolved := Shape.ofExtents target.element extents target.isString
  if source.resizeNeeded resolved ≤ mode.rules.resize then
    let resized ←
      if source.rank = .vector then buffer.resizeVector (resolved.extent 0)
      else
        buffer.resizeMatrix (source.extent 0) (source.extent 1) (resolved.extent 0)
          (resolved.extent 1)
    ofBuffer resolved resized
  else .error (.dimensionMismatch
    s!"{v.type} does not fit {ValueType.array resolved} under {mode.name}")

/-- An array with stored elements. -/
def convertStored (target : Shape) (v : Value) (mode : Mode) : Result Value :=
  match v.shape?, v.buffer? with
  | some source, some buffer => do
    let buffer ← mode.convertBuffer buffer target.element
    match source.rank, target.rank with
    | .scalar, .scalar => ofBuffer (Shape.scalar target.element) buffer
    | .scalar, _ => convertScalar target buffer
    | .vector, .vector | .matrix, .matrix => convertExtents target source v buffer mode
    | _, _ => .error (notAllowed (.array target) v mode)
  | _, _ => .error (notAllowed (.array target) v mode)

/-- An array of any sort. -/
def convertArray (target : Shape) (v : Value) (mode : Mode) : Result Value :=
  match v.shape? with
  | none => .error (notAllowed (.array target) v mode)
  | some source =>
    if target.isEmptyArray then convertKind target v mode
    else if source.isEmptyArray then convertEmpty target mode
    else if v.isSentinel then
      if mode.rules.casts then .error (notAllowed (.array target) v mode)
      else do convertStored target (← v.fillSentinel target.element) mode
    else convertStored target v mode

/-- A value into an array type. An interval enters vectors of numbers as the vector of its members,
and under a cast vectors of every kind. -/
def convertToArray (target : Shape) (v : Value) (mode : Mode) : Result Value :=
  if !target.element.isBasic then .error (notAllowed (.array target) v mode)
  else match v.interval? with
    | some interval =>
      if target.rank = .vector && (mode.rules.casts || target.element.isNumeric) then
        convertArray target (members interval) mode
      else .error (notAllowed (.array target) v mode)
    | none => convertArray target v mode

/-! ## Into any type -/

mutual

/-- The value of the target type that a value becomes under a mode. -/
def convert (target : ValueType) (v : Value) (mode : Mode) : Result Value :=
  if v.isView then .error (.internal "views must be resolved before conversion")
  else if v.type.isStream || v.type = .unknown || target.isStream then
    .error (notAllowed target v mode)
  else do
    let v ← v.promoteMixed
    match target with
    | .unknown => if mode.rules.unknownType then return v else .error (notAllowed .unknown v mode)
    | .tuple types =>
      match v.fields? with
      | none => .error (notAllowed (.tuple types) v mode)
      | some fields =>
        if fields.length ≠ types.length then
          .error (.typeMismatch
            s!"tuple of arity {fields.length} cannot become arity {types.length}")
        else
          let converted ← convertFields types fields mode
          return ⟨.tuple (converted.map fun (name, field) => (name, field.type)),
            .tuple (converted.map Prod.snd)⟩
    | .interval kind =>
      if v.interval?.isSome && (kind = .integer || mode.rules.unknownType) then return v
      else .error (notAllowed (.interval kind) v mode)
    | .array shape => convertToArray shape v mode
    | .input | .output => .error (notAllowed target v mode)

/-- Every field into the type at its position, under that type's name. -/
def convertFields : List (Option String × ValueType) → List Value → Mode →
    Result (List (Option String × Value))
  | (name, type) :: types, v :: vs, mode => do
    let field ← convert type v mode
    return (name, field) :: (← convertFields types vs mode)
  | _, _, _ => .ok []

end

end Value

end ArrayMachine
