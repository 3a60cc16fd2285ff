import ArrayMachine.Buffer
import ArrayMachine.Interval
import ArrayMachine.ValueType
import ArrayMachine.View

/-!
# Values

A value is a type and a payload. The payload of an array is its stored elements; a literal whose
elements have not met at one kind keeps them as they are; null and identity arrays, the empty array
and the streams store nothing. An array value may also be a view of another one.

This module holds the parts of a value and their readings; values are built in
`ArrayMachine.Value.Build`, and their elements read and written in `ArrayMachine.Value.Elements`.
-/

namespace ArrayMachine

mutual

/-- A value: its type and the payload that goes with it. -/
structure Value where
  type : ValueType
  payload : Payload

/-- What a value holds beside its type. -/
inductive Payload where
  /-- Nothing is stored. -/
  | bare
  | elements (buffer : Buffer)
  /-- The elements of a literal before they meet at one kind. -/
  | mixed (elements : List Element)
  | view (view : View)
  | interval (interval : Interval)
  | tuple (fields : List Value)

end

namespace Value

/-! ## Parts of the type -/

def shape? (v : Value) : Option Shape := v.type.shape?

def kind? (v : Value) : Option Kind := v.shape?.map Shape.element

def rank? (v : Value) : Option Rank := v.shape?.map Shape.rank

/-- A null or identity array, or a view of one. -/
def isSentinel (v : Value) : Bool := (v.kind?.map Kind.isSentinel).getD false

def isEmptyArray (v : Value) : Bool := (v.shape?.map Shape.isEmptyArray).getD false

/-! ## Parts of the payload -/

def view? (v : Value) : Option View :=
  match v.payload with
  | .view view => some view
  | _ => none

def isView (v : Value) : Bool := v.view?.isSome

def mixed? (v : Value) : Option (List Element) :=
  match v.payload with
  | .mixed elements => some elements
  | _ => none

def isMixed (v : Value) : Bool := v.mixed?.isSome

def interval? (v : Value) : Option Interval :=
  match v.payload with
  | .interval interval => some interval
  | _ => none

def buffer? (v : Value) : Option Buffer :=
  match v.payload with
  | .elements buffer => some buffer
  | _ => none

def fields? (v : Value) : Option (List Value) :=
  match v.payload with
  | .tuple fields => some fields
  | _ => none

/-! ## Equality of values -/

mutual

/-- Equality of types and payloads, where reals compare as numbers. -/
def numEq : Value → Value → Bool
  | ⟨s, p⟩, ⟨t, q⟩ => s = t && payloadNumEq p q

def payloadNumEq : Payload → Payload → Bool
  | .bare, .bare => true
  | .elements a, .elements b => a.numEq b
  | .mixed xs, .mixed ys => xs.length = ys.length && (List.zipWith Element.numEq xs ys).all id
  | .view u, .view w => u = w
  | .interval i, .interval j => i = j
  | .tuple vs, .tuple ws => listNumEq vs ws
  | _, _ => false

def listNumEq : List Value → List Value → Bool
  | [], [] => true
  | v :: vs, w :: ws => numEq v w && listNumEq vs ws
  | _, _ => false

end

end Value

end ArrayMachine
