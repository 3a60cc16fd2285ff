import ArrayMachine.Conversion
import ArrayMachine.Indexing
import ArrayMachine.Input.Reader
import ArrayMachine.Output
import ArrayMachine.Settings
import ArrayMachine.Tuple
import ArrayMachine.Value.Extents
import ArrayMachine.Value.Operators

/-!
# Sessions

A session is what a running program works on: a scope stack, a reader and a sink. Its operators take
views for what they select. An operation that can fail part way gives the session it leaves beside
its answer.

Assigning to a variable that holds a view writes through the view, element by element; assigning to
any other converts the value to the variable's type and replaces it.
-/

namespace ArrayMachine

structure Session where
  scope : Scope
  reader : Reader
  sink : Sink

namespace Session

/-- A session with the given settings, source and sink. -/
def start (settings : Settings) (source : Source) (sink : Sink) : Session where
  scope := Scope.empty settings.stackCapacity
  reader := Reader.ofSource source settings.readBuffer
  sink

/-! ## Scopes -/

def allocate (s : Session) (v : Value) : Handle × Session :=
  let (handle, scope) := s.scope.pushVariable v
  (handle, { s with scope })

def allocateType (s : Session) (type : ValueType) : TypeHandle × Session :=
  let (handle, scope) := s.scope.pushType type
  (handle, { s with scope })

/-- The height to restore when the scope is left. -/
def save (s : Session) : Nat := s.scope.height

def restore (s : Session) (mark : Nat) : Result Session := do
  return { s with scope := (← s.scope.restore mark).2 }

/-! ## Values -/

/-- A copy that is not a view. -/
def copy (s : Session) (v : Value) : Result Value := s.scope.materialize v

def unary (s : Session) (op : UnaryOp) (v : Value) : Result Value := do
  (← s.copy v).unary op

def binary (s : Session) (op : BinaryOp) (a b : Value) : Result Value := do
  let a ← s.copy a
  let b ← s.copy b
  Value.binary op a b

def convert (s : Session) (target : ValueType) (v : Value) (mode : Mode) : Result Value := do
  Value.convert target (← s.copy v) mode

/-- The tuple of copies of the fields. -/
def tuple (s : Session) (fields : List (Option String × Value)) : Result Value := do
  Value.compose (← fields.mapM fun (name, field) => do return (name, ← s.copy field))

def length (s : Session) (v : Value) : Result Value := do (← s.copy v).lengthScalar

def rows (s : Session) (v : Value) : Result Value := do (← s.copy v).rowsScalar

def columns (s : Session) (v : Value) : Result Value := do (← s.copy v).columnsScalar

def reverse (s : Session) (v : Value) : Result Value := do (← s.copy v).reverse

/-! ## Assignment -/

/-- The elements of `v`, or its only one, stored through a view at the positions `pos`, `pos + 1`, …
of which there are `count`. It ends at the first store that fails. -/
def storeAll (scope : Scope) (view : View) (v : Value) (single : Bool) :
    (count pos : Nat) → Result Unit × Scope
  | 0, _ => (.ok (), scope)
  | count + 1, pos =>
    match (do scope.storeElement view pos (← v.element (if single then 0 else pos))) with
    | .ok scope => storeAll scope view v single count (pos + 1)
    | .error fault => (.error fault, scope)

/-- A value without views stored through a view of the given length. -/
def assignThrough (scope : Scope) (view : View) (length : Nat) (v : Value) : Result Unit × Scope :=
  match v.length with
  | .error fault => (.error fault, scope)
  | .ok sourceLength =>
    if sourceLength ≠ 1 ∧ sourceLength ≠ length then
      (.error (.dimensionMismatch
        s!"cannot store {sourceLength} elements into a view of {length}"), scope)
    else storeAll scope view v (sourceLength = 1) length 0

/-- The variable's value replaced by the given one, converted to its type. -/
def assignWhole (scope : Scope) (handle : Handle) (current v : Value) : Result Scope := do
  return (← scope.replace handle (← v.convert current.type .assignment)).2

/-- The stack after a value without views is assigned to a variable. -/
def assignCopy (scope : Scope) (handle : Handle) (v : Value) : Result Unit × Scope :=
  match scope.get handle with
  | .error fault => (.error fault, scope)
  | .ok current =>
    match current.view?, current.length with
    | some view, .ok length => assignThrough scope view length v
    | some _, .error fault => (.error fault, scope)
    | none, _ =>
      match assignWhole scope handle current v with
      | .ok scope => (.ok (), scope)
      | .error fault => (.error fault, scope)

/-- The session after a value is assigned to a variable. -/
def assign (s : Session) (handle : Handle) (v : Value) : Result Unit × Session :=
  match s.copy v with
  | .error fault => (.error fault, s)
  | .ok v =>
    let (answer, scope) := assignCopy s.scope handle v
    (answer, { s with scope })

/-! ## Streams -/

/-- The next scalar of a kind from the reader. -/
def readKind (reader : Reader) : Kind → Result (Value × Reader)
  | .integer => let (n, reader) := reader.readInteger; .ok (Value.integer n, reader)
  | .real => let (x, reader) := reader.readReal; .ok (Value.real x, reader)
  | .boolean => let (b, reader) := reader.readBoolean; .ok (Value.boolean b, reader)
  | .character => let (c, reader) := reader.readCharacter; .ok (Value.character c, reader)
  | kind => .error (.typeMismatch s!"cannot read a {kind} value")

/-- The next scalar of a kind, if the stream is the input stream. -/
def read (s : Session) (stream : Value) (kind : Kind) : Result (Value × Session) :=
  if stream.type = .input then do
    let (v, reader) ← readKind s.reader kind
    return (v, { s with reader })
  else .error (.typeMismatch s!"cannot read from {stream.type}")

/-- How the latest read went, as an integer. -/
def streamState (s : Session) : Value := Value.integer s.reader.state.code

/-- The session after a value is printed to a stream. -/
def print (s : Session) (stream v : Value) : Result Unit × Session :=
  match s.copy v with
  | .error fault => (.error fault, s)
  | .ok v =>
    let (answer, sink) := s.sink.print stream v
    (answer, { s with sink })

end Session

end ArrayMachine
