import ArrayMachine.Value

/-!
# Building values

Scalars, vectors, matrices, strings, intervals, streams, sentinels and literals. `Value.ofBuffer`
checks that a buffer fits the shape it is put under; the other constructors make their shape from
what they are given. A literal whose elements are of one basic kind is stored at once, any other
stays mixed until it is promoted.
-/

namespace ArrayMachine.Value

/-- An array with stored elements. -/
def stored (shape : Shape) (buffer : Buffer) : Value := ⟨.array shape, .elements buffer⟩

/-- An array that stores nothing: a null or identity array of the given shape. -/
def sentinel (shape : Shape) : Value := ⟨.array shape, .bare⟩

def boolean (value : Bool) : Value := stored (Shape.scalar .boolean) (.booleans #[value])

def integer (value : Int32) : Value := stored (Shape.scalar .integer) (.integers #[value])

def real (value : Single) : Value := stored (Shape.scalar .real) (.reals #[value])

def character (value : UInt8) : Value := stored (Shape.scalar .character) (.characters #[value])

def null : Value := sentinel (Shape.scalar .null)

def identity : Value := sentinel (Shape.scalar .identity)

def emptyArray : Value := sentinel Shape.empty

/-- The scalar of an element. -/
def ofElement : Element → Value
  | .boolean value => boolean value
  | .integer value => integer value
  | .real value => real value
  | .character value => character value
  | .null => null
  | .identity => identity

def vector (buffer : Buffer) : Value := stored (Shape.vector buffer.kind buffer.length) buffer

/-- The characters of a text. -/
def string (text : List UInt8) : Value :=
  stored (Shape.string text.length) (.characters text.toArray)

/-- The buffer under a shape of its kind and size, without open extents. -/
def ofBuffer (shape : Shape) (buffer : Buffer) : Result Value :=
  if shape.element ≠ buffer.kind then
    .error (.typeMismatch s!"{buffer.kind} buffer stored under a {shape.element} shape")
  else if shape.hasOpenExtent then
    .error (.invalidSize "concrete arrays need known extents")
  else if shape.size ≠ buffer.length then
    .error (.invalidSize s!"shape holds {shape.size} elements but buffer has {buffer.length}")
  else .ok (stored shape buffer)

def matrix (buffer : Buffer) (rows columns : Nat) : Result Value :=
  ofBuffer (Shape.matrix buffer.kind rows columns) buffer

def ofInterval (interval : Interval) : Value := ⟨.interval .integer, .interval interval⟩

/-- The interval from a head to a tail. -/
def interval (head tail : Int32) : Result Value := ofInterval <$> Interval.ofEnds head tail

/-- The integer vector of an interval's members. -/
def members (interval : Interval) : Value := vector (.integers interval.toList.toArray)

def input : Value := ⟨.input, .bare⟩

def output : Value := ⟨.output, .bare⟩

/-- An array of the view's root's element kind, with the extents that the view selects. -/
def ofView (shape : Shape) (view : View) : Value := ⟨.array shape, .view view⟩

/-! ## Literals -/

/-- The elements under the given extents: stored if they are of one basic kind, else mixed. -/
def ofElements (extents : List Extent) (elements : List Element) : Result Value :=
  match elements with
  | [] => .ok emptyArray
  | first :: rest =>
    if first.kind.isBasic && rest.all (·.kind = first.kind) then do
      return stored (Shape.ofExtents first.kind extents false)
        (← Buffer.ofElements first.kind elements)
    else .ok ⟨.array (Shape.ofExtents .mixed extents false), .mixed elements⟩

/-- A vector literal. Without elements it is the empty array. -/
def literal (elements : List Element) : Result Value := ofElements [some elements.length] elements

/-- The length of the longest row. -/
def columnsOf (rows : List (List Element)) : Nat := (rows.map List.length).foldr max 0

/-- A row filled up with nulls. -/
def padded (columns : Nat) (row : List Element) : List Element :=
  row ++ List.replicate (columns - row.length) .null

/-- The rows of a matrix literal. All its elements are in memory, so a word counts them. -/
structure Rows where
  list : List (List Element)
  countable : list.length * columnsOf list < UInt64.size

/-- A matrix literal, row by row, short rows filled up with nulls. Without elements it is the empty
array. -/
def matrixLiteral (rows : Rows) : Result Value :=
  let columns := columnsOf rows.list
  ofElements [some rows.list.length, some columns] (rows.list.flatMap (padded columns))

end ArrayMachine.Value
