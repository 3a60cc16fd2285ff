import ArrayMachine.Fault
import ArrayMachine.Kind

/-!
# Shapes

The element kind and the extents of an array. No extents make a scalar, one a vector, two a matrix;
the empty array has no dimensions at all. An extent may be open (`*`) in a declared type, to be
taken from the value it is given.

Positions and numbers of elements are words of 64 bits. An extent is such a word, but rows times
columns may be more than one holds, and then the number of elements is what is left of the product
(`inWord`). `Shape.Countable` says that nothing is lost.

`ResizeRule` says how far extents may change on the way from one shape to another, and
`Shape.resizeNeeded` is the strictest rule that lets a source into a target.
-/

namespace ArrayMachine

/-! ## Words -/

/-- What a word of 64 bits holds of a number: from `2 ^ 64` on it has come around. -/
def inWord (n : Nat) : Nat := n % UInt64.size

theorem inWord_of_lt {n : Nat} (h : n < UInt64.size) : inWord n = n := Nat.mod_eq_of_lt h

theorem inWord_le (n : Nat) : inWord n ≤ n := Nat.mod_le n _

theorem inWord_lt (n : Nat) : inWord n < UInt64.size := Nat.mod_lt n (by decide)

/-- A row and a column below their bounds have a place below the product of the bounds. -/
theorem place_lt {rows columns row column : Nat} (hrow : row < rows) (hcolumn : column < columns) :
    row * columns + column < rows * columns := by
  calc row * columns + column
      < row * columns + columns := Nat.add_lt_add_left hcolumn _
    _ = (row + 1) * columns := (Nat.succ_mul row columns).symm
    _ ≤ rows * columns := Nat.mul_le_mul_right columns hrow

/-- The place tells the row and the column. -/
theorem div_mod_place {columns column : Nat} (row : Nat) (hcolumn : column < columns) :
    (row * columns + column) / columns = row ∧ (row * columns + column) % columns = column := by
  constructor
  · rw [Nat.mul_comm, Nat.mul_add_div (by omega), Nat.div_eq_of_lt hcolumn, Nat.add_zero]
  · rw [Nat.mul_comm, Nat.mul_add_mod, Nat.mod_eq_of_lt hcolumn]

/-- The flat position, in a matrix of `columns` columns, of a row and a column. -/
def rowMajor (columns row column : Nat) : Nat := inWord (row * columns + column)

/-- A position is exact if the number of elements is. -/
theorem rowMajor_eq {rows columns row column : Nat} (hrow : row < rows) (hcolumn : column < columns)
    (hcount : rows * columns < UInt64.size) :
    rowMajor columns row column = row * columns + column :=
  inWord_of_lt (Nat.lt_trans (place_lt hrow hcolumn) hcount)

/-- An extent, `none` where it is open. -/
abbrev Extent := Option Nat

inductive Dims where
  /-- The dimensions of the empty array. -/
  | unspecified
  | fixed (extents : List Extent)
deriving DecidableEq

inductive Rank where
  | scalar | vector | matrix | unspecified
deriving DecidableEq

/-- The name a rank has in the text of a fault. -/
def Rank.name : Rank → String
  | scalar => "Scalar"
  | vector => "Vector"
  | matrix => "Matrix"
  | unspecified => "Unspecified"

structure Shape where
  element : Kind
  dims : Dims
  /-- Characters written as one text. -/
  isString : Bool
deriving DecidableEq

namespace Shape

/-! ## Building shapes -/

def ofExtents (element : Kind) (extents : List Extent) (isString : Bool) : Shape :=
  ⟨element, .fixed extents, isString⟩

def scalar (element : Kind) : Shape := ofExtents element [] false

def vector (element : Kind) (length : Nat) : Shape := ofExtents element [some length] false

def matrix (element : Kind) (rows columns : Nat) : Shape :=
  ofExtents element [some rows, some columns] false

def string (length : Nat) : Shape := ofExtents .character [some length] true

/-- The shape of the empty array. -/
def empty : Shape := ⟨.mixed, .unspecified, false⟩

/-- An extent as declared: `-1` is the open one. -/
def declaredExtent (size : Int) : Result Extent :=
  if size = -1 then .ok none
  else if size < 0 then .error (.invalidSize s!"negative extent {size}")
  else .ok (some size.toNat)

/-- A declared shape, of at most two dimensions. -/
def declared (element : Kind) (sizes : List Int) (isString : Bool) : Result Shape :=
  if 2 < sizes.length then
    .error (.invalidSize s!"arrays have at most two dimensions, found {sizes.length}")
  else do return ofExtents element (← sizes.mapM declaredExtent) isString

/-- The same extents with elements of another kind. Only characters stay a text. -/
def withElement (shape : Shape) (element : Kind) : Shape :=
  { shape with element, isString := shape.isString && element = .character }

/-! ## Reading shapes -/

def rank (shape : Shape) : Rank :=
  match shape.dims with
  | .unspecified => .unspecified
  | .fixed [] => .scalar
  | .fixed [_] => .vector
  | .fixed _ => .matrix

def extents (shape : Shape) : List Extent :=
  match shape.dims with
  | .unspecified => []
  | .fixed extents => extents

/-- The extent along an axis, zero where it is open or there is none. -/
def extent (shape : Shape) (axis : Nat) : Nat := (shape.extents[axis]?.join).getD 0

def hasOpenExtent (shape : Shape) : Bool := shape.extents.any Option.isNone

def isEmptyArray (shape : Shape) : Bool := shape.rank = .unspecified

/-- The number of elements. -/
def size (shape : Shape) : Nat :=
  match shape.rank with
  | .unspecified => 0
  | .scalar => 1
  | .vector => shape.extent 0
  | .matrix => inWord (shape.extent 0 * shape.extent 1)

/-- A word holds the product of rows and columns. -/
def Countable (shape : Shape) : Prop := shape.extent 0 * shape.extent 1 < UInt64.size

instance (shape : Shape) : Decidable shape.Countable :=
  inferInstanceAs (Decidable (_ < UInt64.size))

end Shape

/-! ## Resizing -/

/-- How far extents may change, from strictest to loosest. -/
inductive ResizeRule where
  | sameSize
  /-- No extent may shrink. -/
  | notLarger
  | anySize
deriving DecidableEq

namespace ResizeRule

def strictness : ResizeRule → Nat
  | sameSize => 0
  | notLarger => 1
  | anySize => 2

/-- Everything that `a` permits, `b` permits. -/
instance : LE ResizeRule := ⟨fun a b => a.strictness ≤ b.strictness⟩

instance : DecidableLE ResizeRule := fun a b =>
  inferInstanceAs (Decidable (a.strictness ≤ b.strictness))

/-- The looser of two rules. -/
instance : Max ResizeRule := ⟨fun a b => if a ≤ b then b else a⟩

/-- The rule one axis needs. -/
def forAxis (source target : Nat) : ResizeRule :=
  if source = target then sameSize else if source < target then notLarger else anySize

end ResizeRule

/-- The strictest rule under which a source of one shape fits a target of another: the loosest that
one of their common axes needs. -/
def Shape.resizeNeeded (source target : Shape) : ResizeRule :=
  let sizes (shape : Shape) := shape.extents.map (·.getD 0)
  (List.zipWith ResizeRule.forAxis (sizes source) (sizes target)).foldr max .sameSize

end ArrayMachine
