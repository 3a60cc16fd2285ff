import ArrayMachine.Buffer
import ArrayMachine.Shape

/-!
# Operators on buffers

A unary operator applies to each element, a binary one to the elements of two equally long buffers,
pair by pair. Concatenation, the dot product and the matrix product are operations of whole
buffers. Integer sums wrap around; real sums are rounded at every step, from the left.
-/

namespace ArrayMachine.Buffer

/-- A unary operator on every element. -/
def unary (op : UnaryOp) (b : Buffer) : Result Buffer :=
  if op.appliesTo b.kind then do ofElements b.kind (← b.elements.mapM (Element.unary op))
  else .error
    (.invalidOperandKind s!"unary operator {op.name} is not defined for {b.kind} arrays")

/-- The fault of operands that should be equally long. -/
def lengthMismatch (op : BinaryOp) (a b : Buffer) : Fault :=
  .dimensionMismatch s!"operands of {op.symbol} have lengths {a.length} and {b.length}"

/-- A binary operator on the pairs of elements at the same position. -/
def elementwise (op : BinaryOp) (a b : Buffer) : Result Buffer :=
  if a.length ≠ b.length then .error (lengthMismatch op a b)
  else match op.resultKind? a.kind with
    | none => .error
        (.invalidOperandKind s!"operator {op.symbol} is not defined for {a.kind} arrays")
    | some kind => do
      ofElements kind (← (a.elements.zip b.elements).mapM fun (x, y) => Element.binary op x y)

/-- Equality of the stored words: a NaN equals itself, and the two zeros differ. -/
def sameWords (a b : Buffer) : Result Bool :=
  if a.kind = b.kind then .ok (a = b)
  else .error (.invalidOperandKind s!"cannot compare {a.kind} with {b.kind}")

def concat (a b : Buffer) : Result Buffer :=
  match a, b with
  | booleans x, booleans y => .ok (booleans (x ++ y))
  | integers x, integers y => .ok (integers (x ++ y))
  | reals x, reals y => .ok (reals (x ++ y))
  | characters x, characters y => .ok (characters (x ++ y))
  | _, _ => .error (.invalidOperandKind s!"cannot concatenate {a.kind} with {b.kind}")

/-- Concatenation appends the elements. -/
theorem elements_of_concat {a b c : Buffer} (h : a.concat b = .ok c) :
    c.elements = a.elements ++ b.elements := by
  cases a <;> cases b <;> cases h <;> simp [elements]

/-- Both buffers and their concatenation are of one kind. -/
theorem kind_of_concat {a b c : Buffer} (h : a.concat b = .ok c) :
    c.kind = a.kind ∧ c.kind = b.kind := by
  cases a <;> cases b <;> cases h <;> exact ⟨rfl, rfl⟩

/-! ## Products -/

/-- The sum of the products of paired numbers, from the left, starting with `start`. -/
def pairedSum {α : Type} [Add α] [Mul α] (start : α) (x y : List α) : α :=
  (List.zipWith (· * ·) x y).foldl (· + ·) start

/-- The sum of the products of paired numbers. A real sum starts from negative zero, which changes
no other summand. -/
def dot (a b : Buffer) : Result Element :=
  if a.length ≠ b.length then .error (lengthMismatch .dot a b)
  else match a, b with
    | integers x, integers y => .ok (.integer (pairedSum 0 x.toList y.toList))
    | reals x, reals y => .ok (.real (pairedSum (Single.zero true) x.toList y.toList))
    | _, _ => .error
        (.invalidOperandKind s!"dot product needs integer or real operands, found {a.kind}")

/-- The sum for one entry, read at the flat positions of row `i` and column `j`. -/
def entryLoop {α : Type} [Add α] [Mul α] (start : α) (m k i j : Nat) (x y : Array α) : Option α :=
  (List.range m).foldlM
    (fun sum l => do return sum + (← x[rowMajor m i l]?) * (← y[rowMajor k l j]?)) start

/-- The table with one entry overwritten by its sum. -/
def writeEntry {α : Type} [Add α] [Mul α] (start : α) (m k i : Nat) (x y : Array α) (out : Array α)
    (j : Nat) : Option (Array α) := do
  let sum ← entryLoop start m k i j x y
  if h : rowMajor k i j < out.size then some (out.set (rowMajor k i j) sum h) else none

/-- The loops over rows and columns, or nothing where a read or a write is out of bounds. -/
def productLoop {α : Type} [Add α] [Mul α] (start : α) (n m k : Nat) (x y : Array α) :
    Option (Array α) :=
  (List.range n).foldlM (fun out i => (List.range k).foldlM (writeEntry start m k i x y) out)
    (Array.replicate (inWord (n * k)) start)

/-- What was stored in bounds. Past the end the program ends. -/
def inBounds {α : Type} (data : Option α) : Result α :=
  match data with
  | some data => .ok data
  | none => .error .overrun

/-- The product of an `n` by `m` matrix with an `m` by `k` one. Every sum starts from zero. -/
def matrixProduct (a b : Buffer) (n m k : Nat) : Result Buffer :=
  if a.length ≠ inWord (n * m) ∨ b.length ≠ inWord (m * k) then
    .error (.dimensionMismatch
      s!"matrix product of {n}x{m} and {m}x{k} got buffers of {a.length} and {b.length}")
  else match a, b with
    | integers x, integers y => integers <$> inBounds (productLoop 0 n m k x y)
    | reals x, reals y => reals <$> inBounds (productLoop (Single.zero false) n m k x y)
    | _, _ => .error (.invalidOperandKind
        s!"matrix multiplication needs integer or real operands, found {a.kind}")

end ArrayMachine.Buffer
