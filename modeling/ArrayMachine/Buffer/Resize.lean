import ArrayMachine.Buffer
import ArrayMachine.Shape

/-!
# Resizing buffers

A resized vector keeps its elements from the front, a resized matrix keeps each element at its row
and column. Elements without a place are dropped, and places without an element hold zeros: a resized
buffer is made of zeros, and what stays is written over them.
-/

namespace ArrayMachine.Buffer

/-- An element of one buffer is written over one of another. -/
def copyTo (b out : Buffer) (old new : Nat) : Result Buffer := do out.set new (← b.get old)

/-- A vector with another length, from the front. -/
def resizeVector (b : Buffer) (length : Nat) : Result Buffer := do
  (List.range (min b.length length)).foldlM (fun out pos => b.copyTo out pos pos)
    (← zeros b.kind length)

/-- A row of a matrix, column by column, into a matrix of other rows. -/
def copyRow (b : Buffer) (oldColumns columns : Nat) (out : Buffer) (row : Nat) : Result Buffer :=
  (List.range (min oldColumns columns)).foldlM
    (fun out column => b.copyTo out (rowMajor oldColumns row column) (rowMajor columns row column))
    out

/-- A matrix with other extents, row by row. The buffer must hold every element that is kept. -/
def resizeMatrix (b : Buffer) (oldRows oldColumns rows columns : Nat) : Result Buffer := do
  (List.range (min oldRows rows)).foldlM (b.copyRow oldColumns columns)
    (← zeros b.kind (inWord (rows * columns)))

end ArrayMachine.Buffer
