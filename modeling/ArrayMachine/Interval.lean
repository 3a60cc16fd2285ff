import ArrayMachine.Fault
import ArrayMachine.Operator

/-!
# Intervals

All integers from a head to a tail, both included. The head never lies above the tail, so an
interval is never empty. Arithmetic on intervals takes their ends, wrapping around at 32 bits, and
is refused where the new head would lie above the new tail.
-/

namespace ArrayMachine

structure Interval where
  head : Int32
  tail : Int32
  head_le_tail : head ≤ tail
deriving DecidableEq

namespace Interval

def ofEnds (head tail : Int32) : Result Interval :=
  if h : head ≤ tail then .ok ⟨head, tail, h⟩ else .error (.invalidInterval head tail)

/-- The number of members. -/
def length (i : Interval) : Nat := (i.tail.toInt - i.head.toInt + 1).toNat

/-- The member `offset` above the head. -/
def member (i : Interval) (offset : Nat) : Int32 := Int32.ofInt (i.head.toInt + offset)

/-- The member at a zero-based position. -/
def get (i : Interval) (pos : Nat) : Result Int32 :=
  if pos < i.length then .ok (i.member pos) else .error (.outOfRange pos i.length)

/-- The members, in order. -/
def toList (i : Interval) : List Int32 := (List.range i.length).map i.member

/-- The members, from the last to the first. -/
def reversed (i : Interval) : List Int32 := i.toList.reverse

/-- Every `step`-th member, the head first. -/
def every (i : Interval) (step : Int32) : Result (List Int32) :=
  if step ≤ 0 then
    .error (.invalidSize s!"interval step must be positive, found {step}")
  else
    let stride := step.toInt.toNat
    .ok ((List.range ((i.length + stride - 1) / stride)).map fun n => i.member (n * stride))

/-- A sign on an interval. A minus exchanges the ends. -/
def unary (op : UnaryOp) (i : Interval) : Result Interval :=
  match op with
  | .plus => .ok i
  | .minus => ofEnds (-i.tail) (-i.head)
  | .not => .error (.invalidOperandKind "intervals have no `not`")

/-- The least and the greatest of the four products of ends. -/
def product (a b : Interval) : Result Interval :=
  let corner := a.head * b.head
  let others := [a.head * b.tail, a.tail * b.head, a.tail * b.tail]
  ofEnds (others.foldl min corner) (others.foldl max corner)

/-- Sums, differences and products of intervals. -/
def arithmetic (op : BinaryOp) (a b : Interval) : Result Interval :=
  match op with
  | .plus => ofEnds (a.head + b.head) (a.tail + b.tail)
  | .minus => ofEnds (a.head - b.tail) (a.tail - b.head)
  | .times => product a b
  | _ => .error
      (.invalidOperandKind s!"operator {op.symbol} is not defined between intervals")

/-- An interval is never empty. -/
theorem length_pos (i : Interval) : 0 < i.length := by
  have := Int32.le_iff_toInt_le.1 i.head_le_tail
  unfold length
  omega

@[simp] theorem length_toList (i : Interval) : i.toList.length = i.length := by
  simp [toList]

/-- Reading a position is reading the list of members. -/
theorem get_eq (i : Interval) (pos : Nat) :
    i.get pos = (match i.toList[pos]? with
      | some n => .ok n
      | none => .error (.outOfRange pos i.length)) := by
  unfold get toList
  by_cases h : pos < i.length <;> simp [h]

end Interval

end ArrayMachine
