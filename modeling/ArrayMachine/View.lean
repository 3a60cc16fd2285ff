/-!
# Views

A view stands for some elements of an array on the scope stack. It holds a handle to that array, its
root, and the positions selected along each axis; it never points at another view.
-/

namespace ArrayMachine

/-- A handle to an item of a scope stack: its slot, and the stamp that the slot got when the item
came into it. Stamps are never used twice, so a handle to an item that is gone fits no later one. -/
structure Handle where
  slot : Nat
  stamp : Nat
deriving DecidableEq

/-- The zero-based positions selected along one axis. A single position removes the axis. -/
inductive Selector where
  | single (position : Nat)
  | many (positions : Array Nat)
deriving DecidableEq

namespace Selector

/-- The selected positions, in order. -/
def positions : Selector → List Nat
  | single position => [position]
  | many positions => positions.toList

/-- The selected position at a position of the selector. -/
def get? : Selector → Nat → Option Nat
  | single position, pos => if pos = 0 then some position else none
  | many positions, pos => positions[pos]?

def length : Selector → Nat
  | single _ => 1
  | many positions => positions.size

@[simp] theorem length_positions (s : Selector) : s.positions.length = s.length := by
  cases s <;> simp [positions, length]

theorem get?_eq (s : Selector) (pos : Nat) : s.get? pos = s.positions[pos]? := by
  cases s with
  | single position => cases pos <;> rfl
  | many positions => exact (Array.getElem?_toList).symm

end Selector

/-- What a view selects of its root. -/
inductive Selection where
  /-- A vector indexed by itself: position `p` is the element that element `p` is the index of. -/
  | bySelf
  | vector (positions : Selector)
  | matrix (rows columns : Selector)
deriving DecidableEq

structure View where
  root : Handle
  selection : Selection
deriving DecidableEq

end ArrayMachine
