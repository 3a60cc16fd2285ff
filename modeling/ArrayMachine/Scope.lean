import ArrayMachine.Value.Elements

/-!
# The scope stack

Variables and declared types live on a stack. A scope is left by restoring the height it was entered
at, which destroys everything above it, newest first. A handle holds a slot and the stamp that the
slot got with its item; stamps are counted up and never used again, so a handle to a destroyed item
does not resolve, whatever takes its slot later.
-/

namespace ArrayMachine

/-- What lives on the stack: the value of a variable, or a declared type. -/
inductive Item where
  | value (value : Value)
  | type (type : ValueType)

/-- An item and the stamp it was pushed with. -/
structure Slot where
  stamp : Nat
  item : Item

/-- A handle to a declared type. -/
structure TypeHandle where
  slot : Nat
  stamp : Nat
deriving DecidableEq

structure Scope where
  /-- The slots, oldest first. -/
  slots : List Slot
  nextStamp : Nat
  /-- The height up to which room is made already. -/
  capacity : Nat

namespace Scope

/-- A stack without items. There is always room for one. -/
def empty (capacity : Nat) : Scope := ⟨[], 0, max capacity 1⟩

def height (scope : Scope) : Nat := scope.slots.length

/-- The stack with one more item. A full one first doubles its room. -/
def push (scope : Scope) (item : Item) : Scope where
  slots := scope.slots ++ [⟨scope.nextStamp, item⟩]
  nextStamp := scope.nextStamp + 1
  capacity := if scope.height = scope.capacity then 2 * scope.capacity else scope.capacity

def pushVariable (scope : Scope) (value : Value) : Handle × Scope :=
  (⟨scope.height, scope.nextStamp⟩, scope.push (.value value))

def pushType (scope : Scope) (type : ValueType) : TypeHandle × Scope :=
  (⟨scope.height, scope.nextStamp⟩, scope.push (.type type))

/-- The items above the mark, newest first, and the stack without them. -/
def restore (scope : Scope) (mark : Nat) : Result (List Item × Scope) :=
  if scope.height < mark then .error (.invalidMark mark scope.height)
  else .ok ((scope.slots.drop mark).reverse.map Slot.item,
    { scope with slots := scope.slots.take mark })

/-- The item in a slot, if it came with the stamp. -/
def item (scope : Scope) (slot stamp : Nat) : Result Item :=
  match scope.slots[slot]? with
  | some found => if found.stamp = stamp then .ok found.item else .error (.danglingHandle slot)
  | none => .error (.danglingHandle slot)

/-- The value of the variable a handle refers to. -/
def get (scope : Scope) (handle : Handle) : Result Value := do
  match ← scope.item handle.slot handle.stamp with
  | .value value => return value
  | .type _ => .error (.internal "variable handle points at a type")

/-- The type a handle refers to. -/
def getType (scope : Scope) (handle : TypeHandle) : Result ValueType := do
  match ← scope.item handle.slot handle.stamp with
  | .type type => return type
  | .value _ => .error (.internal "type handle points at a variable")

/-- The stack with the value of one slot written over. -/
def write (scope : Scope) (handle : Handle) (value : Value) : Scope :=
  { scope with slots := scope.slots.set handle.slot ⟨handle.stamp, .value value⟩ }

/-- The value of a variable, and the stack in which it has another. -/
def replace (scope : Scope) (handle : Handle) (value : Value) : Result (Value × Scope) := do
  return (← scope.get handle, scope.write handle value)

/-- The stack with the value of a variable changed in place, if the change can be made. -/
def update (scope : Scope) (handle : Handle) (change : Value → Result Value) : Result Scope := do
  let changed ← change (← scope.get handle)
  return scope.write handle changed

/-- The stack with one element of a variable overwritten. -/
def setElement (scope : Scope) (handle : Handle) (pos : Nat) (e : Element) : Result Scope :=
  scope.update handle fun v => v.setElement pos e

@[simp] theorem height_push (scope : Scope) (item : Item) :
    (scope.push item).height = scope.height + 1 := by
  simp [push, height]

@[simp] theorem height_write (scope : Scope) (handle : Handle) (value : Value) :
    (scope.write handle value).height = scope.height := by
  simp [write, height]

/-- A variable just pushed is behind its handle. -/
theorem get_pushVariable (scope : Scope) (value : Value) :
    (scope.pushVariable value).2.get (scope.pushVariable value).1 = .ok value := by
  simp [pushVariable, push, get, item, height, bind, Except.bind, pure, Except.pure]

end Scope

end ArrayMachine
