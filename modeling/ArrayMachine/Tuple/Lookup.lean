import ArrayMachine.Tuple

/-!
# Looking up fields by name

Every tuple type has a table of names, made at the first look-up by name and kept for all later
ones. The table belongs to the type: all copies of a tuple share it, and it goes along when two
tuples exchange their types. `Tables` records which types have theirs; a `Tuple` is a value with the
number of its type's table.

Of two fields with one name the later one is found, whether or not the table was there before.
-/

namespace ArrayMachine

/-- The positions of names, the last one first. -/
abbrev NameTable := List (String × Nat)

/-- The table of a list of names. -/
def NameTable.ofNames (names : List (Option String)) : NameTable :=
  names.zipIdx.foldl (fun table (name, pos) =>
    match name with
    | some name => (name, pos) :: table
    | none => table) []

/-- The last position that has the name. -/
def NameTable.position? (table : NameTable) (name : String) : Option Nat := table.lookup name

/-- The tables of all tuple types, `none` for a type whose table is not made yet. -/
structure Tables where
  made : List (Option NameTable)

namespace Tables

def empty : Tables := ⟨[]⟩

/-- Room for the table of one more type. -/
def extend (tables : Tables) : Nat × Tables := (tables.made.length, ⟨tables.made ++ [none]⟩)

/-- The table of a type, if it is made. -/
def get? (tables : Tables) (id : Nat) : Option NameTable := tables.made[id]?.join

/-- The position of a name in the type with the given names, and the tables, of which the type's is
made by now. -/
def resolve (tables : Tables) (id : Nat) (names : List (Option String)) (name : String) :
    Option Nat × Tables :=
  let table := (tables.get? id).getD (NameTable.ofNames names)
  (table.position? name, ⟨tables.made.set id (some table)⟩)

end Tables

/-- A value and, if it is a tuple, the number of its type's table. -/
structure Tuple where
  value : Value
  table : Option Nat

namespace Tuple

/-- A value just made: if it is a tuple, it has a type of its own. -/
def fresh (value : Value) (tables : Tables) : Tuple × Tables :=
  if value.type.isTuple then
    let (id, tables) := tables.extend
    (⟨value, some id⟩, tables)
  else (⟨value, none⟩, tables)

/-- The table of the tuple's type is made. -/
def isBuilt (t : Tuple) (tables : Tables) : Bool :=
  match t.table with
  | some id => (tables.get? id).isSome
  | none => false

/-- The position of a named field, and the tables with that of the tuple's type. -/
def resolve (t : Tuple) (name : String) (tables : Tables) : Option Nat × Tables :=
  match t.table with
  | some id => tables.resolve id t.value.type.fieldNames name
  | none => (none, tables)

/-- The field with a name, and the tables with that of the tuple's type. -/
def fieldNamed (t : Tuple) (name : String) (tables : Tables) : Result Value × Tables :=
  match t.table with
  | some _ =>
    let (pos?, tables) := t.resolve name tables
    (t.value.fieldResolved name pos?, tables)
  | none => (.error Value.notATuple, tables)

/-- The two tuples with each other's types, if their arities are equal. -/
def swapTypes (a b : Tuple) : Option (Tuple × Tuple) :=
  match a.value.type.arity?, b.value.type.arity? with
  | some m, some n =>
    if m = n then
      some (⟨{ a.value with type := b.value.type }, b.table⟩,
        ⟨{ b.value with type := a.value.type }, a.table⟩)
    else none
  | _, _ => none

/-- The tuple with one field changed by an operation that may fail. -/
def modifyField (t : Tuple) (pos : Nat) (change : Value → Result Value) : Result Tuple := do
  return { t with value := ← t.value.modifyField pos change }

end Tuple

end ArrayMachine
