/-!
# Faults

A `Fault` is what an operation answers when it cannot give a value. Most faults are a sort of
failure and a sentence of detail; five carry the numbers that explain them. `Fault.message` is the
one-line text, `Fault.report` the text shown to a person, with the code of the sort and, where the
sort has one, a hint.
-/

namespace ArrayMachine

/-- Why an operation gives no value. -/
inductive Fault where
  /-- The types involved do not fit together. -/
  | typeMismatch (detail : String)
  /-- A cast between kinds that have no cast. -/
  | invalidCast (detail : String)
  /-- An operator that its operand's element kind does not have. -/
  | invalidOperandKind (detail : String)
  /-- An extent or a step that no array can have. -/
  | invalidSize (detail : String)
  /-- Extents or ranks that do not fit together. -/
  | dimensionMismatch (detail : String)
  /-- A one-based index outside `1..length`. -/
  | indexOutOfRange (index : Int) (length : Nat)
  | divisionByZero (detail : String)
  /-- An interval whose head lies above its tail. -/
  | invalidInterval (head tail : Int32)
  /-- A mark above the height of the scope stack. -/
  | invalidMark (mark height : Nat)
  /-- A handle whose item is gone from the scope stack. -/
  | danglingHandle (slot : Nat)
  /-- A value whose payload does not agree with its type, or a refused write. -/
  | internal (detail : String)
  /-- An access past the end of stored elements that is not checked beforehand: the program ends. -/
  | overrun
deriving DecidableEq

/-- An operation that gives a value or a fault. -/
abbrev Result := Except Fault

namespace Result

/-- What a function makes of a result is a value where the result is one. -/
theorem map_eq_ok_iff {α β : Type} {f : α → β} {r : Result α} {b : β} :
    f <$> r = .ok b ↔ ∃ a, r = .ok a ∧ f a = b := by
  cases r with
  | error fault =>
    constructor
    · intro h
      cases h
    · rintro ⟨_, h, _⟩
      cases h
  | ok a =>
    constructor
    · intro h
      exact ⟨a, rfl, Except.ok.inj h⟩
    · rintro ⟨_, h, rfl⟩
      cases h
      rfl

/-- Two operations in sequence give a value where both do. -/
theorem bind_eq_ok_iff {α β : Type} {r : Result α} {f : α → Result β} {b : β} :
    r >>= f = .ok b ↔ ∃ a, r = .ok a ∧ f a = .ok b := by
  cases r with
  | error fault =>
    constructor
    · intro h
      cases h
    · rintro ⟨_, h, _⟩
      cases h
  | ok a =>
    constructor
    · intro h
      exact ⟨a, rfl, h⟩
    · rintro ⟨_, h, hf⟩
      cases h
      exact hf

end Result

namespace Fault

/-- The fault of reading the zero-based position `pos` of `length` elements. The index it shows is a
signed word: from `2 ^ 63` on it has come around to the negative numbers. -/
def outOfRange (pos length : Nat) : Fault :=
  .indexOutOfRange (Int.bmod (pos + 1) UInt64.size) length

/-- The one-line text of a fault. -/
def message : Fault → String
  | typeMismatch detail => s!"Type mismatch: {detail}"
  | invalidCast detail => s!"Invalid cast: {detail}"
  | invalidOperandKind detail => s!"Invalid operand kind: {detail}"
  | invalidSize detail => s!"Invalid size: {detail}"
  | dimensionMismatch detail => s!"Dimension mismatch: {detail}"
  | indexOutOfRange index length => s!"Index {index} is out of range for length {length}"
  | divisionByZero detail => s!"Division by zero: {detail}"
  | invalidInterval head tail => s!"Invalid interval {head}..{tail}"
  | invalidMark mark height =>
    s!"Attempt to restore scope stack to mark {mark} with {height} items"
  | danglingHandle slot => s!"Handle to slot {slot} no longer refers to a live value"
  | internal detail => s!"Internal runtime error: {detail}"
  | overrun => "index out of bounds"

/-- The code of a fault's sort. -/
def code : Fault → String
  | typeMismatch _ => "prime_rt::type_mismatch"
  | invalidCast _ => "prime_rt::invalid_cast"
  | invalidOperandKind _ => "prime_rt::invalid_operand_kind"
  | invalidSize _ => "prime_rt::invalid_size"
  | dimensionMismatch _ => "prime_rt::dimension_mismatch"
  | indexOutOfRange _ _ => "prime_rt::index_out_of_range"
  | divisionByZero _ => "prime_rt::division_by_zero"
  | invalidInterval _ _ => "prime_rt::invalid_interval"
  | invalidMark _ _ => "prime_rt::invalid_mark"
  | danglingHandle _ => "prime_rt::dangling_handle"
  | internal _ => "prime_rt::internal"
  | overrun => "panic"

/-- The hint that goes with a fault's sort. -/
def help? : Fault → Option String
  | invalidCast _ => some "real values cannot be cast to boolean or character"
  | invalidOperandKind _ => some "mixed, null and identity arrays must be promoted before use"
  | indexOutOfRange _ _ => some "indices start at 1"
  | invalidInterval _ _ => some "an interval head must not exceed its tail"
  | _ => none

/-- The text shown to a person: code, message and, if there is one, the hint. -/
def report (fault : Fault) : String :=
  s!"{fault.code}\n\n  × {fault.message}\n" ++
    match fault.help? with
    | some help => s!"  help: {help}\n"
    | none => ""

end Fault

end ArrayMachine
