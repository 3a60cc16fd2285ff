import ArrayMachine.Settings.Blank

/-!
# Settings

The sizes a session starts with, and whether it keeps a trace of its scopes. They are read from
named texts; a text that is missing, or is not the number asked for, leaves the default. Blanks
around a text do not count.
-/

namespace ArrayMachine

structure Settings where
  /-- The capacity of the reader's ring, at least two. -/
  readBuffer : Nat
  /-- The room that the scope stack starts with. -/
  stackCapacity : Nat
  traceScopes : Bool
deriving DecidableEq

namespace Settings

def default : Settings := ⟨1024, 16, false⟩

/-- A number below `2 ^ 64` in decimal digits, with or without a plus. -/
def size? (text : List Char) : Option Nat :=
  let ds := match text with
    | '+' :: rest => rest
    | ds => ds
  if ds ≠ [] && ds.all Char.isDigit then
    let n := ds.foldl (fun n d => 10 * n + (d.toNat - '0'.toNat)) 0
    if n < UInt64.size then some n else none
  else none

/-- The positive number that a text gives, or the fallback. -/
def sizeOr (fallback : Nat) (text : Option String) : Nat :=
  match text.bind fun text => size? (trimBlanks text.toList) with
  | some n => if 0 < n then n else fallback
  | none => fallback

/-- The texts that switch something on. -/
def isOn (text : String) : Bool :=
  [['1'], ['t', 'r', 'u', 'e'], ['y', 'e', 's'], ['o', 'n']].contains (trimBlanks text.toList)

/-- The settings that a look-up of named texts gives. -/
def ofLookup (lookup : String → Option String) : Settings where
  readBuffer := max (sizeOr default.readBuffer (lookup "PRIME_RT_READ_BUFFER")) 2
  stackCapacity := sizeOr default.stackCapacity (lookup "PRIME_RT_STACK_CAPACITY")
  traceScopes := ((lookup "PRIME_DEBUG_TRACE").map isOn).getD default.traceScopes

end Settings

end ArrayMachine
