import ArrayMachine.Fault
import ArrayMachine.Kind
import ArrayMachine.Single.Basic

/-!
# Elements

A single element of an array: a stored one of a basic kind, or a null or identity standing for the
zero or the one of a kind still to be found. `Element.promote` is the silent change of kind and
`Element.cast` the one asked for. The typed readings `toBoolean`, `toInteger`, `toReal` and
`toCharacter` are promotion to one basic kind.
-/

namespace ArrayMachine

inductive Element where
  | boolean (value : Bool)
  | integer (value : Int32)
  | real (value : Single)
  | character (value : UInt8)
  | null
  | identity
deriving DecidableEq

namespace Element

def kind : Element → Kind
  | boolean _ => .boolean
  | integer _ => .integer
  | real _ => .real
  | character _ => .character
  | null => .null
  | identity => .identity

def integer? : Element → Option Int32
  | integer value => some value
  | _ => none

def boolean? : Element → Option Bool
  | boolean value => some value
  | _ => none

/-- Equality of values: reals by number, all else by identity. -/
def numEq : Element → Element → Bool
  | real x, real y => x.numEq y
  | a, b => a = b

/-! ## Zeros and ones -/

def zero : Kind → Result Element
  | .boolean => .ok (boolean false)
  | .integer => .ok (integer 0)
  | .real => .ok (real (Single.zero false))
  | .character => .ok (character 0)
  | kind => .error (.invalidOperandKind s!"{kind} has no zero element")

def one : Kind → Result Element
  | .boolean => .ok (boolean true)
  | .integer => .ok (integer 1)
  | .real => .ok (real Single.one)
  | .character => .ok (character 1)
  | kind => .error (.invalidOperandKind s!"{kind} has no identity element")

/-! ## Promotion -/

/-- A promotion between kinds that have none. -/
def cannotPromote (source target : Kind) : Fault :=
  .typeMismatch s!"cannot promote {source} to {target}"

def toBoolean : Element → Result Bool
  | boolean value => .ok value
  | null => .ok false
  | identity => .ok true
  | e => .error (cannotPromote e.kind .boolean)

def toInteger : Element → Result Int32
  | integer value => .ok value
  | null => .ok 0
  | identity => .ok 1
  | e => .error (cannotPromote e.kind .integer)

def toReal : Element → Result Single
  | real value => .ok value
  | integer value => .ok (Single.ofInt value.toInt)
  | null => .ok (Single.zero false)
  | identity => .ok Single.one
  | e => .error (cannotPromote e.kind .real)

def toCharacter : Element → Result UInt8
  | character value => .ok value
  | null => .ok 0
  | identity => .ok 1
  | e => .error (cannotPromote e.kind .character)

/-- The element as one of the target kind, if its kind promotes to it. -/
def promote (target : Kind) (e : Element) : Result Element :=
  match target with
  | .boolean => boolean <$> e.toBoolean
  | .integer => integer <$> e.toInteger
  | .real => real <$> e.toReal
  | .character => character <$> e.toCharacter
  | _ => if e.kind = target then .ok e else .error (cannotPromote e.kind target)

/-! ## Casts -/

/-- The element as one of the target kind, if its kind casts to it. A number becomes true unless it
is zero, an integer a character by its low byte, and a real an integer by dropping its fraction. -/
def cast (target : Kind) (e : Element) : Result Element :=
  match target, e with
  | .boolean, boolean _ | .integer, integer _ | .real, real _ | .character, character _ => .ok e
  | .boolean, integer n => .ok (boolean (n != 0))
  | .boolean, character c => .ok (boolean (c != 0))
  | .integer, boolean b => .ok (integer (if b then 1 else 0))
  | .integer, real x => .ok (integer x.toInt32)
  | .integer, character c => .ok (integer (Int32.ofNat c.toNat))
  | .real, boolean b => .ok (real (Single.ofInt (if b then 1 else 0)))
  | .real, integer n => .ok (real (Single.ofInt n.toInt))
  | .real, character c => .ok (real (Single.ofInt c.toNat))
  | .character, boolean b => .ok (character (if b then 1 else 0))
  | .character, integer n => .ok (character (UInt8.ofNat (n.toInt % 256).toNat))
  | _, _ => .error (.invalidCast s!"cannot cast {e.kind} to {target}")

/-! ## What promotion does to kinds -/

/-- Promotion succeeds exactly where the kind promotes. -/
theorem isOk_promote (target : Kind) (e : Element) :
    (e.promote target).isOk = e.kind.promotesTo target := by
  cases target <;> cases e <;> rfl

/-- A promoted element has the target kind. -/
theorem kind_of_promote {target : Kind} {e r : Element} (h : e.promote target = .ok r) :
    r.kind = target := by
  cases target <;> cases e <;> cases h <;> rfl

/-- A cast succeeds exactly where the kind casts. -/
theorem isOk_cast (target : Kind) (e : Element) :
    (e.cast target).isOk = e.kind.castsTo target := by
  cases target <;> cases e <;> rfl

end Element

end ArrayMachine
