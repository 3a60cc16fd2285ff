/-!
# Element kinds

The kinds an array's elements can have. The four basic kinds have stored elements. Null and
identity arrays store none: they stand for zeros and ones of a kind still to be found. Mixed is the
kind of a literal before its elements have met at one kind.

Promotion is the silent change of kind, a cast the one asked for; `Kind.common?` is the kind at
which two operands meet.
-/

namespace ArrayMachine

inductive Kind where
  | boolean | integer | real | character
  | null | identity
  | mixed
deriving DecidableEq

namespace Kind

/-- Kinds with stored elements. -/
def isBasic : Kind → Bool
  | boolean | integer | real | character => true
  | _ => false

/-- The kinds that stand for zeros or ones of another. -/
def isSentinel : Kind → Bool
  | null | identity => true
  | _ => false

def isNumeric : Kind → Bool
  | integer | real => true
  | _ => false

def name : Kind → String
  | boolean => "boolean"
  | integer => "integer"
  | real => "real"
  | character => "character"
  | null => "null"
  | identity => "identity"
  | mixed => "mixed"

instance : ToString Kind := ⟨name⟩

/-- Basic kinds cast to each other, except reals to booleans and characters. -/
def castsTo (source target : Kind) : Bool :=
  source.isBasic && target.isBasic &&
    !(source = real && (target = boolean || target = character))

/-- Every kind but mixed promotes to itself, null and identity to every basic kind, and integers to
reals. -/
def promotesTo (source target : Kind) : Bool :=
  source != mixed && target != mixed &&
    (source = target ||
      (target.isBasic && (source.isSentinel || (source = integer && target = real))))

/-- The kind at which two kinds meet: the first if the second promotes to it, else the second if the
first does. -/
def common? (a b : Kind) : Option Kind :=
  if b.promotesTo a then some a else if a.promotesTo b then some b else none

theorem promotesTo_self {k : Kind} (h : k ≠ mixed) : k.promotesTo k = true := by
  cases k <;> simp_all [promotesTo]

/-- The order of the operands does not matter to where they meet. -/
theorem common?_comm (a b : Kind) : a.common? b = b.common? a := by
  cases a <;> cases b <;> rfl

end Kind

end ArrayMachine
