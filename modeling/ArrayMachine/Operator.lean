import ArrayMachine.Kind

/-!
# Operators

The unary and binary operators, their written forms, and the kinds of element they apply to. Some
binary operators have no meaning for single elements: a range, a step, a dot product and a
concatenation are operations of whole values.
-/

namespace ArrayMachine

inductive UnaryOp where
  | plus | minus | not
deriving DecidableEq

namespace UnaryOp

/-- The name an operator has in the text of a fault. -/
def name : UnaryOp → String
  | plus => "Plus"
  | minus => "Minus"
  | not => "Not"

/-- `not` is for booleans, the signs are for numbers. -/
def appliesTo (op : UnaryOp) : Kind → Bool
  | .boolean => op = not
  | .integer | .real => op = plus || op = minus
  | _ => false

end UnaryOp

inductive BinaryOp where
  | range | power | times | divide | remainder | dot | plus | minus | step
  | less | greater | atMost | atLeast | equal | unequal
  | and | or | xor | concat
deriving DecidableEq

namespace BinaryOp

/-- The written form. -/
def symbol : BinaryOp → String
  | range => ".."
  | power => "^"
  | times => "*"
  | divide => "/"
  | remainder => "%"
  | dot => "**"
  | plus => "+"
  | minus => "-"
  | step => "by"
  | less => "<"
  | greater => ">"
  | atMost => "<="
  | atLeast => ">="
  | equal => "=="
  | unequal => "!="
  | and => "and"
  | or => "or"
  | xor => "xor"
  | concat => "||"

def isComparison : BinaryOp → Bool
  | less | greater | atMost | atLeast | equal | unequal => true
  | _ => false

/-- The operators that compute a number from two. -/
def isArithmetic : BinaryOp → Bool
  | power | times | divide | remainder | plus | minus => true
  | _ => false

/-- The operators of two booleans. -/
def isLogical : BinaryOp → Bool
  | equal | unequal | and | or | xor => true
  | _ => false

/-- The kind of the answer for two elements of one kind, where the operator applies to them. -/
def resultKind? (op : BinaryOp) (kind : Kind) : Option Kind :=
  match kind with
  | .boolean => if op.isLogical then some .boolean else none
  | .integer | .real =>
    if op.isComparison then some .boolean else if op.isArithmetic then some kind else none
  | _ => none

/-- What an operator makes of two arrays of one kind. -/
structure ArrayResult where
  kind : Kind
  /-- The answer is a single element, whatever the operands' extents. -/
  collapses : Bool
deriving DecidableEq

/-- The answer for two arrays of one kind, where the operator applies to them. Equality and the dot
product collapse. -/
def arrayResult? (op : BinaryOp) (kind : Kind) : Option ArrayResult :=
  match op with
  | concat => if kind.isBasic then some ⟨kind, false⟩ else none
  | dot => if kind.isNumeric then some ⟨kind, true⟩ else none
  | _ => (op.resultKind? kind).map fun result => ⟨result, op = equal || op = unequal⟩

end BinaryOp

end ArrayMachine
