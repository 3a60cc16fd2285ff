import ArrayMachine.Single.Text
import ArrayMachine.Value.Elements

/-!
# The printed form of a value

Booleans print as `T` and `F`, numbers in decimal, characters as themselves, null and identity as
the bytes zero and one. A vector is its elements between brackets, one blank apart, a matrix its
rows in the same way, and a string just its characters.
-/

namespace ArrayMachine

/-- The bytes a whole number prints as. -/
def integerText (n : Int32) : List UInt8 :=
  if n.toInt < 0 then Ascii.minus :: Decimal.digits n.toInt.natAbs
  else Decimal.digits n.toInt.natAbs

/-- The bytes an element prints as. -/
def Element.text : Element → List UInt8
  | .boolean true => [Ascii.upperT]
  | .boolean false => [Ascii.upperF]
  | .integer n => integerText n
  | .real x => x.text
  | .character c => [c]
  | .null => [0]
  | .identity => [1]

/-- Texts between brackets, one blank apart. -/
def bracketed (texts : List (List UInt8)) : List UInt8 :=
  Ascii.openBracket :: [Ascii.space].intercalate texts ++ [Ascii.closeBracket]

namespace Value

/-- A row of a matrix that is laid out row by row. The program ends at a row that is not all there. -/
def rowOf {α : Type} (columns : Nat) (cells : List α) (row : Nat) : Result (List α) :=
  let first := rowMajor columns row 0
  if cells.length < first + columns then .error .overrun
  else .ok ((cells.drop first).take columns)

/-- The printed form of an array's elements. -/
def renderElements (shape : Shape) (elements : List Element) : Result (List UInt8) :=
  let texts := elements.map Element.text
  match shape.rank with
  | .unspecified => .ok (bracketed [])
  | .scalar => .ok texts.flatten
  | .vector => .ok (if shape.isString then texts.flatten else bracketed texts)
  | .matrix => do
    let rows ← (List.range (shape.extent 0)).mapM (rowOf (shape.extent 1) texts)
    return bracketed (rows.map bracketed)

/-- The bytes a value prints as. -/
def render (v : Value) : Result (List UInt8) :=
  if v.isView then .error (.internal "views must be resolved before printing")
  else do
    let v := (← v.promoteMixed).widened
    match v.shape? with
    | some shape => renderElements shape (← v.elements)
    | none => .error (.typeMismatch s!"{v.type} cannot be printed")

end Value

end ArrayMachine
