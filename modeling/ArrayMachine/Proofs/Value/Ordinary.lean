import ArrayMachine.Conversion
import ArrayMachine.Proofs.Traversal
import ArrayMachine.Value.Operators

/-!
# Ordinary outcomes

An outcome is ordinary (`Result.Ordinary`) if it is a value or a fault of its arguments, and not the
internal fault of a value whose payload disagrees with its type. What is made of elements, buffers
and intervals is always ordinary. Values need more, see `ArrayMachine.Proofs.Value.Faults`.

The conversions of elements and the operators on them can be written as a table behind a guard
(`Element.promoteByTable` and the like), with a last row of internal faults for what the guard
should have kept out. The tables say the same as the definitions without that row, so it is never
reached.

* `Result.Ordinary.bind`: two operations in sequence.
* `Element.promoteByTable_eq`, `Element.castByTable_eq`, `Element.binaryByTable_eq`,
  `Buffer.setByTable_eq`: no pair of kinds that passes the guard is without a row of its own.
-/

namespace ArrayMachine

namespace Result

variable {α β : Type} {r : Result α}

/-- A value, or a fault that is not internal. -/
def Ordinary (r : Result α) : Prop := ∀ detail, r ≠ .error (.internal detail)

@[simp] theorem ordinary_ok (a : α) : Ordinary (.ok a) := by
  rintro detail ⟨⟩

@[simp] theorem ordinary_pure (a : α) : Ordinary (pure a) := ordinary_ok a

@[simp] theorem ordinary_error {fault : Fault} :
    Ordinary (.error fault : Result α) ↔ ∀ detail, fault ≠ .internal detail := by
  simp [Ordinary]

@[simp] theorem ordinary_map {f : α → β} : Ordinary (f <$> r) ↔ r.Ordinary := by
  cases r with
  | error fault => exact ordinary_error.trans ordinary_error.symm
  | ok a => exact iff_of_true (ordinary_ok _) (ordinary_ok _)

/-- **Two operations in sequence** are ordinary if the first one is, and the second one is for every
value of the first. -/
theorem Ordinary.bind {f : α → Result β} (h : r.Ordinary) (hf : ∀ a, r = .ok a → (f a).Ordinary) :
    Ordinary (r >>= f) := by
  cases r with
  | error fault => exact ordinary_error.mpr (ordinary_error.mp h)
  | ok a => exact hf a rfl

theorem ordinary_mapM {f : α → Result β} {xs : List α} (h : ∀ x ∈ xs, (f x).Ordinary) :
    (xs.mapM f).Ordinary := by
  induction xs with
  | nil => exact ordinary_ok []
  | cons x xs ih =>
    obtain ⟨hx, hxs⟩ := List.forall_mem_cons.mp h
    rw [List.mapM_cons]
    exact hx.bind fun y _ => (ih hxs).bind fun ys _ => ordinary_ok _

theorem ordinary_foldlM {f : β → α → Result β} (h : ∀ b a, (f b a).Ordinary) (xs : List α)
    (b : β) : (xs.foldlM f b).Ordinary := by
  induction xs generalizing b with
  | nil => exact ordinary_ok b
  | cons x xs ih =>
    rw [List.foldlM_cons]
    exact (h b x).bind fun c _ => ih c

@[simp] theorem ordinary_ite {c : Prop} [Decidable c] {s : Result α} :
    Ordinary (if c then r else s) ↔ (c → r.Ordinary) ∧ (¬c → s.Ordinary) := by
  split <;> simp_all

end Result

open Result

/-! ## Elements -/

namespace Element

variable (e : Element)

@[simp] theorem ordinary_toBoolean : e.toBoolean.Ordinary := by
  cases e
  case boolean | null | identity => exact ordinary_ok _
  all_goals exact ordinary_error.mpr nofun

@[simp] theorem ordinary_toInteger : e.toInteger.Ordinary := by
  cases e
  case integer | null | identity => exact ordinary_ok _
  all_goals exact ordinary_error.mpr nofun

@[simp] theorem ordinary_toReal : e.toReal.Ordinary := by
  cases e
  case real | integer | null | identity => exact ordinary_ok _
  all_goals exact ordinary_error.mpr nofun

@[simp] theorem ordinary_toCharacter : e.toCharacter.Ordinary := by
  cases e
  case character | null | identity => exact ordinary_ok _
  all_goals exact ordinary_error.mpr nofun

@[simp] theorem ordinary_promote (target : Kind) : (e.promote target).Ordinary := by
  cases target <;> simp [promote, cannotPromote]

@[simp] theorem ordinary_cast (target : Kind) : (e.cast target).Ordinary := by
  unfold cast
  split <;> simp

@[simp] theorem ordinary_unary (op : UnaryOp) : (e.unary op).Ordinary := by
  unfold unary
  split <;> simp

@[simp] theorem ordinary_integerPower (base exponent : Int32) :
    (integerPower base exponent).Ordinary := by
  simp [integerPower]

@[simp] theorem ordinary_binaryBoolean (op : BinaryOp) (x y : Bool) :
    (binaryBoolean op x y).Ordinary := by
  cases op <;> simp [binaryBoolean, undefinedFor]

@[simp] theorem ordinary_binaryInteger (op : BinaryOp) (x y : Int32) :
    (binaryInteger op x y).Ordinary := by
  cases op <;> simp [binaryInteger, undefinedFor]

@[simp] theorem ordinary_binaryReal (op : BinaryOp) (x y : Single) :
    (binaryReal op x y).Ordinary := by
  cases op <;> simp [binaryReal, undefinedFor]

@[simp] theorem ordinary_binary (op : BinaryOp) (a b : Element) : (binary op a b).Ordinary := by
  unfold binary
  split <;> simp [undefinedFor]

/-! ## Tables behind guards -/

/-- Promotion as a table of the kinds that promote to another. -/
def promoteByTable (target : Kind) (e : Element) : Result Element :=
  if e.kind.promotesTo target then
    if target = e.kind then .ok e
    else match target, e with
      | _, null => zero target
      | _, identity => one target
      | .real, integer n => .ok (real (Single.ofInt n.toInt))
      | _, _ => .error (.internal s!"promotion from {e.kind} to {target} has no conversion")
  else .error (cannotPromote e.kind target)

/-- A cast as a table of the kinds that cast to another. -/
def castByTable (target : Kind) (e : Element) : Result Element :=
  if e.kind.castsTo target then
    if target = e.kind then .ok e
    else match target, e with
      | .boolean, integer n => .ok (boolean (n != 0))
      | .boolean, character c => .ok (boolean (c != 0))
      | .character, boolean b => .ok (character (if b then 1 else 0))
      | .character, integer n => .ok (character (UInt8.ofNat (n.toInt % 256).toNat))
      | .integer, boolean b => .ok (integer (if b then 1 else 0))
      | .integer, character c => .ok (integer (Int32.ofNat c.toNat))
      | .integer, real x => .ok (integer x.toInt32)
      | .real, boolean b => .ok (real (Single.ofInt (if b then 1 else 0)))
      | .real, character c => .ok (real (Single.ofInt c.toNat))
      | .real, integer n => .ok (real (Single.ofInt n.toInt))
      | _, _ => .error (.internal s!"cast from {e.kind} to {target} has no conversion")
  else .error (.invalidCast s!"cannot cast {e.kind} to {target}")

/-- The operators on integers, those that the guard lets through. -/
def integerByTable (op : BinaryOp) (x y : Int32) : Result Element :=
  match op with
  | .equal => .ok (boolean (x = y))
  | .unequal => .ok (boolean (x ≠ y))
  | .less => .ok (boolean (x < y))
  | .greater => .ok (boolean (y < x))
  | .atMost => .ok (boolean (x ≤ y))
  | .atLeast => .ok (boolean (y ≤ x))
  | .power => integer <$> integerPower x y
  | .times => .ok (integer (x * y))
  | .divide =>
    if y = 0 then .error (.divisionByZero s!"{x} / 0") else .ok (integer (x / y))
  | .remainder =>
    if y = 0 then .error (.divisionByZero s!"{x} % 0") else .ok (integer (x % y))
  | .plus => .ok (integer (x + y))
  | .minus => .ok (integer (x - y))
  | _ => .error (.internal s!"integer operator {op.symbol} slipped through")

/-- The operators on reals; the last row is for the difference. -/
def realByTable (op : BinaryOp) (x y : Single) : Element :=
  match op with
  | .equal => boolean (x.numEq y)
  | .unequal => boolean !(x.numEq y)
  | .less => boolean (x.less y)
  | .greater => boolean (y.less x)
  | .atMost => boolean (x.atMost y)
  | .atLeast => boolean (y.atMost x)
  | .power => real (x.pow y)
  | .times => real (x * y)
  | .divide => real (x / y)
  | .remainder => real (x % y)
  | .plus => real (x + y)
  | _ => real (x - y)

/-- The operators on booleans; the last row is for exclusive or. -/
def booleanByTable (op : BinaryOp) (x y : Bool) : Element :=
  match op with
  | .equal => boolean (x == y)
  | .unequal => boolean (x != y)
  | .and => boolean (x && y)
  | .or => boolean (x || y)
  | _ => boolean (x ^^ y)

/-- A binary operator as a table of the kinds that have operators. -/
def binaryByTable (op : BinaryOp) (a b : Element) : Result Element :=
  if a.kind ≠ b.kind then
    .error (.invalidOperandKind
      s!"operands of {op.symbol} must share a kind, found {a.kind} and {b.kind}")
  else if op.resultKind? a.kind = none then .error (undefinedFor op a.kind)
  else match a, b with
    | boolean x, boolean y => .ok (booleanByTable op x y)
    | integer x, integer y => integerByTable op x y
    | real x, real y => .ok (realByTable op x y)
    | _, _ => .error (.internal "unreachable element pairing")

/-- Every promotion that the guard lets through has a row. -/
theorem promoteByTable_eq (target : Kind) : e.promoteByTable target = e.promote target := by
  cases target <;> cases e <;> rfl

/-- Every cast that the guard lets through has a row. -/
theorem castByTable_eq (target : Kind) : e.castByTable target = e.cast target := by
  cases target <;> cases e <;> rfl

/-- Every pair of elements that the guards let through has a row, and every operator on integers. -/
theorem binaryByTable_eq (op : BinaryOp) (a b : Element) :
    binaryByTable op a b = binary op a b := by
  cases a with
  | boolean x =>
    cases b with
    | boolean y => cases op <;> rfl
    | _ => rfl
  | integer x =>
    cases b with
    | integer y => cases op <;> rfl
    | _ => rfl
  | real x =>
    cases b with
    | real y => cases op <;> rfl
    | _ => rfl
  | _ => cases b <;> rfl

end Element

/-! ## Buffers -/

namespace Buffer

variable (b c : Buffer) (kind : Kind) (pos : Nat) (e : Element)

@[simp] theorem noStorage_ne_internal (detail : String) : noStorage kind ≠ .internal detail := by
  unfold noStorage
  split <;> rintro ⟨⟩

@[simp] theorem ordinary_ofElements (elements : List Element) :
    (ofElements kind elements).Ordinary := by
  have hread {α : Type} {read : Element → Result α} (h : ∀ e, (read e).Ordinary) :
      (elements.mapM read).Ordinary := ordinary_mapM fun e _ => h e
  cases kind <;> simp [ofElements, hread]

@[simp] theorem ordinary_filled (length : Nat) : (filled kind length e).Ordinary := by
  cases kind
  case boolean | integer | real | character => simp [filled]
  all_goals exact (e.ordinary_promote _).bind fun _ _ => by simp

@[simp] theorem ordinary_get : (b.get pos).Ordinary := by
  unfold get
  split <;> simp [Fault.outOfRange]

@[simp] theorem ordinary_set : (b.set pos e).Ordinary := by
  cases b <;> simp [set, Fault.outOfRange]

@[simp] theorem ordinary_promote : (b.promote kind).Ordinary := by
  simp [promote]

@[simp] theorem ordinary_cast : (b.cast kind).Ordinary := by
  have helements : (b.elements.mapM (Element.cast kind)).Ordinary :=
    ordinary_mapM fun e _ => e.ordinary_cast kind
  simp [cast, helements.bind]

@[simp] theorem ordinary_unary (op : UnaryOp) : (b.unary op).Ordinary := by
  have helements : (b.elements.mapM (Element.unary op)).Ordinary :=
    ordinary_mapM fun e _ => e.ordinary_unary op
  simp [unary, helements.bind]

@[simp] theorem ordinary_elementwise (op : BinaryOp) : (elementwise op b c).Ordinary := by
  have hpairs : ((b.elements.zip c.elements).mapM fun (x, y) => Element.binary op x y).Ordinary :=
    ordinary_mapM fun pair _ => Element.ordinary_binary op pair.1 pair.2
  unfold elementwise
  split
  · simp [lengthMismatch]
  · split
    · simp
    · exact hpairs.bind fun _ _ => ordinary_ofElements _ _

@[simp] theorem ordinary_sameWords : (b.sameWords c).Ordinary := by
  simp [sameWords]

@[simp] theorem ordinary_concat : (b.concat c).Ordinary := by
  unfold concat
  split <;> simp

@[simp] theorem ordinary_dot : (b.dot c).Ordinary := by
  unfold dot
  split
  · simp [lengthMismatch]
  · split <;> simp

@[simp] theorem ordinary_inBounds {α : Type} (data : Option α) : (inBounds data).Ordinary := by
  cases data <;> simp [inBounds]

@[simp] theorem ordinary_matrixProduct (n m k : Nat) : (b.matrixProduct c n m k).Ordinary := by
  unfold matrixProduct
  split
  · simp
  · split <;> simp

@[simp] theorem ordinary_copyTo (old new : Nat) : (b.copyTo c old new).Ordinary :=
  (b.ordinary_get _).bind fun _ _ => ordinary_set _ _ _

@[simp] theorem ordinary_resizeVector (length : Nat) : (b.resizeVector length).Ordinary :=
  (ordinary_filled _ _ _).bind fun out _ => ordinary_foldlM (by simp) _ out

@[simp] theorem ordinary_resizeMatrix (oldRows oldColumns rows columns : Nat) :
    (b.resizeMatrix oldRows oldColumns rows columns).Ordinary :=
  (ordinary_filled _ _ _).bind fun out _ =>
    ordinary_foldlM (fun next _ => ordinary_foldlM (by simp) _ next) _ out

/-- The store of an element as a table of the kinds that buffers have. -/
def setByTable (b : Buffer) (pos : Nat) (value : Element) : Result Buffer :=
  if b.length ≤ pos then .error (.outOfRange pos b.length)
  else do
    match b, ← value.promoteByTable b.kind with
    | booleans data, .boolean x => .ok (booleans (data.setIfInBounds pos x))
    | integers data, .integer x => .ok (integers (data.setIfInBounds pos x))
    | reals data, .real x => .ok (reals (data.setIfInBounds pos x))
    | characters data, .character x => .ok (characters (data.setIfInBounds pos x))
    | _, _ => .error (.internal "promotion produced a foreign element")

/-- What an element is promoted to has a place in the buffer. -/
theorem setByTable_eq : b.setByTable pos e = b.set pos e := by
  unfold setByTable set
  split
  · rfl
  · rw [e.promoteByTable_eq]
    cases b <;> cases e <;> rfl

end Buffer

/-! ## Intervals -/

namespace Interval

variable (i j : Interval)

@[simp] theorem ordinary_ofEnds (head tail : Int32) : (ofEnds head tail).Ordinary := by
  unfold ofEnds
  split <;> simp

@[simp] theorem ordinary_get (pos : Nat) : (i.get pos).Ordinary := by
  simp [get, Fault.outOfRange]

@[simp] theorem ordinary_every (step : Int32) : (i.every step).Ordinary := by
  simp [every]

@[simp] theorem ordinary_unary (op : UnaryOp) : (i.unary op).Ordinary := by
  cases op <;> simp [unary]

@[simp] theorem ordinary_arithmetic (op : BinaryOp) : (i.arithmetic op j).Ordinary := by
  cases op <;> simp [arithmetic, product]

end Interval

/-! ## Values, whose elements are not read -/

namespace Value

variable (v a b : Value) (shape target source : Shape) (buffer : Buffer) (kind : Kind) (mode : Mode)

@[simp] theorem ordinary_ofBuffer : (ofBuffer shape buffer).Ordinary := by
  simp [ofBuffer]

@[simp] theorem ordinary_length : v.length.Ordinary := by
  unfold length
  split <;> simp

@[simp] theorem ordinary_arrayShape : v.arrayShape.Ordinary := by
  unfold arrayShape
  split <;> simp

@[simp] theorem ordinary_storedBuffer : v.storedBuffer.Ordinary := by
  unfold storedBuffer
  split <;> simp

theorem ordinary_setElement (pos : Nat) (e : Element) : (v.setElement pos e).Ordinary := by
  unfold setElement
  split
  · exact (Buffer.ordinary_set _ _ _).bind fun _ _ => ordinary_pure _
  · simp

theorem ordinary_basicKind : v.basicKind.Ordinary := by
  unfold basicKind
  refine (ordinary_arrayShape v).bind fun shape _ => ?_
  split <;> simp

theorem ordinary_promoteArray : (v.promoteArray kind).Ordinary := by
  refine (ordinary_arrayShape v).bind fun shape _ => ?_
  split
  · simp
  · exact (ordinary_storedBuffer v).bind fun stored _ =>
      (stored.ordinary_promote kind).bind fun buffer _ => ordinary_ofBuffer _ buffer

theorem ordinary_meetingKind (op : BinaryOp) (j k : Kind) : (meetingKind op j k).Ordinary := by
  unfold meetingKind
  split <;> simp

theorem ordinary_concatEmpty : v.concatEmpty.Ordinary := by
  refine (ordinary_arrayShape v).bind fun shape _ => ?_
  split
  · simp
  · exact (ordinary_storedBuffer v).bind fun buffer _ => ordinary_ofBuffer _ buffer
  · simp
  · simp [matricesDoNotConcat]

theorem ordinary_concat : (concat a b).Ordinary := by
  refine (ordinary_arrayShape a).bind fun s _ => (ordinary_arrayShape b).bind fun t _ => ?_
  split
  · simp [matricesDoNotConcat]
  · split
    · simp
    · exact (ordinary_storedBuffer a).bind fun x _ => (ordinary_storedBuffer b).bind fun y _ =>
        (x.ordinary_concat y).bind fun joined _ => ordinary_ofBuffer _ joined

theorem ordinary_product : (product a b).Ordinary := by
  refine (ordinary_arrayShape a).bind fun s _ => (ordinary_arrayShape b).bind fun t _ => ?_
  split
  · exact (ordinary_storedBuffer a).bind fun x _ => (ordinary_storedBuffer b).bind fun y _ =>
      (x.ordinary_dot y).bind fun _ _ => ordinary_pure _
  · dsimp only
    split
    · simp
    · exact (ordinary_storedBuffer a).bind fun x _ => (ordinary_storedBuffer b).bind fun y _ =>
        (x.ordinary_matrixProduct y _ _ _).bind fun table _ => ordinary_ofBuffer _ table
  · simp

theorem ordinary_intervals {x y : Interval} {r : Result Value} (h : intervals? op x y = some r) :
    r.Ordinary := by
  unfold intervals? at h
  split at h
  case h_1 | h_2 | h_3 =>
    obtain rfl := Option.some.inj h
    exact ordinary_map.mpr (x.ordinary_arithmetic y _)
  case h_4 | h_5 =>
    obtain rfl := Option.some.inj h
    exact ordinary_ok _
  · cases h

/-! ## Conversion of stored elements -/

theorem ordinary_convertBuffer : (mode.convertBuffer buffer kind).Ordinary := by
  simp [Mode.convertBuffer]

theorem ordinary_convertEmpty : (convertEmpty target mode).Ordinary := by
  have hextent (extent : Extent) : (extentForEmpty mode extent).Ordinary := by
    cases extent <;> simp [extentForEmpty, openExtent]
  unfold convertEmpty
  split
  · simp
  · exact (ordinary_mapM fun extent _ => hextent extent).bind fun extents _ =>
      (Buffer.ordinary_filled _ _ _).bind fun buffer _ => ordinary_ofBuffer _ buffer

theorem ordinary_convertScalar : (convertScalar target buffer).Ordinary := by
  unfold convertScalar
  split
  · simp
  · exact (buffer.ordinary_get 0).bind fun _ _ =>
      (Buffer.ordinary_filled _ _ _).bind fun filled _ => ordinary_ofBuffer target filled

theorem ordinary_resolveExtents :
    (resolveExtents target source mode).Ordinary := by
  refine ordinary_mapM fun pair _ => ?_
  obtain ⟨extent, axis⟩ := pair
  cases extent <;> simp [openExtent]

theorem ordinary_convertExtents :
    (convertExtents target source v buffer mode).Ordinary := by
  refine (ordinary_resolveExtents target source mode).bind fun extents _ => ?_
  dsimp only
  split
  · split
    · exact (buffer.ordinary_resizeVector _).bind fun resized _ => ordinary_ofBuffer _ resized
    · exact (buffer.ordinary_resizeMatrix _ _ _ _).bind fun resized _ => ordinary_ofBuffer _ resized
  · simp

theorem ordinary_convertStored :
    (convertStored target v mode).Ordinary := by
  unfold convertStored
  split
  · refine (ordinary_convertBuffer _ _ _).bind fun buffer _ => ?_
    split
    · exact ordinary_ofBuffer _ buffer
    · exact ordinary_convertScalar target buffer
    · exact ordinary_convertExtents v target _ buffer mode
    · exact ordinary_convertExtents v target _ buffer mode
    · simp [notAllowed]
  · simp [notAllowed]

end Value

end ArrayMachine
