import ArrayMachine.Indexing
import ArrayMachine.Proofs.Indexing.Gather
import ArrayMachine.Tuple
import ArrayMachine.Value.Extents
import ArrayMachine.Value.Operators

/-!
# What operators make

Nearly all operators make their answer anew (`Value.Fresh`): an array under a shape that it was
checked against or that was computed for it, a literal, or an interval. What is left are a few
answers that are an operand as it was, or one with its elements promoted or filled in.

So a property of values is kept by all operators as soon as fresh values have it, promotion and
filling keep it, and a tuple has it with its fields (`Value.Invariant`).

* `fresh_unary`, `fresh_arraysOfKinds`, `fresh_gather`: operators whose answers are fresh whatever
  they are applied to.
* `Invariant.binary`, `Invariant.reverse`: operators that may give back an operand.
-/

namespace ArrayMachine

theorem Shape.size_withElement (shape : Shape) (kind : Kind) :
    (shape.withElement kind).size = shape.size := rfl

/-- A filled buffer fits the extents it was filled for. -/
theorem Shape.fits_filled {shape : Shape} {kind : Kind} {e : Element} {b : Buffer}
    (h : Buffer.filled kind (shape.withElement kind).size e = .ok b) :
    (shape.withElement kind).Fits b := by
  cases kind <;> simp only [Buffer.filled] at h
  case boolean | integer | real | character =>
    obtain ⟨x, -, rfl⟩ := Result.map_eq_ok_iff.1 h
    exact ⟨rfl, by simp [Buffer.length]⟩
  all_goals
    obtain ⟨_, -, h⟩ := Result.bind_eq_ok_iff.mp h
    cases h

namespace Value

/-- Made by a constructor that saw to it that the payload agrees with the type. -/
inductive Fresh : Value → Prop where
  | stored {shape : Shape} {b : Buffer} : shape.Fits b → shape.hasOpenExtent = false →
    Fresh (stored shape b)
  | sentinel {shape : Shape} : shape.element.isSentinel = true → shape.hasOpenExtent = false →
    Fresh (sentinel shape)
  | empty : Fresh emptyArray
  | mixed {shape : Shape} {elements : List Element} : shape.element = .mixed →
    shape.hasOpenExtent = false → shape.size = elements.length →
    Fresh ⟨.array shape, .mixed elements⟩
  | interval (interval : Interval) : Fresh (ofInterval interval)

variable {v w a b : Value} {shape : Shape}

/-! ## Constructors -/

theorem fresh_ofBuffer {buffer : Buffer} (h : ofBuffer shape buffer = .ok v) : v.Fresh := by
  obtain ⟨hfits, hknown, rfl⟩ := ofBuffer_eq_ok_iff.mp h
  exact .stored hfits hknown

theorem fresh_vector (buffer : Buffer) : (vector buffer).Fresh := .stored ⟨rfl, rfl⟩ rfl

theorem fresh_string (text : List UInt8) : (string text).Fresh := .stored ⟨rfl, rfl⟩ rfl

theorem fresh_ofElement (e : Element) : (ofElement e).Fresh := by
  cases e with
  | null => exact .sentinel rfl rfl
  | identity => exact .sentinel rfl rfl
  | _ => exact .stored ⟨rfl, rfl⟩ rfl

/-- Elements under extents that have a place for each of them. -/
theorem fresh_ofElements {extents : List Extent} {elements : List Element}
    (hknown : extents.any Option.isNone = false)
    (hsize : ∀ kind, (Shape.ofExtents kind extents false).size = elements.length)
    (h : ofElements extents elements = .ok v) : v.Fresh := by
  unfold ofElements at h
  split at h
  · obtain rfl := Except.ok.inj h
    exact .empty
  · rename_i first rest
    split at h
    · obtain ⟨buffer, hbuffer, h⟩ := Result.bind_eq_ok_iff.mp h
      obtain rfl := Except.ok.inj h
      refine .stored ⟨Buffer.kind_of_ofElements hbuffer, ?_⟩ hknown
      rw [Buffer.length_of_ofElements hbuffer, hsize]
    · obtain rfl := Except.ok.inj h
      exact .mixed rfl hknown (hsize _)

theorem fresh_literal {elements : List Element} (h : literal elements = .ok v) : v.Fresh :=
  fresh_ofElements rfl (fun _ => rfl) h

theorem length_le_columnsOf {rows : List (List Element)} {row : List Element} (h : row ∈ rows) :
    row.length ≤ columnsOf rows := by
  induction rows with
  | nil => cases h
  | cons first rest ih =>
    show row.length ≤ max first.length (columnsOf rest)
    rcases List.mem_cons.mp h with rfl | h
    · exact Nat.le_max_left _ _
    · exact Nat.le_trans (ih h) (Nat.le_max_right _ _)

/-- A padded row has as many elements as the longest one. -/
theorem length_padded {rows : List (List Element)} {row : List Element} (h : row ∈ rows) :
    (padded (columnsOf rows) row).length = columnsOf rows := by
  have hle := length_le_columnsOf h
  rw [padded, List.length_append, List.length_replicate]
  omega

theorem length_flatMap_padded (rows : List (List Element)) :
    (rows.flatMap (padded (columnsOf rows))).length = rows.length * columnsOf rows := by
  have hmap : rows.map (fun row => (padded (columnsOf rows) row).length) =
      rows.map fun _ => columnsOf rows := List.map_congr_left fun row hrow => length_padded hrow
  rw [List.length_flatMap, hmap, List.map_const', List.sum_replicate_nat]

theorem fresh_matrixLiteral {rows : Rows} (h : matrixLiteral rows = .ok v) : v.Fresh := by
  refine fresh_ofElements rfl (fun kind => ?_) h
  rw [length_flatMap_padded]
  exact inWord_of_lt rows.countable

/-! ## Copies -/

/-- Whatever it is a copy of, a copy is fresh. -/
theorem fresh_gather {σ : Selection} {root : Value} (h : σ.gather root = .ok w) : w.Fresh := by
  unfold Selection.gather at h
  split at h
  · cases h
  · rename_i rs hshape
    obtain ⟨n, -, h⟩ := Result.bind_eq_ok_iff.mp h
    dsimp only at h
    split at h
    · rename_i hsentinel
      obtain ⟨_, -, h⟩ := Result.bind_eq_ok_iff.mp h
      obtain rfl := Except.ok.inj h
      refine .sentinel ?_ (Selection.known_shape σ rs n)
      rw [Selection.element_shape]
      simpa [isSentinel, kind?, hshape] using hsentinel
    · obtain ⟨elements, -, h⟩ := Result.bind_eq_ok_iff.mp h
      obtain ⟨buffer, -, h⟩ := Result.bind_eq_ok_iff.mp h
      exact fresh_ofBuffer h

/-- What indexing gives of a value that is not on the stack is fresh, unless the value is a view. -/
theorem fresh_index {s : Scope} {base : Value} {indices : List IndexOperand}
    (hbase : base.view? = none) (h : s.index (.value base) indices = .ok w) : w.Fresh := by
  obtain ⟨found, hfound, h⟩ := Result.bind_eq_ok_iff.mp h
  obtain rfl := Except.ok.inj hfound
  obtain ⟨lists, -, h⟩ := Result.bind_eq_ok_iff.mp h
  split at h
  · split at h
    · obtain rfl := Except.ok.inj h
      exact .empty
    · cases h
  · unfold Scope.indexBy at h
    simp only [Scope.selfIndexed?, hbase] at h
    obtain ⟨grounded, -, h⟩ := Result.bind_eq_ok_iff.mp h
    obtain ⟨σ, -, h⟩ := Result.bind_eq_ok_iff.mp h
    exact fresh_gather h

/-! ## Operators whose answers are fresh -/

theorem fresh_unary {op : UnaryOp} (h : unary op v = .ok w) : w.Fresh := by
  obtain ⟨x, -, h⟩ := Result.bind_eq_ok_iff.mp h
  split at h
  · obtain ⟨interval, -, h⟩ := Result.bind_eq_ok_iff.mp h
    obtain rfl := Except.ok.inj h
    exact .interval interval
  · split at h
    · cases h
    · obtain ⟨shape, -, h⟩ := Result.bind_eq_ok_iff.mp h
      split at h
      · cases h
      · obtain ⟨stored, -, h⟩ := Result.bind_eq_ok_iff.mp h
        obtain ⟨buffer, -, h⟩ := Result.bind_eq_ok_iff.mp h
        exact fresh_ofBuffer h

theorem fresh_range (h : range a b = .ok w) : w.Fresh := by
  obtain ⟨head, -, h⟩ := Result.bind_eq_ok_iff.mp h
  obtain ⟨tail, -, h⟩ := Result.bind_eq_ok_iff.mp h
  obtain ⟨interval, -, rfl⟩ := Result.map_eq_ok_iff.mp h
  exact .interval interval

theorem shape?_of_arrayShape (h : v.arrayShape = .ok shape) : v.shape? = some shape := by
  unfold arrayShape at h
  split at h
  · rename_i found hfound
    obtain rfl := Except.ok.inj h
    exact hfound
  · cases h

theorem isSentinel_eq (h : v.shape? = some shape) : v.isSentinel = shape.element.isSentinel := by
  simp [isSentinel, kind?, h]

theorem fresh_stepped (h : stepped a b = .ok w) : w.Fresh := by
  obtain ⟨step, -, h⟩ := Result.bind_eq_ok_iff.mp h
  split at h
  · obtain ⟨members, -, h⟩ := Result.bind_eq_ok_iff.mp h
    obtain rfl := Except.ok.inj h
    exact fresh_vector _
  · obtain ⟨shape, hshape, h⟩ := Result.bind_eq_ok_iff.mp h
    split at h
    · cases h
    · split at h
      · cases h
      · obtain ⟨picked, -, h⟩ := Result.bind_eq_ok_iff.mp h
        split at h
        · rename_i hsentinel
          obtain rfl := Except.ok.inj h
          rw [isSentinel_eq (shape?_of_arrayShape hshape)] at hsentinel
          exact .sentinel hsentinel rfl
        · obtain ⟨buffer, -, h⟩ := Result.bind_eq_ok_iff.mp h
          exact fresh_ofBuffer h

theorem fresh_concat (h : concat a b = .ok w) : w.Fresh := by
  obtain ⟨s, -, h⟩ := Result.bind_eq_ok_iff.mp h
  obtain ⟨t, -, h⟩ := Result.bind_eq_ok_iff.mp h
  split at h
  · cases h
  · split at h
    · cases h
    · obtain ⟨x, -, h⟩ := Result.bind_eq_ok_iff.mp h
      obtain ⟨y, -, h⟩ := Result.bind_eq_ok_iff.mp h
      obtain ⟨joined, -, h⟩ := Result.bind_eq_ok_iff.mp h
      exact fresh_ofBuffer h

theorem fresh_product (h : product a b = .ok w) : w.Fresh := by
  obtain ⟨s, -, h⟩ := Result.bind_eq_ok_iff.mp h
  obtain ⟨t, -, h⟩ := Result.bind_eq_ok_iff.mp h
  split at h
  · obtain ⟨x, -, h⟩ := Result.bind_eq_ok_iff.mp h
    obtain ⟨y, -, h⟩ := Result.bind_eq_ok_iff.mp h
    obtain ⟨e, -, h⟩ := Result.bind_eq_ok_iff.mp h
    obtain rfl := Except.ok.inj h
    exact fresh_ofElement e
  · dsimp only at h
    split at h
    · cases h
    · obtain ⟨x, -, h⟩ := Result.bind_eq_ok_iff.mp h
      obtain ⟨y, -, h⟩ := Result.bind_eq_ok_iff.mp h
      obtain ⟨table, -, h⟩ := Result.bind_eq_ok_iff.mp h
      exact fresh_ofBuffer h
  · cases h

theorem fresh_pointwise {op : BinaryOp} {answer : BinaryOp.ArrayResult}
    (h : pointwise op answer a b = .ok w) : w.Fresh := by
  obtain ⟨⟨a', b'⟩, -, h⟩ := Result.bind_eq_ok_iff.mp h
  obtain ⟨x, -, h⟩ := Result.bind_eq_ok_iff.mp h
  obtain ⟨y, -, h⟩ := Result.bind_eq_ok_iff.mp h
  split at h
  · obtain ⟨same, -, h⟩ := Result.bind_eq_ok_iff.mp h
    obtain rfl := Except.ok.inj h
    exact fresh_ofElement (.boolean _)
  · obtain ⟨results, -, h⟩ := Result.bind_eq_ok_iff.mp h
    obtain ⟨shape, -, h⟩ := Result.bind_eq_ok_iff.mp h
    exact fresh_ofBuffer h

theorem fresh_arraysOfKinds {op : BinaryOp} (h : arraysOfKinds op a b = .ok w) : w.Fresh := by
  obtain ⟨j, -, h⟩ := Result.bind_eq_ok_iff.mp h
  obtain ⟨k, -, h⟩ := Result.bind_eq_ok_iff.mp h
  obtain ⟨kind, -, h⟩ := Result.bind_eq_ok_iff.mp h
  obtain ⟨a', -, h⟩ := Result.bind_eq_ok_iff.mp h
  obtain ⟨b', -, h⟩ := Result.bind_eq_ok_iff.mp h
  split at h
  · cases h
  · split at h
    · exact fresh_concat h
    · exact fresh_product h
    · exact fresh_pointwise h

theorem fresh_intervals {op : BinaryOp} {x y : Interval} {r : Result Value}
    (h : intervals? op x y = some r) (hw : r = .ok w) : w.Fresh := by
  subst hw
  unfold intervals? at h
  split at h
  case h_1 | h_2 | h_3 =>
    obtain ⟨interval, -, rfl⟩ := Result.map_eq_ok_iff.mp (Option.some.inj h)
    exact .interval interval
  case h_4 | h_5 =>
    obtain rfl := Except.ok.inj (Option.some.inj h)
    exact fresh_ofElement (.boolean _)
  · cases h

theorem fresh_lengthScalar (h : v.lengthScalar = .ok w) : w.Fresh := by
  obtain ⟨x, -, h⟩ := Result.bind_eq_ok_iff.mp h
  split at h
  · obtain rfl := Except.ok.inj h
    exact fresh_ofElement (.integer _)
  · obtain ⟨shape, -, h⟩ := Result.bind_eq_ok_iff.mp h
    split at h
    · obtain rfl := Except.ok.inj h
      exact fresh_ofElement (.integer _)
    · obtain rfl := Except.ok.inj h
      exact fresh_ofElement (.integer _)
    · cases h

theorem fresh_matrixExtent {axis : Nat} {name : String} (h : v.matrixExtent axis name = .ok w) :
    w.Fresh := by
  obtain ⟨x, -, h⟩ := Result.bind_eq_ok_iff.mp h
  obtain ⟨shape, -, h⟩ := Result.bind_eq_ok_iff.mp h
  split at h
  · obtain rfl := Except.ok.inj h
    exact fresh_ofElement (.integer _)
  · obtain rfl := Except.ok.inj h
    exact fresh_ofElement (.integer _)
  · cases h

/-! ## Promoting and filling -/

/-- The elements of a literal meet at one kind, which fills it or leaves it null or identity. Other
values stay. -/
theorem promoteMixed_eq_ok (h : v.promoteMixed = .ok w) :
    (v.isMixed = false ∧ w = v) ∨ ∃ shape elements kind, v = ⟨.array shape, .mixed elements⟩ ∧
      Buffer.commonKind? elements = some kind ∧
      ((kind.isSentinel = true ∧ w = sentinel (shape.withElement kind)) ∨
        ∃ b, Buffer.ofElements kind elements = .ok b ∧
          w = stored (shape.withElement kind) b) := by
  obtain ⟨type, payload⟩ := v
  cases payload with
  | mixed elements =>
    cases type with
    | array shape =>
      right
      simp only [promoteMixed, shape?, ValueType.shape?] at h
      split at h
      · cases h
      · rename_i kind hkind
        refine ⟨shape, elements, kind, rfl, hkind, ?_⟩
        split at h
        · rename_i hsentinel
          exact .inl ⟨hsentinel, (Except.ok.inj h).symm⟩
        · obtain ⟨b, hb, h⟩ := Result.bind_eq_ok_iff.mp h
          exact .inr ⟨b, hb, (Except.ok.inj h).symm⟩
    | _ => cases h
  | _ => exact .inl ⟨rfl, (Except.ok.inj h).symm⟩

/-- A null or identity array is filled with what it stands for. -/
theorem fillSentinel_eq_ok {kind : Kind} (h : v.fillSentinel kind = .ok w) :
    ∃ shape e b, v = sentinel shape ∧
      ((shape.element = .null ∧ e = .null) ∨ (shape.element = .identity ∧ e = .identity)) ∧
      Buffer.filled kind shape.size e = .ok b ∧ w = stored (shape.withElement kind) b := by
  obtain ⟨type, payload⟩ := v
  cases payload with
  | bare =>
    cases type with
    | array shape =>
      simp only [fillSentinel, shape?, ValueType.shape?] at h
      split at h
      · rename_i hnull
        obtain ⟨b, hb, h⟩ := Result.bind_eq_ok_iff.mp h
        exact ⟨shape, .null, b, rfl, .inl ⟨hnull, rfl⟩, hb, (Except.ok.inj h).symm⟩
      · rename_i hidentity
        obtain ⟨b, hb, h⟩ := Result.bind_eq_ok_iff.mp h
        exact ⟨shape, .identity, b, rfl, .inr ⟨hidentity, rfl⟩, hb, (Except.ok.inj h).symm⟩
      · cases h
    | _ => cases h
  | _ => cases h

/-! ## Properties that the operators keep -/

/-- What a property of values needs to be kept by all operators. -/
structure Invariant (P : Value → Prop) : Prop where
  fresh : ∀ {v : Value}, v.Fresh → P v
  promoteMixed : ∀ {v w : Value}, P v → v.promoteMixed = .ok w → P w
  fillSentinel : ∀ {v w : Value} {kind : Kind}, P v → v.fillSentinel kind = .ok w → P w
  fields : ∀ {v : Value} {fields : List Value}, P v → v.fields? = some fields →
    ∀ field ∈ fields, P field
  tuple : ∀ {fields : List (Option String × Value)}, (∀ field ∈ fields, P field.2) →
    P ⟨.tuple (fields.map fun field => (field.1, field.2.type)), .tuple (fields.map Prod.snd)⟩

namespace Invariant

variable {P : Value → Prop} {op : BinaryOp}

theorem compose (hP : Invariant P) {fields : List (Option String × Value)}
    (hfields : ∀ field ∈ fields, P field.2) (h : compose fields = .ok v) : P v := by
  unfold Value.compose at h
  split at h
  · cases h
  · split at h
    · cases h
    · obtain rfl := Except.ok.inj h
      exact hP.tuple hfields

theorem operand (hP : Invariant P) {role : String} (hv : P v) (h : v.operand role = .ok w) :
    P w := by
  unfold Value.operand at h
  split at h
  · cases h
  · split at h
    · cases h
    · cases h
    · cases h
    · exact hP.promoteMixed hv h

theorem widened (hP : Invariant P) (hv : P v) : P v.widened := by
  unfold Value.widened
  split
  · exact hP.fresh (fresh_vector _)
  · exact hv

theorem promoteArray (hP : Invariant P) {kind : Kind} (hv : P v)
    (h : v.promoteArray kind = .ok w) : P w := by
  obtain ⟨shape, -, h⟩ := Result.bind_eq_ok_iff.mp h
  split at h
  · obtain rfl := Except.ok.inj h
    exact hv
  · obtain ⟨stored, -, h⟩ := Result.bind_eq_ok_iff.mp h
    obtain ⟨buffer, -, h⟩ := Result.bind_eq_ok_iff.mp h
    exact hP.fresh (fresh_ofBuffer h)

theorem concatEmpty (hP : Invariant P) (hv : P v) (h : v.concatEmpty = .ok w) : P w := by
  obtain ⟨shape, -, h⟩ := Result.bind_eq_ok_iff.mp h
  split at h
  · obtain rfl := Except.ok.inj h
    exact hP.fresh .empty
  · obtain ⟨buffer, -, h⟩ := Result.bind_eq_ok_iff.mp h
    exact hP.fresh (fresh_ofBuffer h)
  · obtain rfl := Except.ok.inj h
    exact hv
  · cases h

theorem withoutSentinels (hP : Invariant P) {x y : Value} (ha : P a) (hb : P b)
    (h : withoutSentinels a b = .ok (x, y)) : P x ∧ P y := by
  unfold Value.withoutSentinels at h
  split at h
  · cases h
  · obtain ⟨kind, -, h⟩ := Result.bind_eq_ok_iff.mp h
    obtain ⟨filled, hfilled, h⟩ := Result.bind_eq_ok_iff.mp h
    obtain ⟨rfl, rfl⟩ := Prod.mk.inj (Except.ok.inj h)
    exact ⟨hP.fillSentinel ha hfilled, hb⟩
  · obtain ⟨kind, -, h⟩ := Result.bind_eq_ok_iff.mp h
    obtain ⟨filled, hfilled, h⟩ := Result.bind_eq_ok_iff.mp h
    obtain ⟨rfl, rfl⟩ := Prod.mk.inj (Except.ok.inj h)
    exact ⟨ha, hP.fillSentinel hb hfilled⟩
  · obtain ⟨rfl, rfl⟩ := Prod.mk.inj (Except.ok.inj h)
    exact ⟨ha, hb⟩

theorem arrays (hP : Invariant P) (ha : P a) (hb : P b) (h : arrays op a b = .ok w) : P w := by
  obtain ⟨_, -, h⟩ := Result.bind_eq_ok_iff.mp h
  obtain ⟨_, -, h⟩ := Result.bind_eq_ok_iff.mp h
  obtain ⟨⟨x, y⟩, hxy, h⟩ := Result.bind_eq_ok_iff.mp h
  obtain ⟨hx, hy⟩ := hP.withoutSentinels ha hb hxy
  dsimp only at h
  split at h
  · split at h
    · refine hP.concatEmpty ?_ h
      split
      · exact hy
      · exact hx
    · cases h
  · exact hP.fresh (fresh_arraysOfKinds h)

theorem withInterval (hP : Invariant P) (ha : P a) (hb : P b)
    (h : withInterval op a b = .ok w) : P w := by
  obtain ⟨x?, -, hx⟩ := Result.bind_eq_ok_iff.mp h
  obtain ⟨y?, -, hy⟩ := Result.bind_eq_ok_iff.mp hx
  have harrays : ∀ h : Value.arrays op a.widened b.widened = .ok w, P w :=
    fun h => hP.arrays (hP.widened ha) (hP.widened hb) h
  cases x? with
  | none => exact harrays hy
  | some x =>
    cases y? with
    | none => exact harrays hy
    | some y =>
      change (intervals? op x y).getD (Value.arrays op a.widened b.widened) = .ok w at hy
      cases hdirect : intervals? op x y with
      | none =>
        rw [hdirect] at hy
        exact harrays hy
      | some r =>
        rw [hdirect] at hy
        exact hP.fresh (fresh_intervals hdirect hy)

theorem binaryPlain (hP : Invariant P) (ha : P a) (hb : P b)
    (h : binaryPlain op a b = .ok w) : P w := by
  unfold Value.binaryPlain at h
  split at h
  · exact hP.fresh (fresh_range h)
  · exact hP.fresh (fresh_stepped h)
  · split at h
    · exact hP.withInterval ha hb h
    · exact hP.arrays ha hb h

/-- **A binary operator keeps the property** of its operands. -/
theorem binary (hP : Invariant P) (ha : P a) (hb : P b) (h : binary op a b = .ok w) : P w := by
  unfold Value.binary at h
  obtain ⟨x, hx, h⟩ := Result.bind_eq_ok_iff.mp h
  obtain ⟨y, hy, h⟩ := Result.bind_eq_ok_iff.mp h
  split at h
  · split at h
    · cases h
    · split at h
      · cases h
      · obtain ⟨same, -, h⟩ := Result.bind_eq_ok_iff.mp h
        obtain rfl := Except.ok.inj h
        exact hP.fresh (fresh_ofElement (.boolean _))
  · split at h
    · cases h
    · exact hP.binaryPlain (hP.operand ha hx) (hP.operand hb hy) h

theorem reverse (hP : Invariant P) (hv : P v) (h : v.reverse = .ok w) : P w := by
  obtain ⟨x, hx, h⟩ := Result.bind_eq_ok_iff.mp h
  split at h
  · obtain rfl := Except.ok.inj h
    exact hP.fresh (fresh_vector _)
  · obtain ⟨shape, -, h⟩ := Result.bind_eq_ok_iff.mp h
    split at h
    · obtain rfl := Except.ok.inj h
      exact hP.fresh .empty
    · split at h
      · obtain rfl := Except.ok.inj h
        exact hP.operand hv hx
      · obtain ⟨elements, -, h⟩ := Result.bind_eq_ok_iff.mp h
        obtain ⟨buffer, -, h⟩ := Result.bind_eq_ok_iff.mp h
        exact hP.fresh (fresh_ofBuffer h)
    · cases h

end Invariant

end Value

end ArrayMachine
