import ArrayMachine.Proofs.Value.Fresh

/-!
# Coherent values

A value is coherent (`Value.Coherent`) if it is not a view and its payload agrees with its type as
far as its elements can be read: a buffer fits the shape, a mixed literal has as many elements as
its shape, and an interval is of the type of intervals of integers. Fresh values are coherent, and
all operators give coherent values of coherent operands (`invariant_coherent`).
-/

namespace ArrayMachine.Value

/-- The payload agrees with the type, and there are no views. -/
inductive Coherent : Value → Prop where
  | bare (type : ValueType) : Coherent ⟨type, .bare⟩
  | stored {shape : Shape} {b : Buffer} : shape.Fits b → Coherent (stored shape b)
  | mixed {shape : Shape} {elements : List Element} : shape.size = elements.length →
    Coherent ⟨.array shape, .mixed elements⟩
  | interval (interval : Interval) : Coherent (ofInterval interval)
  | tuple {types : List (Option String × ValueType)} {fields : List Value} :
    (∀ field ∈ fields, Coherent field) → Coherent ⟨.tuple types, .tuple fields⟩

variable {v w : Value} {shape : Shape}

theorem Coherent.view?_eq_none (h : v.Coherent) : v.view? = none := by
  cases h <;> rfl

theorem Coherent.fields {fields : List Value} (h : v.Coherent) (hfields : v.fields? = some fields) :
    ∀ field ∈ fields, field.Coherent := by
  cases h with
  | tuple hcoherent =>
    obtain rfl := Option.some.inj hfields
    exact hcoherent
  | _ => cases hfields

/-- Of the coherent values, only intervals have a type of intervals. -/
theorem Coherent.type_of_interval (h : v.Coherent) (hinterval : v.interval?.isSome = true) :
    v.type = .interval .integer := by
  cases h with
  | interval interval => rfl
  | _ => cases hinterval

theorem StoredAs.coherent (h : v.StoredAs shape) : v.Coherent := by
  obtain ⟨b, hfits, rfl⟩ := h
  exact .stored hfits

theorem Fresh.coherent (h : v.Fresh) : v.Coherent := by
  cases h with
  | stored hfits _ => exact .stored hfits
  | sentinel _ _ => exact .bare _
  | empty => exact .bare _
  | mixed _ _ hsize => exact .mixed hsize
  | interval interval => exact .interval interval

theorem Coherent.promoteMixed (hv : v.Coherent) (h : v.promoteMixed = .ok w) : w.Coherent := by
  rcases promoteMixed_eq_ok h with
    ⟨-, rfl⟩ | ⟨shape, elements, kind, rfl, -, ⟨-, rfl⟩ | ⟨b, hb, rfl⟩⟩
  · exact hv
  · exact .bare _
  · cases hv with
    | mixed hsize =>
      refine .stored ⟨Buffer.kind_of_ofElements hb, ?_⟩
      rw [Buffer.length_of_ofElements hb, Shape.size_withElement, hsize]

/-- A null or identity array that is filled is stored under its extents. -/
theorem coherent_fillSentinel {kind : Kind} (h : v.fillSentinel kind = .ok w) : w.Coherent := by
  obtain ⟨shape, e, b, -, -, hb, rfl⟩ := fillSentinel_eq_ok h
  exact .stored (Shape.fits_filled hb)

/-- **All operators keep values coherent.** -/
theorem invariant_coherent : Invariant Coherent where
  fresh := Fresh.coherent
  promoteMixed := Coherent.promoteMixed
  fillSentinel _ h := coherent_fillSentinel h
  fields := Coherent.fields
  tuple hfields := by
    constructor
    intro field hfield
    obtain ⟨pair, hpair, rfl⟩ := List.mem_map.mp hfield
    exact hfields pair hpair

end ArrayMachine.Value
