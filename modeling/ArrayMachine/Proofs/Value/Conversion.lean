import ArrayMachine.Conversion
import ArrayMachine.Proofs.Value.Coherent

/-!
# Conversion is an operator, and assignment keeps the type

Whatever the target and the mode, what a value is converted to is fresh, or the value as it was, or
a tuple of such: conversion keeps what the operators keep. Under `Mode.assignment` the value that
comes out has the target type itself, extents, text flag and field names included, if the type is a
regular one (`ValueType.Regular`): only character vectors are texts, and only the empty array has no
dimensions.

* `Invariant.convert`: every mode.
* `storedAs_convert_assignment`: into an array type, always an array stored under that very shape.
* `Coherent.type_convert_assignment`: into any regular type.
-/

namespace ArrayMachine

/-! ## Regular types -/

/-- Only character vectors are texts, and only the empty array has no dimensions. -/
structure Shape.Regular (shape : Shape) : Prop where
  text : shape.isString = true → shape.element = .character ∧ shape.rank = .vector
  empty : shape.dims = .unspecified → shape = Shape.empty

/-- All shapes in the type are regular. -/
inductive ValueType.Regular : ValueType → Prop where
  | array {shape : Shape} : shape.Regular → Regular (.array shape)
  | interval (kind : IntervalKind) : Regular (.interval kind)
  | tuple {fields : List (Option String × ValueType)} :
    (∀ field ∈ fields, Regular field.2) → Regular (.tuple fields)
  | input : Regular .input
  | output : Regular .output
  | unknown : Regular .unknown

namespace Shape

variable {shape : Shape}

theorem isEmptyArray_iff : shape.isEmptyArray = true ↔ shape.dims = .unspecified := by
  unfold isEmptyArray rank
  cases shape.dims with
  | unspecified => simp
  | fixed extents =>
    rcases extents with _ | ⟨e, _ | ⟨f, rest⟩⟩ <;> simp

/-- A shape with dimensions is made of its extents. -/
theorem ofExtents_extents (h : shape.isEmptyArray = false) :
    ofExtents shape.element shape.extents shape.isString = shape := by
  obtain ⟨element, dims, isString⟩ := shape
  cases dims with
  | unspecified => cases h
  | fixed extents => rfl

theorem eq_scalar (h : shape.rank = .scalar) (htext : shape.isString = false) :
    shape = scalar shape.element := by
  obtain ⟨element, dims, isString⟩ := shape
  cases dims with
  | unspecified => cases h
  | fixed extents =>
    rcases extents with _ | ⟨e, _ | ⟨f, rest⟩⟩
    · obtain rfl : isString = false := htext
      rfl
    · cases h
    · cases h

/-- A vector type is made of its size. -/
theorem eq_vector (h : shape.rank = .vector) (hknown : shape.hasOpenExtent = false) :
    shape = ofExtents shape.element [some shape.size] shape.isString := by
  obtain ⟨element, dims, isString⟩ := shape
  cases dims with
  | unspecified => cases h
  | fixed extents =>
    rcases extents with _ | ⟨e, _ | ⟨f, rest⟩⟩
    · cases h
    · cases e with
      | none => cases hknown
      | some n => rfl
    · cases h

/-- A regular scalar type is no text. -/
theorem Regular.eq_scalar (h : shape.Regular) (hrank : shape.rank = .scalar) :
    shape = scalar shape.element := by
  refine Shape.eq_scalar hrank ?_
  by_cases htext : shape.isString = true
  · have hvector := (h.text htext).2
    rw [hrank] at hvector
    cases hvector
  · exact Bool.eq_false_iff.mpr htext

end Shape

namespace Value

variable {P : Value → Prop} {v w : Value} {target source : Shape} {mode : Mode} {buffer : Buffer}

/-! ## Into an array type, in any mode -/

theorem Invariant.convertKind (hP : Invariant P) (hv : P v)
    (h : convertKind target v mode = .ok w) : P w := by
  unfold Value.convertKind at h
  split at h
  · cases h
  · split at h
    · obtain rfl := Except.ok.inj h
      exact hv
    · dsimp only at h
      -- filled or not, what is left is converted by its buffer
      split at h
      all_goals
        obtain ⟨x, -, h⟩ := Result.bind_eq_ok_iff.mp h
        split at h
        · cases h
        · obtain ⟨buffer, -, h⟩ := Result.bind_eq_ok_iff.mp h
          exact hP.fresh (fresh_ofBuffer h)

theorem fresh_convertEmpty (h : convertEmpty target mode = .ok w) : w.Fresh := by
  unfold convertEmpty at h
  split at h
  · cases h
  · obtain ⟨extents, -, h⟩ := Result.bind_eq_ok_iff.mp h
    obtain ⟨buffer, -, h⟩ := Result.bind_eq_ok_iff.mp h
    exact fresh_ofBuffer h

theorem convertScalar_eq_ok (h : convertScalar target buffer = .ok w) :
    ∃ filled, ofBuffer target filled = .ok w := by
  unfold convertScalar at h
  split at h
  · cases h
  · obtain ⟨e, -, h⟩ := Result.bind_eq_ok_iff.mp h
    obtain ⟨filled, -, h⟩ := Result.bind_eq_ok_iff.mp h
    exact ⟨filled, h⟩

theorem storedAs_convertScalar (h : convertScalar target buffer = .ok w) : w.StoredAs target := by
  obtain ⟨filled, h⟩ := convertScalar_eq_ok h
  exact storedAs_of_ofBuffer h

/-- Conversion by extents resizes the buffer to the extents that were found, and ends in an array of
the target's kind with these extents. -/
theorem convertExtents_eq_ok (h : convertExtents target source v buffer mode = .ok w) :
    ∃ extents resized, resolveExtents target source mode = .ok extents ∧
      source.resizeNeeded (Shape.ofExtents target.element extents target.isString) ≤
        mode.rules.resize ∧
      (if source.rank = .vector then
          buffer.resizeVector
            ((Shape.ofExtents target.element extents target.isString).extent 0)
        else
          buffer.resizeMatrix (source.extent 0) (source.extent 1)
            ((Shape.ofExtents target.element extents target.isString).extent 0)
            ((Shape.ofExtents target.element extents target.isString).extent 1)) = .ok resized ∧
      ofBuffer (Shape.ofExtents target.element extents target.isString) resized = .ok w := by
  obtain ⟨extents, hextents, h⟩ := Result.bind_eq_ok_iff.mp h
  dsimp only at h
  split at h
  · rename_i hneeded
    refine ⟨extents, ?_⟩
    split at h
    all_goals
      rename_i hrank
      obtain ⟨resized, hresized, h⟩ := Result.bind_eq_ok_iff.mp h
      refine ⟨resized, hextents, hneeded, ?_, h⟩
    · rwa [if_pos hrank]
    · rwa [if_neg hrank]
  · cases h

/-- The ways a stored array is converted: its buffer at the target's kind, as a scalar, filled from
a scalar, or by extents. -/
theorem convertStored_cases (h : convertStored target v mode = .ok w) :
    ∃ source stored buffer, v.shape? = some source ∧ v.buffer? = some stored ∧
      mode.convertBuffer stored target.element = .ok buffer ∧
      ((target.rank = .scalar ∧ ofBuffer (Shape.scalar target.element) buffer = .ok w) ∨
        (source.rank = .scalar ∧ convertScalar target buffer = .ok w) ∨
        (source.rank = target.rank ∧ (target.rank = .vector ∨ target.rank = .matrix) ∧
          convertExtents target source v buffer mode = .ok w)) := by
  unfold convertStored at h
  split at h
  · rename_i source stored hsource hstored
    obtain ⟨buffer, hbuffer, h⟩ := Result.bind_eq_ok_iff.mp h
    refine ⟨source, stored, buffer, hsource, hstored, hbuffer, ?_⟩
    split at h
    case h_1 _ htarget => exact .inl ⟨htarget, h⟩
    case h_2 hrank _ => exact .inr (.inl ⟨hrank, h⟩)
    case h_3 hrank htarget => exact .inr (.inr ⟨hrank.trans htarget.symm, .inl htarget, h⟩)
    case h_4 hrank htarget => exact .inr (.inr ⟨hrank.trans htarget.symm, .inr htarget, h⟩)
    case h_5 => cases h
  · cases h

theorem fresh_convertStored (h : convertStored target v mode = .ok w) : w.Fresh := by
  obtain ⟨source, stored, buffer, -, -, -, ⟨-, h⟩ | ⟨-, h⟩ | ⟨-, -, h⟩⟩ := convertStored_cases h
  · exact fresh_ofBuffer h
  · obtain ⟨filled, h⟩ := convertScalar_eq_ok h
    exact fresh_ofBuffer h
  · obtain ⟨extents, resized, -, -, -, h⟩ := convertExtents_eq_ok h
    exact fresh_ofBuffer h

/-- The ways an array is converted: only its kind, from no elements, or from stored ones, which are
its own or those that fill it. -/
theorem convertArray_cases (h : convertArray target v mode = .ok w) :
    ∃ source, v.shape? = some source ∧
      ((target.isEmptyArray = true ∧ convertKind target v mode = .ok w) ∨
        (target.isEmptyArray = false ∧ source.isEmptyArray = true ∧
          convertEmpty target mode = .ok w) ∨
        ∃ x, target.isEmptyArray = false ∧ (x = v ∨ v.fillSentinel target.element = .ok x) ∧
          convertStored target x mode = .ok w) := by
  unfold convertArray at h
  split at h
  · cases h
  · rename_i source hsource
    refine ⟨source, hsource, ?_⟩
    split at h
    · rename_i hempty
      exact .inl ⟨hempty, h⟩
    · rename_i hempty
      have hempty := Bool.eq_false_iff.mpr hempty
      split at h
      · rename_i hnone
        exact .inr (.inl ⟨hempty, hnone, h⟩)
      · split at h
        · split at h
          · cases h
          · obtain ⟨x, hx, h⟩ := Result.bind_eq_ok_iff.mp h
            exact .inr (.inr ⟨x, hempty, .inr hx, h⟩)
        · exact .inr (.inr ⟨v, hempty, .inl rfl, h⟩)

theorem Invariant.convertArray (hP : Invariant P) (hv : P v)
    (h : convertArray target v mode = .ok w) : P w := by
  obtain ⟨source, -, ⟨-, h⟩ | ⟨-, -, h⟩ | ⟨x, -, -, h⟩⟩ := convertArray_cases h
  · exact hP.convertKind hv h
  · exact hP.fresh (fresh_convertEmpty h)
  · exact hP.fresh (fresh_convertStored h)

/-- A value enters an array type as itself, and an interval as the vector of its members. -/
theorem convertToArray_eq_ok (h : convertToArray target v mode = .ok w) :
    target.element.isBasic = true ∧ convertArray target v.widened mode = .ok w := by
  unfold convertToArray at h
  split at h
  · cases h
  · rename_i hbasic
    refine ⟨by simpa using hbasic, ?_⟩
    cases hinterval : v.interval? with
    | some interval =>
      rw [show v.widened = members interval by simp [widened, hinterval]]
      simp only [hinterval] at h
      split at h
      · exact h
      · cases h
    | none =>
      rw [show v.widened = v by simp [widened, hinterval]]
      simpa only [hinterval] using h

theorem Invariant.convertToArray (hP : Invariant P) (hv : P v)
    (h : convertToArray target v mode = .ok w) : P w :=
  hP.convertArray (hP.widened hv) (convertToArray_eq_ok h).2

/-! ## Into an array type, on assignment -/

/-- Under assignment the empty array takes on no extents but the target's own. -/
theorem extentForEmpty_assignment {extent found : Extent}
    (h : extentForEmpty .assignment extent = .ok found) : found = extent := by
  unfold extentForEmpty at h
  split at h
  · cases h
  · split at h
    · cases h
    · exact (Except.ok.inj h).symm

theorem resolveExtents_assignment {extents : List Extent}
    (h : resolveExtents target source .assignment = .ok extents) : extents = target.extents := by
  have heq := Result.eq_map_of_mapM (g := Prod.fst) (fun x y hxy => by
    obtain ⟨extent, axis⟩ := x
    cases extent with
    | none => cases hxy
    | some size => exact (Except.ok.inj hxy).symm) h
  rw [heq]
  exact List.zipIdx_map_fst 0 target.extents

/-- A buffer under the target's own extents is an array stored under the target. -/
theorem storedAs_of_extents (hempty : target.isEmptyArray = false)
    (h : ofBuffer (Shape.ofExtents target.element target.extents target.isString) buffer = .ok w) :
    w.StoredAs target := by
  rw [Shape.ofExtents_extents hempty] at h
  exact storedAs_of_ofBuffer h

theorem convertEmpty_assignment (hempty : target.isEmptyArray = false)
    (h : convertEmpty target .assignment = .ok w) : w.StoredAs target := by
  unfold convertEmpty at h
  split at h
  · cases h
  · obtain ⟨extents, hextents, h⟩ := Result.bind_eq_ok_iff.mp h
    obtain ⟨buffer, -, h⟩ := Result.bind_eq_ok_iff.mp h
    have hsame := Result.eq_map_of_mapM (g := id)
      (fun _ _ hxy => extentForEmpty_assignment hxy) hextents
    obtain rfl := hsame.trans (List.map_id _)
    exact storedAs_of_extents hempty h

theorem convertStored_assignment (hreg : target.Regular) (hempty : target.isEmptyArray = false)
    (h : convertStored target v .assignment = .ok w) : w.StoredAs target := by
  obtain ⟨source, stored, buffer, -, -, -, ⟨hrank, h⟩ | ⟨-, h⟩ | ⟨-, -, h⟩⟩ := convertStored_cases h
  · rw [← hreg.eq_scalar hrank] at h
    exact storedAs_of_ofBuffer h
  · exact storedAs_convertScalar h
  · obtain ⟨extents, resized, hextents, -, -, h⟩ := convertExtents_eq_ok h
    obtain rfl := resolveExtents_assignment hextents
    exact storedAs_of_extents hempty h

theorem convertArray_assignment (hreg : target.Regular) (hempty : target.isEmptyArray = false)
    (h : convertArray target v .assignment = .ok w) : w.StoredAs target := by
  obtain ⟨source, -, ⟨hkind, -⟩ | ⟨-, -, h⟩ | ⟨x, -, -, h⟩⟩ := convertArray_cases h
  · rw [hempty] at hkind
    cases hkind
  · exact convertEmpty_assignment hempty h
  · exact convertStored_assignment hreg hempty h

/-- **Assignment to an array type keeps the shape**: its extents, and its text flag with them. -/
theorem convertToArray_assignment (hreg : target.Regular)
    (h : convertToArray target v .assignment = .ok w) : w.StoredAs target := by
  obtain ⟨hbasic, h⟩ := convertToArray_eq_ok h
  have hempty : target.isEmptyArray = false := by
    by_cases hempty : target.isEmptyArray = true
    · -- the empty array is of no basic kind
      rw [hreg.empty (Shape.isEmptyArray_iff.mp hempty)] at hbasic
      cases hbasic
    · exact Bool.eq_false_iff.mpr hempty
  exact convertArray_assignment hreg hempty h

/-! ## Into any type -/

/-- Fields are converted one by one, each to the type at its position, under that type's name. -/
theorem convertFields_cons {name : Option String} {type : ValueType}
    {types : List (Option String × ValueType)} {x : Value} {xs : List Value}
    {converted : List (Option String × Value)}
    (h : convertFields ((name, type) :: types) (x :: xs) mode = .ok converted) :
    ∃ field rest, convert type x mode = .ok field ∧ convertFields types xs mode = .ok rest ∧
      converted = (name, field) :: rest := by
  unfold convertFields at h
  obtain ⟨field, hfield, h⟩ := Result.bind_eq_ok_iff.mp h
  obtain ⟨rest, hrest, h⟩ := Result.bind_eq_ok_iff.mp h
  exact ⟨field, rest, hfield, hrest, (Except.ok.inj h).symm⟩

/-- The parts of a conversion to a tuple type. -/
theorem convert_tuple_eq_ok {types : List (Option String × ValueType)}
    (h : convert (.tuple types) v mode = .ok w) :
    ∃ x fields converted, v.promoteMixed = .ok x ∧ x.fields? = some fields ∧
      fields.length = types.length ∧ convertFields types fields mode = .ok converted ∧
      w = ⟨.tuple (converted.map fun pair => (pair.1, pair.2.type)),
        .tuple (converted.map Prod.snd)⟩ := by
  unfold convert at h
  split at h
  · cases h
  · split at h
    · cases h
    · obtain ⟨x, hx, h⟩ := Result.bind_eq_ok_iff.mp h
      dsimp only at h
      split at h
      · cases h
      · rename_i fields hfields
        split at h
        · cases h
        · rename_i hlength
          obtain ⟨converted, hconverted, h⟩ := Result.bind_eq_ok_iff.mp h
          exact ⟨x, fields, converted, hx, hfields, Classical.not_not.mp hlength, hconverted,
            (Except.ok.inj h).symm⟩

/-- What comes of a conversion to any other type. -/
theorem convert_eq_ok {type : ValueType} (htuple : type.isTuple = false)
    (h : convert type v mode = .ok w) :
    ∃ x, v.promoteMixed = .ok x ∧
      ((∃ shape, type = .array shape ∧ convertToArray shape x mode = .ok w) ∨
        (type = .unknown ∧ mode.rules.unknownType = true ∧ w = x) ∨
        ∃ kind, type = .interval kind ∧ x.interval?.isSome = true ∧
          (kind = .integer ∨ mode.rules.unknownType = true) ∧ w = x) := by
  unfold convert at h
  split at h
  · cases h
  · split at h
    · cases h
    · obtain ⟨x, hx, h⟩ := Result.bind_eq_ok_iff.mp h
      refine ⟨x, hx, ?_⟩
      cases type with
      | array shape => exact .inl ⟨shape, rfl, h⟩
      | unknown =>
        dsimp only at h
        split at h
        · rename_i hrules
          exact .inr (.inl ⟨rfl, hrules, (Except.ok.inj h).symm⟩)
        · cases h
      | interval kind =>
        dsimp only at h
        split at h
        · rename_i hkind
          simp only [Bool.and_eq_true, Bool.or_eq_true, decide_eq_true_eq] at hkind
          exact .inr (.inr ⟨kind, rfl, hkind.1, hkind.2, (Except.ok.inj h).symm⟩)
        · cases h
      | tuple types => cases htuple
      | input => cases h
      | output => cases h

theorem Invariant.convertPlain {type : ValueType} (hP : Invariant P) (htuple : type.isTuple = false)
    (hv : P v) (h : Value.convert type v mode = .ok w) : P w := by
  obtain ⟨x, hx, hcases⟩ := convert_eq_ok htuple h
  have hx := hP.promoteMixed hv hx
  rcases hcases with ⟨shape, -, h⟩ | ⟨-, -, rfl⟩ | ⟨kind, -, -, -, rfl⟩
  · exact hP.convertToArray hx h
  · exact hx
  · exact hx

mutual

/-- **Conversion keeps the property**, whatever the type and the mode. -/
theorem Invariant.convert (hP : Invariant P) (type : ValueType) {v w : Value} (hv : P v)
    (h : Value.convert type v mode = .ok w) : P w := by
  match type with
  | .tuple types =>
    obtain ⟨x, fields, converted, hx, hfields, -, hconverted, rfl⟩ := convert_tuple_eq_ok h
    have hfields := hP.fields (hP.promoteMixed hv hx) hfields
    exact hP.tuple (hP.convertFields types hfields hconverted)
  | .array shape => exact hP.convertPlain rfl hv h
  | .interval kind => exact hP.convertPlain rfl hv h
  | .input => exact hP.convertPlain rfl hv h
  | .output => exact hP.convertPlain rfl hv h
  | .unknown => exact hP.convertPlain rfl hv h

theorem Invariant.convertFields (hP : Invariant P) (types : List (Option String × ValueType))
    {fields : List Value} {converted : List (Option String × Value)}
    (hfields : ∀ field ∈ fields, P field)
    (h : Value.convertFields types fields mode = .ok converted) :
    ∀ pair ∈ converted, P pair.2 := by
  match types, fields with
  | (name, type) :: types, x :: xs =>
    obtain ⟨field, rest, hfield, hrest, rfl⟩ := convertFields_cons h
    obtain ⟨hx, hxs⟩ := List.forall_mem_cons.mp hfields
    exact List.forall_mem_cons.mpr
      ⟨hP.convert type hx hfield, hP.convertFields types hxs hrest⟩
  | [], _ =>
    obtain rfl := Except.ok.inj h
    simp
  | _ :: _, [] =>
    obtain rfl := Except.ok.inj h
    simp

end

theorem Coherent.convert (type : ValueType) (hv : v.Coherent)
    (h : Value.convert type v mode = .ok w) : w.Coherent :=
  invariant_coherent.convert type hv h

/-! ## Into any type, on assignment -/

/-- Into an array type, assignment stores under that very shape. -/
theorem storedAs_convert_assignment (hreg : target.Regular)
    (h : convert (.array target) v .assignment = .ok w) : w.StoredAs target := by
  obtain ⟨x, -, ⟨shape, hshape, h⟩ | ⟨hunknown, -⟩ | ⟨kind, hkind, -⟩⟩ := convert_eq_ok rfl h
  · obtain rfl := ValueType.array.inj hshape
    exact convertToArray_assignment hreg h
  · cases hunknown
  · cases hkind

/-- Fields that are each converted to their type make up the tuple type. -/
theorem types_of_convertFields {types : List (Option String × ValueType)}
    (htypes : ∀ pair ∈ types, ∀ {v w : Value}, v.Coherent →
      convert pair.2 v mode = .ok w → w.type = pair.2)
    {fields : List Value} (hfields : ∀ field ∈ fields, field.Coherent)
    (hlength : fields.length = types.length) {converted : List (Option String × Value)}
    (h : convertFields types fields mode = .ok converted) :
    (converted.map fun pair => (pair.1, pair.2.type)) = types := by
  induction types generalizing fields converted with
  | nil =>
    obtain rfl := Except.ok.inj h
    rfl
  | cons pair types ih =>
    obtain ⟨name, type⟩ := pair
    cases fields with
    | nil => cases hlength
    | cons x xs =>
      obtain ⟨field, rest, hfield, hrest, rfl⟩ := convertFields_cons h
      obtain ⟨hx, hxs⟩ := List.forall_mem_cons.mp hfields
      obtain ⟨hpair, hpairs⟩ := List.forall_mem_cons.mp htypes
      have hfirst : field.type = type := hpair hx hfield
      rw [List.map_cons, ih hpairs hxs (Nat.succ.inj hlength) hrest, hfirst]

/-- **Assignment keeps the type**: what a coherent value is converted to on assignment has the very
type it is converted to, if that one is regular. -/
theorem Coherent.type_convert_assignment {type : ValueType} (hreg : type.Regular)
    (hv : v.Coherent) (h : Value.convert type v .assignment = .ok w) : w.type = type := by
  induction hreg generalizing v w with
  | @array shape hshape =>
    obtain ⟨b, -, rfl⟩ := storedAs_convert_assignment hshape h
    rfl
  | @tuple types _ ih =>
    obtain ⟨x, fields, converted, hx, hfields, hlength, hconverted, rfl⟩ := convert_tuple_eq_ok h
    have hcoherent := (hv.promoteMixed hx).fields hfields
    rw [types_of_convertFields ih hcoherent hlength hconverted]
  | interval kind =>
    obtain ⟨x, hx, ⟨shape, hshape, -⟩ | ⟨hunknown, -⟩ | ⟨other, hother, hinterval, hkind, rfl⟩⟩ :=
      convert_eq_ok rfl h
    · cases hshape
    · cases hunknown
    · obtain rfl := ValueType.interval.inj hother
      rcases hkind with rfl | hrules
      · exact (hv.promoteMixed hx).type_of_interval hinterval
      · cases hrules
  | input | output =>
    obtain ⟨x, hx, ⟨shape, hshape, -⟩ | ⟨hunknown, -⟩ | ⟨other, hother, -⟩⟩ := convert_eq_ok rfl h
    · cases hshape
    · cases hunknown
    · cases hother
  | unknown =>
    obtain ⟨x, hx, ⟨shape, hshape, -⟩ | ⟨-, hrules, -⟩ | ⟨other, hother, -⟩⟩ := convert_eq_ok rfl h
    · cases hshape
    · cases hrules
    · cases hother

end Value

end ArrayMachine
