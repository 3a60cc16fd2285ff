import ArrayMachine.Proofs.Tuples.Names
import ArrayMachine.Proofs.Value.Conversion

/-!
# Tuples with numbered types

A type with its table can belong to several tuples, and tuples can be fields of tuples. `Held` is a
value together with the numbers of the types of all tuples in it, its own at the root. The values
are changed by the operations that run; the numbers say which types the changed tuples have.

A held value fits the types there are (`Held.Fits`) if each tuple in it has as many fields as the
type of its number has names, and its value has that type.

* `Held.Fits.at?`, `Held.Fits.changeAt?`: the tuples within a tuple.
* `Held.Fits.exists_changeAt?`: a change within a tuple, and what is beside it.
* `fits_converted`: conversion gives each tuple it makes a type of its own.
-/

namespace ArrayMachine

/-- The numbers of the types of a tuple and of the tuples in it. -/
inductive Numbers where
  /-- Not a tuple. -/
  | none
  | tuple (number : Nat) (fields : List Numbers)

namespace Numbers

/-- The number of the value's own type. -/
def own? : Numbers → Option Nat
  | tuple number _ => some number
  | none => Option.none

/-- The numbers of one field. -/
def field? : Numbers → Nat → Option Numbers
  | tuple _ fields, pos => fields[pos]?
  | none, _ => Option.none

/-- The same fields under the type of another number. -/
def renumber : Numbers → Option Nat → Numbers
  | tuple _ fields, some number => tuple number fields
  | numbers, _ => numbers

/-- Other numbers at the end of a path. -/
def changeAt (change : Numbers → Numbers) : List Nat → Numbers → Numbers
  | [], numbers => change numbers
  | pos :: path, tuple number fields =>
    match fields[pos]? with
    | some field => tuple number (fields.set pos (changeAt change path field))
    | Option.none => tuple number fields
  | _ :: _, none => none

end Numbers

/-- Neither the type nor the payload is that of a tuple. -/
structure Value.IsPlain (v : Value) : Prop where
  type : v.type.isTuple = false
  payload : v.fields? = none

/-- The value with what is at the end of a path of fields changed by an operation that may fail. -/
def Value.changeAt (change : Value → Result Value) : List Nat → Value → Result Value
  | [], v => change v
  | pos :: path, v => v.modifyField pos (changeAt change path)

theorem Result.toOption_eq_some_iff {α : Type} {r : Result α} {x : α} :
    r.toOption = some x ↔ r = .ok x := by
  cases r <;> simp [Except.toOption]

/-- A value that knows the numbers of its tuple types. -/
structure Held where
  value : Value
  numbers : Numbers

namespace Held

/-- The value and the number of its own type. -/
def tuple (h : Held) : Tuple := ⟨h.value, h.numbers.own?⟩

/-- A tuple of held fields under the type of a number. -/
def ofFields (number : Nat) (type : List (Option String × ValueType)) (fields : List Held) : Held :=
  ⟨⟨.tuple type, .tuple (fields.map value)⟩, .tuple number (fields.map numbers)⟩

/-- One field of a tuple. -/
def field? (h : Held) (pos : Nat) : Option Held :=
  match h.value.field pos, h.numbers.field? pos with
  | .ok v, some numbers => some ⟨v, numbers⟩
  | _, _ => none

/-- What is found by going into one field after the other. -/
def at? : List Nat → Held → Option Held
  | [], h => some h
  | pos :: path, h => (h.field? pos).bind (at? path)

/-- The value with what is at the end of a path changed by an operation that may fail, and the
numbers of its types with it. -/
def changeAt? (change : Value → Result Value) (renumber : Numbers → Numbers) (path : List Nat)
    (h : Held) : Option Held :=
  (h.value.changeAt change path).toOption.map fun v => ⟨v, h.numbers.changeAt renumber path⟩

/-- Every tuple has as many fields as the type of its number, which is the type of its value. -/
inductive Fits (types : Types) : Held → Prop where
  | plain {v : Value} : v.IsPlain → Fits types ⟨v, .none⟩
  | tuple {number : Nat} {type : List (Option String × ValueType)} {fields : List Held} :
    types.fields[number]? = some type → fields.length = type.length →
    (∀ f ∈ fields, Fits types f) → Fits types (ofFields number type fields)

variable {h f g : Held} {fs : List Held} {types newer : Types} {number pos : Nat}
variable {type : List (Option String × ValueType)} {path : List Nat} {v w : Value}
variable {change : Value → Result Value} {renumber : Numbers → Numbers}

@[simp] theorem field?_ofFields : (ofFields number type fs).field? pos = fs[pos]? := by
  unfold field? Value.field
  cases hf : fs[pos]? <;> simp [ofFields, Value.fields?, Numbers.field?, hf]

theorem field?_of_isPlain (hv : v.IsPlain) (numbers : Numbers) :
    (Held.mk v numbers).field? pos = none := by
  simp [field?, Value.field, hv.payload]

/-- What fits some types fits more of them. -/
theorem Fits.extend (hh : h.Fits types) (hnewer : newer.Extends types) : h.Fits newer := by
  induction hh with
  | plain hv => exact .plain hv
  | tuple htype hlength _ ih => exact .tuple (hnewer _ _ htype) hlength ih

/-! ### Places within a tuple -/

theorem Fits.at? (hh : h.Fits types) (hf : h.at? path = some f) : f.Fits types := by
  induction path generalizing h with
  | nil =>
    obtain rfl := Option.some.inj hf
    exact hh
  | cons pos path ih =>
    obtain ⟨g, hg, hf⟩ := Option.bind_eq_some_iff.mp hf
    refine ih ?_ hf
    cases hh with
    | plain hv =>
      rw [field?_of_isPlain hv] at hg
      cases hg
    | tuple _ _ hfields =>
      rw [field?_ofFields] at hg
      exact hfields g (List.mem_of_getElem? hg)

theorem changeAt?_nil :
    h.changeAt? change renumber [] = (change h.value).toOption.map (⟨·, renumber h.numbers⟩) :=
  rfl

theorem changeAt?_of_isPlain (hv : v.IsPlain) (numbers : Numbers) :
    (Held.mk v numbers).changeAt? change renumber (pos :: path) = none := by
  simp [changeAt?, Value.changeAt, Value.modifyField, hv.payload, Except.toOption]

/-- A change within a tuple is one within a field. -/
theorem changeAt?_ofFields :
    (ofFields number type fs).changeAt? change renumber (pos :: path) =
      fs[pos]?.bind fun f =>
        (f.changeAt? change renumber path).map fun g => ofFields number type (fs.set pos g) := by
  rw [changeAt?, Value.changeAt, Value.modifyField]
  cases hf : fs[pos]? with
  | none => simp [ofFields, Value.fields?, hf, Except.toOption]
  | some f =>
    cases hv : Value.changeAt change path f.value with
    | error fault =>
      simp [ofFields, Value.fields?, hf, hv, changeAt?, Except.toOption, bind, Except.bind]
    | ok v =>
      simp [ofFields, Value.fields?, hf, hv, changeAt?, Except.toOption, bind, Except.bind, pure,
        Except.pure, Numbers.changeAt, List.map_set]

/-- **A change at the end of a path** concerns no other tuple, and no type on the way. -/
theorem Fits.changeAt? (hh : h.Fits types) (hg : h.changeAt? change renumber path = some g)
    (hchange : ∀ {f w}, h.at? path = some f → change f.value = .ok w →
      (Held.mk w (renumber f.numbers)).Fits types) : g.Fits types := by
  induction path generalizing h g with
  | nil =>
    obtain ⟨w, hw, rfl⟩ := Option.map_eq_some_iff.mp hg
    exact hchange rfl (Result.toOption_eq_some_iff.mp hw)
  | cons pos path ih =>
    cases hh with
    | plain hplain =>
      rw [changeAt?_of_isPlain hplain] at hg
      cases hg
    | tuple htype hlength hfields =>
      rw [changeAt?_ofFields] at hg
      obtain ⟨f, hf, hg⟩ := Option.bind_eq_some_iff.mp hg
      obtain ⟨new, hnew, rfl⟩ := Option.map_eq_some_iff.mp hg
      refine .tuple htype (by rw [List.length_set, hlength]) fun k hk => ?_
      rcases List.mem_or_eq_of_mem_set hk with hk | rfl
      · exact hfields k hk
      · refine ih (hfields f (List.mem_of_getElem? hf)) hnew fun hat => hchange ?_
        rw [Held.at?, field?_ofFields, hf]
        exact hat

/-- **A change that does not fail** is found at its place, and nowhere beside it. -/
theorem Fits.exists_changeAt? (hh : h.Fits types) (hf : h.at? path = some f)
    (hw : change f.value = .ok w) :
    ∃ g, h.changeAt? change renumber path = some g ∧
      g.at? path = some ⟨w, renumber f.numbers⟩ ∧
      ∀ other, ¬ path <+: other → ¬ other <+: path → g.at? other = h.at? other := by
  induction path generalizing h with
  | nil =>
    obtain rfl := Option.some.inj hf
    refine ⟨⟨w, renumber h.numbers⟩, ?_, rfl, fun other hother => ?_⟩
    · rw [changeAt?_nil, hw]
      rfl
    · exact absurd List.nil_prefix hother
  | cons pos path ih =>
    cases hh with
    | plain hplain =>
      rw [Held.at?, field?_of_isPlain hplain] at hf
      cases hf
    | @tuple number type fs htype hlength hfields =>
      rw [Held.at?, field?_ofFields] at hf
      obtain ⟨k, hk, hf⟩ := Option.bind_eq_some_iff.mp hf
      obtain ⟨new, hnew, hat, hbeside⟩ := ih (hfields k (List.mem_of_getElem? hk)) hf
      have hpos : pos < fs.length := (List.getElem?_eq_some_iff.mp hk).1
      refine ⟨ofFields number type (fs.set pos new), ?_, ?_, fun other hother hother' => ?_⟩
      · rw [changeAt?_ofFields, hk, Option.bind_some, hnew, Option.map_some]
      · rw [Held.at?, field?_ofFields, List.getElem?_set_self hpos]
        exact hat
      · cases other with
        | nil => exact absurd List.nil_prefix hother'
        | cons pos' rest =>
          rw [Held.at?, Held.at?, field?_ofFields, field?_ofFields]
          by_cases hsame : pos' = pos
          · subst hsame
            rw [List.getElem?_set_self hpos, hk]
            rw [List.prefix_cons_inj] at hother hother'
            exact hbeside rest hother hother'
          · rw [List.getElem?_set_ne (Ne.symm hsame)]

/-- **A tuple of a new type** fits the types with its own. -/
theorem Fits.add {type : List (Option String × ValueType)} (hs : types.Sound)
    (hlength : fs.length = type.length) (hfields : ∀ f ∈ fs, f.Fits types) :
    (ofFields (types.add type).1 type fs).Fits (types.add type).2 ∧ (types.add type).2.Sound ∧
      (types.add type).2.Extends types := by
  have hextends := types.extends_add type
  refine ⟨.tuple (hs.getElem?_add type) hlength fun f hf => ?_, hs.add type, hextends⟩
  exact (hfields f hf).extend hextends

/-! ### What fits -/

/-- A value that fits is plain, or is a tuple with a field for each name of its type. -/
theorem Fits.cases (hh : h.Fits types) :
    h.value.IsPlain ∨ ∃ fields, h.value.fields? = some fields ∧ h.value.type.isTuple = true ∧
      fields.length = h.value.type.fieldNames.length := by
  cases hh with
  | plain hv => exact .inl hv
  | tuple _ hlength _ =>
    refine .inr ⟨_, rfl, rfl, ?_⟩
    simpa [ofFields, ValueType.fieldNames] using hlength

end Held

/-! ## Conversion -/

namespace Numbers

mutual

/-- The numbers of the value that a value is converted to. A tuple that enters a tuple type gets a
type of its own, once its fields have theirs; what enters the unknown type is as it was. -/
def converted (target : ValueType) (numbers : Numbers) (result : Value) (types : Types) :
    Numbers × Types :=
  match target, numbers, result with
  | .tuple targets, .tuple _ ns, ⟨.tuple type, .tuple results⟩ =>
    let (ns, types) := convertedFields targets ns results types
    let (number, types) := types.add type
    (.tuple number ns, types)
  | .unknown, numbers, _ => (numbers, types)
  | _, _, _ => (.none, types)

def convertedFields : List (Option String × ValueType) → List Numbers → List Value → Types →
    List Numbers × Types
  | (_, target) :: targets, numbers :: ns, result :: results, types =>
    let (numbers, types) := converted target numbers result types
    let (ns, types) := convertedFields targets ns results types
    (numbers :: ns, types)
  | _, _, _, types => ([], types)

end

end Numbers

section Conversion

variable {h : Held} {types : Types} {shape : Shape} {mode : Mode} {v w x : Value}

theorem Value.Fresh.isPlain (h : v.Fresh) : v.IsPlain := by
  cases h <;> exact ⟨rfl, rfl⟩

/-- A tuple that fits is not mixed, and what is not a tuple does not become one. -/
theorem Held.Fits.promoteMixed (hh : h.Fits types) (hx : h.value.promoteMixed = .ok x) :
    (Held.mk x h.numbers).Fits types := by
  obtain ⟨-, rfl⟩ | ⟨shape, elements, kind, hmixed, -, hkind⟩ := Value.promoteMixed_eq_ok hx
  · exact hh
  · cases hh with
    | plain hv =>
      obtain ⟨-, rfl⟩ | ⟨b, -, rfl⟩ := hkind <;> exact .plain ⟨rfl, rfl⟩
    | tuple htype hlength hfields => cases hmixed

theorem isPlain_convertKind (hv : v.IsPlain) (hw : Value.convertKind shape v mode = .ok w) :
    w.IsPlain := by
  unfold Value.convertKind at hw
  split at hw
  · cases hw
  · split at hw
    · obtain rfl := Except.ok.inj hw
      exact hv
    · dsimp only at hw
      split at hw
      all_goals
        obtain ⟨x, -, hw⟩ := Result.bind_eq_ok_iff.mp hw
        split at hw
        · cases hw
        · obtain ⟨buffer, -, hw⟩ := Result.bind_eq_ok_iff.mp hw
          exact (Value.fresh_ofBuffer hw).isPlain

/-- What enters an array type becomes an array. -/
theorem isPlain_convertToArray (hh : h.Fits types)
    (hw : Value.convertToArray shape h.value mode = .ok w) : w.IsPlain := by
  obtain ⟨-, hw⟩ := Value.convertToArray_eq_ok hw
  obtain ⟨source, hsource, ⟨-, hw⟩ | ⟨-, -, hw⟩ | ⟨x, -, -, hw⟩⟩ := Value.convertArray_cases hw
  · refine isPlain_convertKind ?_ hw
    cases hinterval : h.value.interval? with
    | some interval =>
      rw [Value.widened, hinterval]
      exact (Value.fresh_vector _).isPlain
    | none =>
      rw [Value.widened, hinterval] at hsource ⊢
      cases hh with
      | plain hv => exact hv
      | tuple _ _ _ => cases hsource
  · exact (Value.fresh_convertEmpty hw).isPlain
  · exact (Value.fresh_convertStored hw).isPlain

mutual

/-- **Conversion gives fitting values**, and each tuple that it makes has a new type. -/
theorem fits_converted (target : ValueType) {h : Held} {types : Types} {w : Value}
    (hs : types.Sound) (hh : h.Fits types) (hw : Value.convert target h.value mode = .ok w) :
    (Held.mk w (h.numbers.converted target w types).1).Fits (h.numbers.converted target w types).2 ∧
      (h.numbers.converted target w types).2.Sound ∧
      (h.numbers.converted target w types).2.Extends types := by
  match target with
  | .tuple targets =>
    obtain ⟨x, vs, converted, hx, hvs, -, hconverted, rfl⟩ := Value.convert_tuple_eq_ok hw
    cases hh with
    | @plain v hv =>
      have hfits : (Held.mk v .none).Fits types := .plain hv
      cases hfits.promoteMixed hx with
      | plain hx =>
        rw [hx.payload] at hvs
        cases hvs
    | @tuple number type fs htype hlength hfields =>
      obtain rfl : Value.mk (.tuple type) (.tuple (fs.map Held.value)) = x := Except.ok.inj hx
      obtain rfl := Option.some.inj hvs
      obtain ⟨⟨new, hvalues, hnumbers, hnew⟩, hsound, hextends⟩ :=
        fits_convertedFields targets hs hfields hconverted
      -- The fields have their types by now, so the tuple's own comes after all of theirs.
      have hlength : new.length = (converted.map fun pair => (pair.1, pair.2.type)).length := by
        simpa using congrArg List.length hvalues
      have hadd := Held.Fits.add hsound hlength hnew
      rw [Held.ofFields, hvalues, hnumbers] at hadd
      rw [Held.ofFields, Numbers.converted]
      exact ⟨hadd.1, hadd.2.1, hadd.2.2.trans hextends⟩
  | .unknown =>
    obtain ⟨x, hx, ⟨_, hshape, -⟩ | ⟨-, -, rfl⟩ | ⟨_, hkind, -⟩⟩ := Value.convert_eq_ok rfl hw
    · cases hshape
    · exact ⟨hh.promoteMixed hx, hs, .refl _⟩
    · cases hkind
  | .array shape =>
    obtain ⟨x, hx, ⟨other, hshape, hw⟩ | ⟨hunknown, -⟩ | ⟨_, hkind, -⟩⟩ :=
      Value.convert_eq_ok rfl hw
    · exact ⟨.plain (isPlain_convertToArray (hh.promoteMixed hx) hw), hs, .refl _⟩
    · cases hunknown
    · cases hkind
  | .interval kind =>
    obtain ⟨x, hx, ⟨_, hshape, -⟩ | ⟨hunknown, -⟩ | ⟨_, hkind, hinterval, -, rfl⟩⟩ :=
      Value.convert_eq_ok rfl hw
    · cases hshape
    · cases hunknown
    · obtain hplain | ⟨fields, hfields, -⟩ := (hh.promoteMixed hx).cases
      · exact ⟨.plain hplain, hs, .refl _⟩
      · obtain ⟨type, payload⟩ := w
        cases payload <;> cases hfields
        cases hinterval
  | .input =>
    obtain ⟨_, -, ⟨_, hshape, -⟩ | ⟨hunknown, -⟩ | ⟨_, hkind, -⟩⟩ := Value.convert_eq_ok rfl hw
    · cases hshape
    · cases hunknown
    · cases hkind
  | .output =>
    obtain ⟨_, -, ⟨_, hshape, -⟩ | ⟨hunknown, -⟩ | ⟨_, hkind, -⟩⟩ := Value.convert_eq_ok rfl hw
    · cases hshape
    · cases hunknown
    · cases hkind

theorem fits_convertedFields (targets : List (Option String × ValueType)) {fs : List Held}
    {types : Types} {converted : List (Option String × Value)} (hs : types.Sound)
    (hfs : ∀ f ∈ fs, f.Fits types)
    (h : Value.convertFields targets (fs.map Held.value) mode = .ok converted) :
    let result :=
      Numbers.convertedFields targets (fs.map Held.numbers) (converted.map Prod.snd) types
    (∃ new : List Held, new.map Held.value = converted.map Prod.snd ∧
        new.map Held.numbers = result.1 ∧ ∀ f ∈ new, f.Fits result.2) ∧
      result.2.Sound ∧ result.2.Extends types := by
  match targets, fs with
  | (name, target) :: targets, f :: fs =>
    obtain ⟨field, rest, hfield, hrest, rfl⟩ := Value.convertFields_cons h
    obtain ⟨hf, hfs⟩ := List.forall_mem_cons.mp hfs
    obtain ⟨hfits, hsound, hextends⟩ := fits_converted target hs hf hfield
    obtain ⟨⟨new, hvalues, hnumbers, hnew⟩, hsound', hextends'⟩ :=
      fits_convertedFields targets hsound (fun g hg => (hfs g hg).extend hextends) hrest
    refine ⟨⟨⟨field, (f.numbers.converted target field types).1⟩ :: new, ?_, ?_, ?_⟩, hsound',
      hextends'.trans hextends⟩
    · simp [hvalues]
    · simp [hnumbers, Numbers.convertedFields]
    · exact List.forall_mem_cons.mpr ⟨hfits.extend hextends', hnew⟩
  | [], _ =>
    obtain rfl := Except.ok.inj h
    exact ⟨⟨[], rfl, rfl, by simp⟩, hs, .refl _⟩
  | _ :: _, [] =>
    obtain rfl := Except.ok.inj h
    exact ⟨⟨[], rfl, rfl, by simp⟩, hs, .refl _⟩

end

end Conversion

end ArrayMachine
