import ArrayMachine.Proofs.Session.Soundness
import Mathlib.Logic.Relation

/-!
# Well-formed values

A value is well formed (`Value.WellFormed`) if its payload agrees with its type: a buffer has the
kind and the size of a shape without open extents, a literal that is not of one kind is of the mixed
one, nothing is stored only for streams, the empty array and null and identity arrays, and a tuple
has a field of each type that its own type records. Views are not well formed.

Operations on well-formed values give well-formed values, so whatever is computed from well-formed
values in any number of steps is well formed.

* `invariant_wellFormed`: the operators and conversion.
* `exists_gather`: a selection in range of a well-formed root can be copied.
* `Computes.wellFormed`: one operation.
* `wellFormed_of_computes`: any computation.
-/

namespace ArrayMachine

/-- Every position of the selection is one of the root's. -/
def Selection.InRange (σ : Selection) (root : Value) : Prop :=
  ∃ n, root.length = .ok n ∧
    ∀ pos, pos < σ.count n → ∃ p, σ.flatPosition root pos = .ok p ∧ p < n

namespace Value

/-- The payload agrees with the type in all its parts, and there are no views. An interval carries
the proof that its ends are in order. -/
inductive WellFormed : Value → Prop where
  | input : WellFormed Value.input
  | output : WellFormed Value.output
  | empty {shape : Shape} : shape.isEmptyArray = true → WellFormed (sentinel shape)
  | sentinel {shape : Shape} : shape.element.isSentinel = true → shape.hasOpenExtent = false →
    WellFormed (sentinel shape)
  | stored {shape : Shape} {b : Buffer} : shape.Fits b → shape.hasOpenExtent = false →
    WellFormed (stored shape b)
  | mixed {shape : Shape} {elements : List Element} : shape.element = .mixed →
    shape.hasOpenExtent = false → shape.size = elements.length →
    WellFormed ⟨.array shape, .mixed elements⟩
  | interval (kind : IntervalKind) (interval : Interval) :
    WellFormed ⟨.interval kind, .interval interval⟩
  | tuple {types : List (Option String × ValueType)} {fields : List Value} :
    types.map Prod.snd = fields.map Value.type → (∀ field ∈ fields, WellFormed field) →
    WellFormed ⟨.tuple types, .tuple fields⟩

variable {v w root : Value} {shape : Shape} {σ : Selection}

theorem Fresh.wellFormed (h : v.Fresh) : v.WellFormed := by
  cases h with
  | stored hfits hknown => exact .stored hfits hknown
  | sentinel hsentinel hknown => exact .sentinel hsentinel hknown
  | empty => exact .empty rfl
  | mixed hmixed hknown hsize => exact .mixed hmixed hknown hsize
  | interval interval => exact .interval .integer interval

theorem WellFormed.view?_eq_none (h : v.WellFormed) : v.view? = none := by
  cases h <;> rfl

theorem WellFormed.isView (h : v.WellFormed) : v.isView = false := by
  cases h <;> rfl

/-- No extent of a well-formed array is open. -/
theorem WellFormed.known (h : v.WellFormed) (hshape : v.shape? = some shape) :
    shape.hasOpenExtent = false := by
  cases h with
  | input => cases hshape
  | output => cases hshape
  | empty hempty =>
    obtain rfl := Option.some.inj hshape
    rw [Shape.isEmptyArray_iff] at hempty
    simp [Shape.hasOpenExtent, Shape.extents, hempty]
  | sentinel _ hknown =>
    obtain rfl := Option.some.inj hshape
    exact hknown
  | stored _ hknown =>
    obtain rfl := Option.some.inj hshape
    exact hknown
  | mixed _ hknown _ =>
    obtain rfl := Option.some.inj hshape
    exact hknown
  | interval kind interval => cases hshape
  | tuple _ _ => cases hshape

/-! ## Operators -/

theorem WellFormed.promoteMixed (hv : v.WellFormed) (h : v.promoteMixed = .ok w) :
    w.WellFormed := by
  rcases promoteMixed_eq_ok h with
    ⟨-, rfl⟩ | ⟨shape, elements, kind, rfl, -, ⟨hsentinel, rfl⟩ | ⟨b, hb, rfl⟩⟩
  · exact hv
  · have hknown : shape.hasOpenExtent = false := hv.known rfl
    exact .sentinel hsentinel hknown
  · cases hv with
    | mixed _ hknown hsize =>
      refine .stored ⟨Buffer.kind_of_ofElements hb, ?_⟩ hknown
      rw [Buffer.length_of_ofElements hb, Shape.size_withElement, hsize]

/-- A null or identity array that is filled is stored under its extents. -/
theorem WellFormed.fillSentinel {kind : Kind} (hv : v.WellFormed)
    (h : v.fillSentinel kind = .ok w) : w.WellFormed := by
  obtain ⟨shape, e, b, rfl, -, hb, rfl⟩ := fillSentinel_eq_ok h
  have hknown : shape.hasOpenExtent = false := hv.known rfl
  exact .stored (Shape.fits_filled hb) hknown

theorem WellFormed.fields {fields : List Value} (h : v.WellFormed)
    (hfields : v.fields? = some fields) : ∀ field ∈ fields, field.WellFormed := by
  cases h with
  | tuple _ hwell =>
    obtain rfl := Option.some.inj hfields
    exact hwell
  | _ => cases hfields

/-- **All operators keep values well formed.** -/
theorem invariant_wellFormed : Invariant WellFormed where
  fresh := Fresh.wellFormed
  promoteMixed := WellFormed.promoteMixed
  fillSentinel := WellFormed.fillSentinel
  fields := WellFormed.fields
  tuple hfields := by
    refine .tuple (by simp) fun field hfield => ?_
    obtain ⟨pair, hpair, rfl⟩ := List.mem_map.mp hfield
    exact hfields pair hpair

/-- Overwriting an element changes neither the kind nor the size of what is stored. -/
theorem WellFormed.setElement {pos : Nat} {e : Element} (hv : v.WellFormed)
    (h : v.setElement pos e = .ok w) : w.WellFormed := by
  cases hv with
  | stored hfits hknown =>
    obtain ⟨buffer, hbuffer, h⟩ := Result.bind_eq_ok_iff.mp h
    obtain rfl := Except.ok.inj h
    exact .stored (hfits.set hbuffer) hknown
  | _ => cases h

/-! ## Copies of selections in range -/

/-- A null or identity array is copied as one, if every position can be found. -/
theorem gather_sentinel {n : Nat} (hsentinel : root.isSentinel = true)
    (hlength : root.length = .ok n)
    (hrange : ∀ pos, pos < σ.count n → ∃ p, σ.flatPosition root pos = .ok p) :
    ∃ w, σ.gather root = .ok w := by
  cases hshape : root.shape? with
  | none => simp [isSentinel, kind?, hshape] at hsentinel
  | some shape =>
    obtain ⟨positions, hpositions⟩ := Result.exists_mapM_eq_ok fun pos hpos =>
      hrange pos (List.mem_range.mp hpos)
    rw [Selection.gather_of_isSentinel hshape hlength hsentinel, hpositions]
    exact ⟨_, rfl⟩

/-- **A selection in range** of an array that stores its elements, or of a null or identity array,
is copied without a fault. -/
theorem exists_gather (hroot : root.WellFormed)
    (helements : root.buffer?.isSome = true ∨ root.isSentinel = true) (hσ : σ.InRange root) :
    ∃ w, σ.gather root = .ok w := by
  obtain ⟨n, hlength, hrange⟩ := hσ
  rcases helements with hbuffer | hsentinel
  · cases hroot with
    | @stored shape b hfits _ =>
      obtain rfl := Except.ok.inj hlength
      obtain ⟨c, -, hc⟩ := Selection.gather_of_reach hfits fun pos hpos => by
        obtain ⟨p, hp, hlt⟩ := hrange pos hpos
        rw [← hfits.size, ← Buffer.length_elements] at hlt
        exact ⟨_, Result.bind_eq_ok_iff.mpr ⟨p, hp, element_stored_of_lt hfits hlt⟩⟩
      exact ⟨_, hc⟩
    | _ => cases hbuffer
  · refine gather_sentinel hsentinel hlength fun pos hpos => ?_
    obtain ⟨p, hp, -⟩ := hrange pos hpos
    exact ⟨p, hp⟩

/-! ## Computations -/

/-- What one operation gives on values that were come by before. -/
inductive Computes (vs : List Value) : Value → Prop where
  | literal {elements : List Element} {w : Value} : literal elements = .ok w → Computes vs w
  | matrixLiteral {rows : Rows} {w : Value} :
    matrixLiteral rows = .ok w → Computes vs w
  | compose {fields : List (Option String × Value)} {w : Value} :
    (∀ field ∈ fields, field.2 ∈ vs) → compose fields = .ok w → Computes vs w
  | unary {op : UnaryOp} {v w : Value} : v ∈ vs → unary op v = .ok w → Computes vs w
  | binary {op : BinaryOp} {a b w : Value} :
    a ∈ vs → b ∈ vs → binary op a b = .ok w → Computes vs w
  | length {v w : Value} : v ∈ vs → v.lengthScalar = .ok w → Computes vs w
  | rows {v w : Value} : v ∈ vs → v.rowsScalar = .ok w → Computes vs w
  | columns {v w : Value} : v ∈ vs → v.columnsScalar = .ok w → Computes vs w
  | reverse {v w : Value} : v ∈ vs → v.reverse = .ok w → Computes vs w
  | convert {target : ValueType} {mode : Mode} {v w : Value} :
    v ∈ vs → convert target v mode = .ok w → Computes vs w
  | promoteMixed {v w : Value} : v ∈ vs → v.promoteMixed = .ok w → Computes vs w
  | fillSentinel {kind : Kind} {v w : Value} :
    v ∈ vs → v.fillSentinel kind = .ok w → Computes vs w
  | setElement {pos : Nat} {e : Element} {v w : Value} :
    v ∈ vs → v.setElement pos e = .ok w → Computes vs w
  /-- A copy of a view, the root being one of the values. -/
  | materialize {scope : Scope} {view : View} {root v w : Value} : v.view? = some view →
    scope.get view.root = .ok root → root ∈ vs → scope.materialize v = .ok w → Computes vs w
  /-- Indexing of one of the values beside the stack. -/
  | index {scope : Scope} {indices : List IndexOperand} {v w : Value} :
    v ∈ vs → scope.index (.value v) indices = .ok w → Computes vs w

/-- **One operation** on well-formed values gives a well-formed one. -/
theorem Computes.wellFormed {vs : List Value} (hvs : ∀ v ∈ vs, v.WellFormed) (h : Computes vs w) :
    w.WellFormed := by
  have hkept := invariant_wellFormed
  cases h with
  | literal h => exact (fresh_literal h).wellFormed
  | matrixLiteral h => exact (fresh_matrixLiteral h).wellFormed
  | compose hfields h => exact hkept.compose (fun field hfield => hvs _ (hfields field hfield)) h
  | unary _ h => exact (fresh_unary h).wellFormed
  | binary ha hb h => exact hkept.binary (hvs _ ha) (hvs _ hb) h
  | length _ h => exact (fresh_lengthScalar h).wellFormed
  | rows _ h => exact (fresh_matrixExtent h).wellFormed
  | columns _ h => exact (fresh_matrixExtent h).wellFormed
  | reverse hv h => exact hkept.reverse (hvs _ hv) h
  | convert hv h => exact hkept.convert _ (hvs _ hv) h
  | promoteMixed hv h => exact (hvs _ hv).promoteMixed h
  | fillSentinel hv h => exact (hvs _ hv).fillSentinel h
  | setElement hv h => exact (hvs _ hv).setElement h
  | materialize hview hroot _ h =>
    unfold Scope.materialize at h
    simp only [hview] at h
    obtain ⟨root, -, h⟩ := Result.bind_eq_ok_iff.mp h
    exact (fresh_gather h).wellFormed
  | index hv h => exact (fresh_index (hvs _ hv).view?_eq_none h).wellFormed

/-- One more value is computed. -/
def Adds (us vs : List Value) : Prop := ∃ w, Computes us w ∧ vs = w :: us

/-- **Whatever is computed from well-formed values is well formed**, in any number of steps. Of each
of these values that stores its elements, or stands for nulls or identities, every view in range can
be copied, and the copy is well formed. -/
theorem wellFormed_of_computes {us vs : List Value} (hus : ∀ v ∈ us, v.WellFormed)
    (h : Relation.ReflTransGen Adds us vs) :
    ∀ v ∈ vs, v.WellFormed ∧
      ((v.buffer?.isSome = true ∨ v.isSentinel = true) →
        ∀ (scope : Scope) (x : Value) (view : View), x.view? = some view →
          scope.get view.root = .ok v → view.selection.InRange v →
            ∃ copy, scope.materialize x = .ok copy ∧ copy.WellFormed) := by
  have hvs : ∀ v ∈ vs, v.WellFormed := by
    induction h with
    | refl => exact hus
    | tail _ hstep ih =>
      obtain ⟨w, hw, rfl⟩ := hstep
      exact List.forall_mem_cons.mpr ⟨hw.wellFormed ih, ih⟩
  intro v hv
  refine ⟨hvs v hv, fun helements scope x view hview hroot hσ => ?_⟩
  obtain ⟨copy, hcopy⟩ := exists_gather (hvs v hv) helements hσ
  refine ⟨copy, ?_, (fresh_gather hcopy).wellFormed⟩
  unfold Scope.materialize
  simp only [hview, hroot]
  exact hcopy

/-- A literal, its concatenation to a vector, and a tuple of the two. The vector is on a stack, and
the view of it by itself is copied. -/
theorem wellFormed_of_computes_pair :
    let v := vector (.integers #[3, 1, 2])
    let mixture : Value := ⟨.array (Shape.vector .mixed 2), .mixed [.integer 1, .null]⟩
    let joined := vector (.integers #[3, 1, 2, 1, 0])
    let pair : Value :=
      ⟨.tuple [(none, joined.type), (some "end", mixture.type)], .tuple [joined, mixture]⟩
    let scope := ((Scope.empty 8).pushVariable v).2
    let x := ofView (Shape.vector .integer 3) ⟨⟨0, 0⟩, .bySelf⟩
    (∀ y ∈ [v], y.WellFormed) ∧
      Relation.ReflTransGen Adds [v] [pair, joined, mixture, v] ∧ pair.WellFormed ∧
      ∃ copy, scope.materialize x = .ok copy ∧ copy.WellFormed := by
  intro v mixture joined pair scope x
  have hv : ∀ y ∈ [v], y.WellFormed := by
    intro y hy
    obtain rfl := List.mem_singleton.mp hy
    exact (fresh_vector _).wellFormed
  have hliteral : literal [.integer 1, .null] = .ok mixture := rfl
  have hmixture : Adds [v] [mixture, v] := ⟨_, .literal hliteral, rfl⟩
  have hconcat : binary .concat v mixture = .ok joined := rfl
  have hjoined : Adds [mixture, v] [joined, mixture, v] :=
    ⟨_, .binary (by simp) (by simp) hconcat, rfl⟩
  have hcompose : compose [(none, joined), (some "end", mixture)] = .ok pair := rfl
  have hpair : Adds [joined, mixture, v] [pair, joined, mixture, v] :=
    ⟨_, .compose (by simp) hcompose, rfl⟩
  have hrun : Relation.ReflTransGen Adds [v] [pair, joined, mixture, v] :=
    ((Relation.ReflTransGen.single hmixture).tail hjoined).tail hpair
  have hall := wellFormed_of_computes hv hrun
  have hrange : Selection.bySelf.InRange v := by
    refine ⟨3, rfl, fun pos hpos => ?_⟩
    match pos, hpos with
    | 0, _ => exact ⟨2, rfl, by decide⟩
    | 1, _ => exact ⟨0, rfl, by decide⟩
    | 2, _ => exact ⟨1, rfl, by decide⟩
  exact ⟨hv, hrun, (hall pair (by simp)).1,
    (hall v (by simp)).2 (.inl rfl) scope x _ rfl rfl hrange⟩

end Value

end ArrayMachine
