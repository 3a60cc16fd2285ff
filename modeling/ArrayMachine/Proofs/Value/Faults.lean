import ArrayMachine.Proofs.Value.Meeting
import ArrayMachine.Proofs.Value.Ordinary
import ArrayMachine.Proofs.Value.WellFormed
import ArrayMachine.Value.Rendering

/-!
# Faults on well-formed values

An operation on well-formed values gives a value or a fault that says what is wrong with its
operands, but never the internal fault that says that a payload does not agree with its type. Each
place that has such a fault is ruled out by what was looked at before it: there are no views
(`WellFormed.isView`), the empty array has no position to be read
(`WellFormed.ordinary_elementWithin`), only null and identity arrays are filled
(`WellFormed.eq_sentinel`), and what is left once these and literals are out of the way is stored
(`WellFormed.eq_stored`).

* `WellFormed.ordinary_element`: reading.
* `WellFormed.ordinary_binary`: operators, tuples being compared field by field.
* `WellFormed.ordinary_convert`: conversion into any type, tuples being converted field by field.
* `ordinary_of_wellFormed`: every operation, down to the elements.
-/

namespace ArrayMachine

namespace Value

open Result

variable {v w a b : Value} {shape source target : Shape} {op : BinaryOp} {mode : Mode}

/-! ## Elements -/

/-- What there is of a well-formed value can be read. -/
theorem WellFormed.ordinary_elementWithin {n pos : Nat} (hv : v.WellFormed) (hn : v.length = .ok n)
    (hpos : pos < n) : (v.elementWithin pos).Ordinary := by
  cases hv with
  | input => cases hn
  | output => cases hn
  | empty hempty =>
    obtain rfl := Except.ok.inj hn
    rw [Shape.size_of_isEmptyArray hempty] at hpos
    cases hpos
  | sentinel hsentinel _ =>
    rcases Kind.isSentinel_iff.mp hsentinel with hkind | hkind <;>
      simp [elementWithin, Value.sentinel, kind?, shape?, ValueType.shape?, hkind]
  | stored _ _ => exact Buffer.ordinary_get _ pos
  | mixed _ _ _ =>
    unfold elementWithin
    dsimp only
    split <;> simp [Fault.outOfRange]
  | interval kind interval => exact ordinary_map.mpr (interval.ordinary_get pos)
  | tuple _ _ => cases hn

theorem WellFormed.ordinary_element (hv : v.WellFormed) (pos : Nat) : (v.element pos).Ordinary := by
  refine (ordinary_length v).bind fun n hn => ?_
  split
  · simp [Fault.outOfRange]
  · rename_i hpos
    exact hv.ordinary_elementWithin hn (Nat.lt_of_not_le hpos)

theorem WellFormed.ordinary_elements (hv : v.WellFormed) : v.elements.Ordinary :=
  (ordinary_length v).bind fun _ _ => ordinary_mapM fun pos _ => hv.ordinary_element pos

/-! ## Promotion -/

theorem WellFormed.ordinary_promoteMixed (hv : v.WellFormed) : v.promoteMixed.Ordinary := by
  cases hv with
  | mixed _ _ _ =>
    unfold Value.promoteMixed
    dsimp only [shape?, ValueType.shape?]
    split
    · simp
    · split
      · simp
      · exact (Buffer.ordinary_ofElements _ _).bind fun _ _ => ordinary_pure _
  | _ => exact ordinary_ok _

/-- A promoted literal is no longer mixed. -/
theorem isMixed_of_promoteMixed (h : v.promoteMixed = .ok w) : w.isMixed = false := by
  rcases promoteMixed_eq_ok h with
    ⟨hmixed, rfl⟩ | ⟨shape, elements, kind, rfl, -, ⟨-, rfl⟩ | ⟨b, -, rfl⟩⟩
  · exact hmixed
  · rfl
  · rfl

/-- A well-formed null or identity array stores nothing. -/
theorem WellFormed.eq_sentinel (hv : v.WellFormed) (hsentinel : v.isSentinel = true) :
    ∃ shape, v = Value.sentinel shape ∧ shape.element.isSentinel = true := by
  cases hv with
  | empty _ => exact ⟨_, rfl, hsentinel⟩
  | sentinel h _ => exact ⟨_, rfl, h⟩
  | stored hfits _ =>
    rw [isSentinel_stored hfits] at hsentinel
    cases hsentinel
  | mixed hmixed _ _ =>
    rw [isSentinel_eq rfl, hmixed] at hsentinel
    cases hsentinel
  | _ => cases hsentinel

/-- A null or identity array can be filled, or has no zeros or ones of that kind. -/
theorem WellFormed.ordinary_fillSentinel (hv : v.WellFormed) (hsentinel : v.isSentinel = true)
    (kind : Kind) : (v.fillSentinel kind).Ordinary := by
  obtain ⟨shape, rfl, hkind⟩ := hv.eq_sentinel hsentinel
  rcases Kind.isSentinel_iff.mp hkind with hkind | hkind <;>
    simp only [Value.fillSentinel, Value.sentinel, shape?, ValueType.shape?, hkind]
  all_goals exact (Buffer.ordinary_filled _ _ _).bind fun _ _ => ordinary_pure _

/-! ## Operands -/

theorem WellFormed.ordinary_operand (hv : v.WellFormed) (role : String) :
    (v.operand role).Ordinary := by
  unfold Value.operand
  rw [hv.isView, if_neg Bool.false_ne_true]
  split
  · simp
  · simp
  · simp
  · exact hv.ordinary_promoteMixed

theorem WellFormed.ordinary_scalarInteger (hv : v.WellFormed) (role : String) :
    (v.scalarInteger role).Ordinary := by
  unfold scalarInteger
  dsimp only
  split
  · simp
  · refine (hv.ordinary_element 0).bind fun e _ => ?_
    split <;> simp

/-! ## Unary operators and extents -/

theorem WellFormed.ordinary_unary (hv : v.WellFormed) (op : UnaryOp) : (unary op v).Ordinary := by
  refine (hv.ordinary_operand _).bind fun x _ => ?_
  split
  · exact (Interval.ordinary_unary _ op).bind fun _ _ => ordinary_pure _
  · split
    · simp
    · refine (ordinary_arrayShape x).bind fun shape _ => ?_
      split
      · simp
      · exact (ordinary_storedBuffer x).bind fun stored _ =>
          (stored.ordinary_unary op).bind fun buffer _ => ordinary_ofBuffer shape buffer

theorem WellFormed.ordinary_lengthScalar (hv : v.WellFormed) : v.lengthScalar.Ordinary := by
  refine (hv.ordinary_operand _).bind fun x _ => ?_
  split
  · simp
  · refine (ordinary_arrayShape x).bind fun shape _ => ?_
    split <;> simp

theorem WellFormed.ordinary_matrixExtent (hv : v.WellFormed) (axis : Nat) (name : String) :
    (v.matrixExtent axis name).Ordinary := by
  refine (hv.ordinary_operand name).bind fun x _ => ?_
  refine (ordinary_arrayShape x).bind fun shape _ => ?_
  split <;> simp

theorem WellFormed.ordinary_reverse (hv : v.WellFormed) : v.reverse.Ordinary := by
  refine (hv.ordinary_operand _).bind fun x hx => ?_
  have hx := invariant_wellFormed.operand hv hx
  split
  · simp
  · refine (ordinary_arrayShape x).bind fun shape _ => ?_
    split
    · simp
    · split
      · simp
      · exact hx.ordinary_elements.bind fun elements _ =>
          (Buffer.ordinary_ofElements _ _).bind fun buffer _ => ordinary_ofBuffer shape buffer
    · simp

/-! ## Operators on arrays -/

theorem WellFormed.ordinary_withoutSentinels (ha : a.WellFormed) (hb : b.WellFormed) :
    (withoutSentinels a b).Ordinary := by
  unfold Value.withoutSentinels
  split
  · simp
  · rename_i hsentinel _
    exact (ordinary_basicKind b).bind fun kind _ =>
      (ha.ordinary_fillSentinel hsentinel kind).bind fun _ _ => ordinary_pure _
  · rename_i _ hsentinel
    exact (ordinary_basicKind a).bind fun kind _ =>
      (hb.ordinary_fillSentinel hsentinel kind).bind fun _ _ => ordinary_pure _
  · simp

theorem WellFormed.ordinary_broadcast (hv : v.WellFormed) (shape : Shape) :
    (v.broadcast shape).Ordinary :=
  (hv.ordinary_element 0).bind fun _ _ =>
    (Buffer.ordinary_filled _ _ _).bind fun buffer _ => ordinary_ofBuffer _ buffer

theorem WellFormed.ordinary_aligned (ha : a.WellFormed) (hb : b.WellFormed) (op : BinaryOp) :
    (aligned op a b).Ordinary := by
  refine (ordinary_arrayShape a).bind fun s _ => (ordinary_arrayShape b).bind fun t _ => ?_
  split
  · simp
  · exact (ha.ordinary_broadcast t).bind fun _ _ => ordinary_pure _
  · exact (hb.ordinary_broadcast s).bind fun _ _ => ordinary_pure _
  · split <;> simp

theorem WellFormed.ordinary_pointwise (ha : a.WellFormed) (hb : b.WellFormed) (op : BinaryOp)
    (answer : BinaryOp.ArrayResult) : (pointwise op answer a b).Ordinary := by
  refine (ha.ordinary_aligned hb op).bind fun pair _ => ?_
  obtain ⟨a', b'⟩ := pair
  refine (ordinary_storedBuffer a').bind fun x _ => (ordinary_storedBuffer b').bind fun y _ => ?_
  split
  · exact (x.ordinary_sameWords y).bind fun _ _ => ordinary_pure _
  · exact (x.ordinary_elementwise y op).bind fun results _ =>
      (ordinary_arrayShape a').bind fun shape _ => ordinary_ofBuffer _ results

theorem WellFormed.ordinary_arraysOfKinds (ha : a.WellFormed) (hb : b.WellFormed)
    (op : BinaryOp) : (arraysOfKinds op a b).Ordinary := by
  refine (ordinary_basicKind a).bind fun j _ => (ordinary_basicKind b).bind fun k _ =>
    (ordinary_meetingKind op j k).bind fun kind _ =>
      (ordinary_promoteArray a kind).bind fun a' ha' =>
        (ordinary_promoteArray b kind).bind fun b' hb' => ?_
  have ha' := invariant_wellFormed.promoteArray ha ha'
  have hb' := invariant_wellFormed.promoteArray hb hb'
  split
  · simp
  · split
    · exact ordinary_concat a' b'
    · exact ordinary_product a' b'
    · exact ha'.ordinary_pointwise hb' op _

theorem WellFormed.ordinary_arrays (ha : a.WellFormed) (hb : b.WellFormed) (op : BinaryOp) :
    (arrays op a b).Ordinary := by
  refine (ordinary_arrayShape a).bind fun _ _ => (ordinary_arrayShape b).bind fun _ _ =>
    (ha.ordinary_withoutSentinels hb).bind fun pair hpair => ?_
  obtain ⟨x, y⟩ := pair
  obtain ⟨hx, hy⟩ := invariant_wellFormed.withoutSentinels ha hb hpair
  dsimp only
  split
  · split
    · exact ordinary_concatEmpty _
    · simp
  · exact hx.ordinary_arraysOfKinds hy op

/-! ## Binary operators -/

theorem WellFormed.ordinary_range (ha : a.WellFormed) (hb : b.WellFormed) :
    (range a b).Ordinary :=
  (ha.ordinary_scalarInteger _).bind fun head _ =>
    (hb.ordinary_scalarInteger _).bind fun tail _ =>
      ordinary_map.mpr (Interval.ordinary_ofEnds head tail)

theorem WellFormed.ordinary_stepped (ha : a.WellFormed) (hb : b.WellFormed) :
    (stepped a b).Ordinary := by
  refine (hb.ordinary_scalarInteger _).bind fun step _ => ?_
  split
  · exact (Interval.ordinary_every _ step).bind fun _ _ => ordinary_pure _
  · refine (ordinary_arrayShape a).bind fun shape _ => ?_
    split
    · simp
    · split
      · simp
      · refine (ordinary_mapM fun pos _ => ha.ordinary_element pos).bind fun picked _ => ?_
        dsimp only
        split
        · simp
        · exact (Buffer.ordinary_ofElements _ _).bind fun buffer _ => ordinary_ofBuffer _ buffer

theorem WellFormed.ordinary_asInterval (hv : v.WellFormed) : v.asInterval?.Ordinary := by
  unfold asInterval?
  split
  · simp
  · dsimp only
    split
    · exact (hv.ordinary_scalarInteger _).bind fun k _ =>
        (Interval.ordinary_ofEnds k k).bind fun _ _ => ordinary_pure _
    · simp

theorem WellFormed.ordinary_withInterval (ha : a.WellFormed) (hb : b.WellFormed) (op : BinaryOp) :
    (withInterval op a b).Ordinary := by
  have harrays : (arrays op a.widened b.widened).Ordinary :=
    (invariant_wellFormed.widened ha).ordinary_arrays (invariant_wellFormed.widened hb) op
  refine ha.ordinary_asInterval.bind fun x? _ => hb.ordinary_asInterval.bind fun y? _ => ?_
  cases x? with
  | none => exact harrays
  | some x =>
    cases y? with
    | none => exact harrays
    | some y =>
      show ((intervals? op x y).getD (arrays op a.widened b.widened)).Ordinary
      cases hdirect : intervals? op x y with
      | none => exact harrays
      | some r => exact ordinary_intervals hdirect

theorem WellFormed.ordinary_binaryPlain (ha : a.WellFormed) (hb : b.WellFormed) (op : BinaryOp) :
    (binaryPlain op a b).Ordinary := by
  unfold Value.binaryPlain
  split
  · exact ha.ordinary_range hb
  · exact ha.ordinary_stepped hb
  · split
    · exact ha.ordinary_withInterval hb op
    · exact ha.ordinary_arrays hb op

theorem WellFormed.ordinary_truth (hv : v.WellFormed) : v.truth.Ordinary := by
  have hscalar : v.scalarElement.Ordinary := by
    unfold scalarElement
    split
    · exact hv.ordinary_element 0
    · simp
  exact hscalar.bind fun _ _ => ordinary_pure _

/-- Tuples are compared without internal faults if their fields are. -/
theorem ordinary_fieldsEqual {vs ws : List Value} (hvs : ∀ v ∈ vs, v.WellFormed)
    (hws : ∀ w ∈ ws, w.WellFormed)
    (h : ∀ v ∈ vs, ∀ w ∈ ws, (binary .equal v w).Ordinary) : (fieldsEqual vs ws).Ordinary := by
  induction vs generalizing ws with
  | nil =>
    unfold fieldsEqual
    exact ordinary_ok true
  | cons v vs ih =>
    cases ws with
    | nil =>
      unfold fieldsEqual
      exact ordinary_ok true
    | cons w ws =>
      obtain ⟨hv, hvs⟩ := List.forall_mem_cons.mp hvs
      obtain ⟨hw, hws⟩ := List.forall_mem_cons.mp hws
      have hrest : (fieldsEqual vs ws).Ordinary := ih hvs hws fun v hv w hw =>
        h v (List.mem_cons_of_mem _ hv) w (List.mem_cons_of_mem _ hw)
      unfold fieldsEqual
      refine (h v List.mem_cons_self w List.mem_cons_self).bind fun same hsame => ?_
      have hsame : same.WellFormed := invariant_wellFormed.binary hv hw hsame
      exact hsame.ordinary_truth.bind fun _ _ => hrest.bind fun _ _ => ordinary_pure _

/-- Two tuples are compared by their fields, other operands are not tuples. -/
theorem WellFormed.ordinary_binary_of_fields (ha : a.WellFormed) (hb : b.WellFormed)
    (hfields : ∀ vs ws, a.fields? = some vs → b.fields? = some ws → (fieldsEqual vs ws).Ordinary) :
    (binary op a b).Ordinary := by
  unfold Value.binary
  refine (ha.ordinary_operand _).bind fun x hx => (hb.ordinary_operand _).bind fun y hy => ?_
  have hx := invariant_wellFormed.operand ha hx
  have hy := invariant_wellFormed.operand hb hy
  split
  · rename_i vs _ ws
    split
    · simp
    · split
      · simp
      · exact (hfields vs ws rfl rfl).bind fun _ _ => ordinary_pure _
  · split
    · simp
    · exact hx.ordinary_binaryPlain hy op

theorem WellFormed.ordinary_binary (ha : a.WellFormed) (hb : b.WellFormed) (op : BinaryOp) :
    (binary op a b).Ordinary := by
  -- on the left operand: its fields are compared with those of the other, whatever these are
  induction ha generalizing b op with
  | @tuple types fields htypes hfields ih =>
    refine ordinary_binary_of_fields (.tuple htypes hfields) hb fun vs ws hvs hws => ?_
    obtain rfl := Option.some.inj hvs
    have hws := hb.fields hws
    exact ordinary_fieldsEqual hfields hws fun v hv w hw => ih v hv (hws w hw) .equal
  | input => exact ordinary_binary_of_fields .input hb nofun
  | output => exact ordinary_binary_of_fields .output hb nofun
  | empty h => exact ordinary_binary_of_fields (.empty h) hb nofun
  | sentinel h h' => exact ordinary_binary_of_fields (.sentinel h h') hb nofun
  | stored h h' => exact ordinary_binary_of_fields (.stored h h') hb nofun
  | mixed h h' h'' => exact ordinary_binary_of_fields (.mixed h h' h'') hb nofun
  | interval kind i => exact ordinary_binary_of_fields (.interval kind i) hb nofun

/-! ## Conversion -/

/-- An array that is neither empty nor null, identity or mixed stores its elements. -/
theorem WellFormed.eq_stored (hv : v.WellFormed) (hshape : v.shape? = some source)
    (hempty : source.isEmptyArray = false) (hsentinel : v.isSentinel = false)
    (hmixed : v.isMixed = false) : ∃ b, v = Value.stored source b := by
  cases hv with
  | stored _ _ =>
    obtain rfl := Option.some.inj hshape
    exact ⟨_, rfl⟩
  | empty h =>
    obtain rfl := Option.some.inj hshape
    rw [h] at hempty
    cases hempty
  | sentinel h _ =>
    rw [isSentinel_eq rfl, h] at hsentinel
    cases hsentinel
  | mixed _ _ _ => cases hmixed
  | _ => cases hshape

/-- An array of a basic kind stores its elements, unless it is the empty one. -/
theorem WellFormed.exists_stored (hv : v.WellFormed) (hshape : v.shape? = some source)
    (hempty : source.isEmptyArray = false) (hbasic : source.element.isBasic = true) :
    ∃ b, source.Fits b ∧ v = Value.stored source b := by
  cases hv with
  | stored hfits _ =>
    obtain rfl := Option.some.inj hshape
    exact ⟨_, hfits, rfl⟩
  | empty h =>
    obtain rfl := Option.some.inj hshape
    rw [h] at hempty
    cases hempty
  | sentinel h _ =>
    obtain rfl := Option.some.inj hshape
    rcases Kind.isSentinel_iff.mp h with hkind | hkind <;> rw [hkind] at hbasic <;> cases hbasic
  | mixed h _ _ =>
    obtain rfl := Option.some.inj hshape
    rw [h] at hbasic
    cases hbasic
  | _ => cases hshape

theorem WellFormed.ordinary_convertKind (hv : v.WellFormed) (hmixed : v.isMixed = false)
    (hshape : v.shape? = some source) (target : Shape) (mode : Mode) :
    (convertKind target v mode).Ordinary := by
  unfold Value.convertKind
  rw [hshape]
  dsimp only
  split
  · simp
  · rename_i hempty
    split
    · rename_i hsentinel
      refine (hv.ordinary_fillSentinel hsentinel _).bind fun x hx => ?_
      obtain ⟨_, _, b, -, -, -, rfl⟩ := fillSentinel_eq_ok hx
      exact (ordinary_convertBuffer b _ mode).bind fun buffer _ => ordinary_ofBuffer _ buffer
    · rename_i hsentinel
      obtain ⟨b, rfl⟩ := hv.eq_stored hshape (Bool.eq_false_iff.mpr hempty)
        (Bool.eq_false_iff.mpr hsentinel) hmixed
      exact (ordinary_convertBuffer b _ mode).bind fun buffer _ => ordinary_ofBuffer _ buffer

theorem WellFormed.ordinary_convertArray (hv : v.WellFormed) (hmixed : v.isMixed = false)
    (target : Shape) (mode : Mode) : (convertArray target v mode).Ordinary := by
  unfold Value.convertArray
  split
  · simp [notAllowed]
  · rename_i source hshape
    split
    · exact hv.ordinary_convertKind hmixed hshape target mode
    · split
      · exact ordinary_convertEmpty target mode
      · split
        · rename_i hsentinel
          split
          · simp [notAllowed]
          · exact (hv.ordinary_fillSentinel hsentinel _).bind fun filled _ =>
              ordinary_convertStored filled target mode
        · exact ordinary_convertStored v target mode

theorem WellFormed.ordinary_convertToArray (hv : v.WellFormed) (hmixed : v.isMixed = false)
    (target : Shape) (mode : Mode) : (convertToArray target v mode).Ordinary := by
  unfold Value.convertToArray
  split
  · simp [notAllowed]
  · split
    · rename_i interval _
      split
      · exact (fresh_vector _).wellFormed.ordinary_convertArray rfl target mode
      · simp [notAllowed]
    · exact hv.ordinary_convertArray hmixed target mode

/-- Into a tuple type field by field, into any other type at once. -/
theorem WellFormed.ordinary_convert_of_fields {type : ValueType} (hv : v.WellFormed)
    (hfields : ∀ types, type = .tuple types → ∀ fields : List Value,
      (∀ field ∈ fields, field.WellFormed) → (convertFields types fields mode).Ordinary) :
    (convert type v mode).Ordinary := by
  unfold Value.convert
  rw [hv.isView, if_neg Bool.false_ne_true]
  split
  · simp [notAllowed]
  · refine hv.ordinary_promoteMixed.bind fun x hx => ?_
    have hmixed := isMixed_of_promoteMixed hx
    have hx := hv.promoteMixed hx
    split
    · split <;> simp [notAllowed]
    · rename_i types _
      split
      · simp [notAllowed]
      · rename_i fields hx'
        split
        · simp
        · exact (hfields types rfl fields (hx.fields hx')).bind fun _ _ => ordinary_pure _
    · split <;> simp [notAllowed]
    · exact hx.ordinary_convertToArray hmixed _ mode
    · simp [notAllowed]
    · simp [notAllowed]

mutual

theorem WellFormed.ordinary_convert (type : ValueType) {v : Value} (hv : v.WellFormed)
    (mode : Mode) : (convert type v mode).Ordinary := by
  match type with
  | .tuple types =>
    refine hv.ordinary_convert_of_fields fun _ htypes fields hfields => ?_
    rw [← ValueType.tuple.inj htypes]
    exact ordinary_convertFields types hfields mode
  | .array _ => exact hv.ordinary_convert_of_fields nofun
  | .interval _ => exact hv.ordinary_convert_of_fields nofun
  | .input => exact hv.ordinary_convert_of_fields nofun
  | .output => exact hv.ordinary_convert_of_fields nofun
  | .unknown => exact hv.ordinary_convert_of_fields nofun

theorem ordinary_convertFields (types : List (Option String × ValueType)) {fields : List Value}
    (hfields : ∀ field ∈ fields, field.WellFormed) (mode : Mode) :
    (convertFields types fields mode).Ordinary := by
  match types, fields with
  | (name, type) :: types, x :: xs =>
    obtain ⟨hx, hxs⟩ := List.forall_mem_cons.mp hfields
    unfold convertFields
    exact (hx.ordinary_convert type mode).bind fun _ _ =>
      (ordinary_convertFields types hxs mode).bind fun _ _ => ordinary_pure _
  | [], _ =>
    unfold convertFields
    exact ordinary_ok []
  | _ :: _, [] =>
    unfold convertFields
    exact ordinary_ok []

end

/-! ## Printing -/

theorem ordinary_renderElements (s : Shape) (es : List Element) : (renderElements s es).Ordinary := by
  unfold renderElements
  split
  case h_4 =>
    refine Result.Ordinary.bind (Result.ordinary_mapM fun row _ => ?_) fun _ _ => ordinary_ok _
    simp [rowOf]
  all_goals exact ordinary_ok _

theorem WellFormed.ordinary_render (hv : v.WellFormed) : v.render.Ordinary := by
  unfold Value.render
  rw [hv.isView, if_neg Bool.false_ne_true]
  refine hv.ordinary_promoteMixed.bind fun x hx => ?_
  have hx := invariant_wellFormed.widened (hv.promoteMixed hx)
  dsimp only
  split
  · exact hx.ordinary_elements.bind fun _ _ => ordinary_renderElements _ _
  · simp

/-! ## Any operation -/

/-- **No operation on well-formed values has an internal fault**, whatever the operator, the target
type and the mode. The conversions of elements, the operators on them and the store into a buffer
say the same as their tables, so that no element comes to a table's last row either. -/
theorem ordinary_of_wellFormed (hv : v.WellFormed) (hw : w.WellFormed) :
    ((∀ op, (unary op v).Ordinary) ∧ (∀ op, (binary op v w).Ordinary) ∧
      v.lengthScalar.Ordinary ∧ v.rowsScalar.Ordinary ∧ v.columnsScalar.Ordinary ∧
      v.reverse.Ordinary ∧ (∀ type mode, (convert type v mode).Ordinary) ∧
      v.promoteMixed.Ordinary ∧ (∀ pos, (v.element pos).Ordinary) ∧ v.elements.Ordinary ∧
      (∀ pos e, (v.setElement pos e).Ordinary) ∧ v.render.Ordinary) ∧
    (∀ (kind : Kind) (e : Element), e.promote kind = e.promoteByTable kind ∧
      e.cast kind = e.castByTable kind ∧ (e.promoteByTable kind).Ordinary ∧
      (e.castByTable kind).Ordinary) ∧
    (∀ (op : BinaryOp) (d e : Element), Element.binary op d e = Element.binaryByTable op d e ∧
      (Element.binaryByTable op d e).Ordinary) ∧
    ∀ (b : Buffer) (pos : Nat) (e : Element), b.set pos e = b.setByTable pos e ∧
      (b.setByTable pos e).Ordinary := by
  refine ⟨⟨hv.ordinary_unary, hv.ordinary_binary hw, hv.ordinary_lengthScalar,
    hv.ordinary_matrixExtent 0 _, hv.ordinary_matrixExtent 1 _, hv.ordinary_reverse,
    fun type => hv.ordinary_convert type, hv.ordinary_promoteMixed, hv.ordinary_element,
    hv.ordinary_elements, ordinary_setElement v, hv.ordinary_render⟩, fun kind e => ?_,
    fun op d e => ?_, fun b pos e => ?_⟩
  · rw [e.promoteByTable_eq, e.castByTable_eq]
    exact ⟨rfl, rfl, e.ordinary_promote kind, e.ordinary_cast kind⟩
  · rw [Element.binaryByTable_eq]
    exact ⟨rfl, Element.ordinary_binary op d e⟩
  · rw [b.setByTable_eq]
    exact ⟨rfl, b.ordinary_set pos e⟩

/-- A tuple with a null in it does not compare to itself, but it has no internal fault. -/
theorem ordinary_of_wellFormed_pair :
    let items := vector (.integers #[1, 2])
    let v : Value := ⟨.tuple [(none, items.type), (some "rest", null.type)], .tuple [items, null]⟩
    v.WellFormed ∧
      binary .equal v v =
        .error (.invalidOperandKind "null and identity operands need a typed partner") ∧
      (binary .equal v v).Ordinary ∧ (convert (.tuple [(none, .unknown)]) v .cast).Ordinary ∧
      v.render.Ordinary := by
  intro items v
  have hv : v.WellFormed := by
    refine .tuple rfl (List.forall_mem_cons.mpr ⟨?_, List.forall_mem_singleton.mpr ?_⟩)
    · exact (fresh_vector _).wellFormed
    · exact (fresh_ofElement .null).wellFormed
  obtain ⟨⟨-, hbinary, -, -, -, -, hconvert, -, -, -, -, hrender⟩, -⟩ :=
    ordinary_of_wellFormed hv hv
  exact ⟨hv, rfl, hbinary .equal, hconvert _ _, hrender⟩

/-- An array of integers without storage is not well formed. -/
example : elements (sentinel (Shape.vector .integer 1)) =
    .error (.internal "element storage missing") := rfl

end Value

end ArrayMachine
