import ArrayMachine.Proofs.Operators.Stepping

/-!
# Reading through a view

An element of a view can be read by itself, or the view can be copied and the element read there.
The one follows the position to the root when it is asked for, the other follows all of them at once.
As long as the root has the shape it had when the view was made, both give the same element at every
position and the same fault behind the last one, whatever else became of the root.

A null or identity root stores nothing, and it is copied without a look at what the positions lead
to. So of such a root the selected positions have to be there (`Selection.Backed`). They are, unless
the variable was given an array of another shape, or a view, between two index steps.

A vector indexed by itself may come to hold an index that it has no element for. Then it can no
longer be copied, and the positions of all other indices can still be read.

* `index_view`: a view is made of what its root is at that time.
* `exists_reach_of_gather`: a copy holds what can be read.
* `exists_reach_bySelf`: a vector indexed by itself, index by index.
* `elementAt_as_copied`: views that indexing has made.
-/

namespace ArrayMachine

namespace Value

variable {v copy root : Value} {rs s t : Shape} {e : Element} {n p q : Nat}

/-! ## Arrays that variables hold -/

/-- An array of the shape, as a variable may hold it: with all its elements, without any, as a
literal, or as a view. -/
inductive HeldAs (rs : Shape) : Value → Prop where
  | stored {b : Buffer} : rs.Fits b → HeldAs rs (stored rs b)
  | bare : HeldAs rs (sentinel rs)
  | mixed {es : List Element} : rs.element = .mixed → rs.size = es.length →
    HeldAs rs ⟨.array rs, .mixed es⟩
  | view (view : View) : HeldAs rs (ofView rs view)

/-- So are all arrays that are well formed. -/
theorem WellFormed.heldAs (hv : v.WellFormed) (hs : v.shape? = some rs) : v.HeldAs rs := by
  cases hv with
  | input | output | interval _ _ | tuple _ _ => cases hs
  | empty _ | sentinel _ _ =>
    obtain rfl := Option.some.inj hs
    exact .bare
  | stored hfits _ =>
    obtain rfl := Option.some.inj hs
    exact .stored hfits
  | mixed hmixed _ hsize =>
    obtain rfl := Option.some.inj hs
    exact .mixed hmixed hsize

theorem HeldAs.shape?_eq (h : v.HeldAs rs) : v.shape? = some rs := by
  cases h <;> rfl

theorem HeldAs.length_eq (h : v.HeldAs rs) : v.length = .ok rs.size := by
  cases h <;> rfl

theorem element_ofView (hp : p < rs.size) (view : View) :
    ∃ fault, (ofView rs view).element p = .error fault :=
  ⟨_, if_neg (Nat.not_le.mpr hp)⟩

/-- Where one element can be read, all of them can. -/
theorem HeldAs.exists_element (hv : v.HeldAs rs) (h : v.element p = .ok e) (hq : q < rs.size) :
    ∃ f, v.element q = .ok f := by
  have hp : p < rs.size := lt_of_element hv.length_eq h
  cases hv with
  | @stored b hfits =>
    rw [← hfits.size, ← Buffer.length_elements] at hq
    exact ⟨_, element_stored_of_lt hfits hq⟩
  | bare => exact ⟨e, (element_sentinel_congr rfl hq hp).trans h⟩
  | mixed _ hsize =>
    rw [hsize] at hq
    exact ⟨_, element_mixed hsize hq⟩
  | view view =>
    obtain ⟨fault, hfault⟩ := element_ofView hp view
    rw [hfault] at h
    cases h

/-- Nothing but an array without elements, or a view of one, is null or identity. -/
theorem HeldAs.eq_sentinel (hv : v.HeldAs rs) (hsentinel : v.isSentinel = true)
    (hview : v.view? = none) : v = sentinel rs ∧ rs.element.isSentinel = true := by
  have hkind : rs.element.isSentinel = true := (isSentinel_eq hv.shape?_eq).symm.trans hsentinel
  cases hv with
  | stored hfits =>
    rw [isSentinel_stored hfits] at hsentinel
    cases hsentinel
  | bare => exact ⟨rfl, hkind⟩
  | mixed hmixed _ =>
    rw [hmixed] at hkind
    cases hkind
  | view _ => cases hview

/-- What is read of an array of a basic kind is of that kind. -/
theorem HeldAs.kind_of_element (hv : v.HeldAs rs) (hbasic : rs.element.isBasic = true)
    (h : v.element p = .ok e) : e.kind = rs.element := by
  have hp : p < rs.size := lt_of_element hv.length_eq h
  cases hv with
  | stored hfits =>
    rw [element_stored_eq_ok_iff hfits] at h
    rw [Buffer.kind_of_mem_elements (List.mem_of_getElem? h), hfits.kind]
  | bare =>
    rw [element_sentinel hp] at h
    cases hkind : rs.element <;>
      simp_all [elementWithin, sentinel, kind?, shape?, ValueType.shape?, Kind.isBasic]
  | mixed hmixed _ =>
    rw [hmixed] at hbasic
    cases hbasic
  | view view =>
    obtain ⟨fault, hfault⟩ := element_ofView hp view
    rw [hfault] at h
    cases h

end Value

namespace Selection

variable {σ : Selection} {rs : Shape} {copy root : Value} {e : Element} {pos : Nat}

/-! ## What a copy holds -/

/-- Of a null or identity root, every selected position is one of its own. A view that stands in for
the root has none. -/
def Backed (σ : Selection) (root : Value) : Prop :=
  root.isSentinel = true → ∀ {n pos : Nat}, root.length = .ok n → pos < σ.count n →
    root.view? = none ∧ ∃ p, σ.flatPosition root pos = .ok p ∧ p < n

/-- **A copy holds what is read of the root**, position by position. -/
theorem exists_reach_of_gather (hroot : root.HeldAs rs) (hbacked : σ.Backed root)
    (h : σ.gather root = .ok copy) :
    copy.length = .ok (σ.count rs.size) ∧ ∀ pos < σ.count rs.size,
      ∃ e, σ.reach root pos = .ok e ∧ copy.element pos = .ok e := by
  have hshape := hroot.shape?_eq
  have hlength := hroot.length_eq
  cases hsentinel : root.isSentinel with
  | true =>
    rw [gather_of_isSentinel hshape hlength hsentinel] at h
    obtain ⟨_, -, h⟩ := Result.bind_eq_ok_iff.mp h
    obtain rfl := Except.ok.inj h
    refine ⟨congrArg Except.ok (size_shape σ rs rs.size), fun pos hpos => ?_⟩
    obtain ⟨hview, p, hp, hlt⟩ := hbacked hsentinel hlength hpos
    obtain ⟨rfl, hkind⟩ := hroot.eq_sentinel hsentinel hview
    obtain ⟨e, he, -⟩ := Value.exists_element_sentinel hkind hlt
    rw [← size_shape σ rs] at hpos
    exact ⟨e, Result.bind_eq_ok_iff.mpr ⟨p, hp, he⟩,
      (Value.element_sentinel_congr (element_shape σ rs rs.size) hpos hlt).trans he⟩
  | false =>
    obtain ⟨c, hfits, rfl, hc⟩ := elements_of_gather hshape hlength hsentinel
      (fun hbasic pos e he => by
        obtain ⟨p, -, hp⟩ := Result.bind_eq_ok_iff.mp he
        exact hroot.kind_of_element hbasic hp) h
    refine ⟨congrArg Except.ok (size_shape σ rs rs.size), fun pos hpos => ?_⟩
    have hpos' : pos < c.elements.length := by
      rwa [Result.length_of_mapM hc, List.length_range]
    exact ⟨_, Result.getElem_of_mapM_range hc hpos', Value.element_stored_of_lt hfits hpos'⟩

/-- **A vector indexed by itself** is read wherever it holds an index of its own. -/
theorem exists_reach_bySelf {i : Int32} (hroot : root.HeldAs rs)
    (h : root.element pos = .ok (.integer i)) (hfirst : 1 ≤ i.toInt) (hlast : i.toInt ≤ rs.size) :
    ∃ e, bySelf.reach root pos = .ok e ∧ root.element (i.toInt - 1).toNat = .ok e := by
  have hposition : IndexList.position rs.size i.toInt = .ok (i.toInt - 1).toNat :=
    if_pos ⟨hfirst, hlast⟩
  have hflat : bySelf.flatPosition root pos = .ok (i.toInt - 1).toNat := by
    unfold flatPosition
    simp only []
    rw [hroot.length_eq, h]
    exact hposition
  obtain ⟨e, he⟩ := hroot.exists_element h (IndexList.position_lt hposition)
  exact ⟨e, Result.bind_eq_ok_iff.mpr ⟨_, hflat, he⟩, he⟩

end Selection

namespace Scope

variable {scope made now : Scope} {operand : IndexOperand} {indices : List IndexOperand}
  {lists : List IndexList} {base former root v copy : Value} {view : View} {handle : Handle}
  {rs shape : Shape} {σ : Selection} {pos : Nat}

/-! ## Views that indexing makes -/

theorem view?_of_viewOf (h : viewOf root handle σ = .ok v) : v.view? = some ⟨handle, σ⟩ := by
  obtain ⟨shape, -, h⟩ := Result.bind_eq_ok_iff.mp h
  obtain rfl := Except.ok.inj h
  rfl

theorem viewOf_eq (hroot : root.HeldAs rs) (handle : Handle) (σ : Selection) :
    viewOf root handle σ = .ok (Value.ofView (σ.shape rs rs.size) ⟨handle, σ⟩) := by
  unfold viewOf selectedShape shapeOfArray
  rw [hroot.shape?_eq, hroot.length_eq]
  rfl

/-- A step by index lists from a base that is neither empty nor indexed by itself. -/
theorem indexBy_view (hbase : scope.operandValue operand = .ok base)
    (h : scope.indexBy operand base lists = .ok v) (hview : v.view? = some view) :
    ∃ root, scope.get view.root = .ok root ∧ viewOf root view.root view.selection = .ok v := by
  have hmade {root : Value} {handle : Handle} {σ : Selection} (hroot : scope.get handle = .ok root)
      (hv : viewOf root handle σ = .ok v) :
      ∃ root, scope.get view.root = .ok root ∧ viewOf root view.root view.selection = .ok v := by
    obtain rfl := Option.some.inj ((view?_of_viewOf hv).symm.trans hview)
    exact ⟨root, hroot, hv⟩
  unfold indexBy at h
  split at h
  · obtain ⟨root, hroot, h⟩ := Result.bind_eq_ok_iff.mp h
    obtain ⟨σ, -, h⟩ := Result.bind_eq_ok_iff.mp h
    exact hmade hroot h
  · split at h
    · obtain ⟨σ, -, h⟩ := Result.bind_eq_ok_iff.mp h
      exact hmade hbase h
    · obtain ⟨promoted, -, h⟩ := Result.bind_eq_ok_iff.mp h
      obtain ⟨σ, -, h⟩ := Result.bind_eq_ok_iff.mp h
      rw [(Value.fresh_gather h).wellFormed.view?_eq_none] at hview
      cases hview

/-- **A view is made of what its root is at that time**, also if it comes from another view. -/
theorem index_view (h : scope.index operand indices = .ok v) (hview : v.view? = some view) :
    ∃ root, scope.get view.root = .ok root ∧ viewOf root view.root view.selection = .ok v := by
  obtain ⟨base, hbase, -⟩ := Result.bind_eq_ok_iff.mp h
  rcases index_eq_ok hbase h with rfl | ⟨lists, h⟩ | ⟨other, rfl, -, h⟩
  · cases hview
  · exact indexBy_view hbase h hview
  · obtain rfl := Option.some.inj ((view?_of_viewOf h).symm.trans hview)
    exact ⟨base, hbase, h⟩

/-! ## One element, and the copy of all -/

/-- An element of a view is read of the root. -/
theorem elementAt_ofView (hroot : scope.get handle = .ok root) (hpos : pos < shape.size) :
    scope.elementAt (Value.ofView shape ⟨handle, σ⟩) pos = σ.reach root pos := by
  show (if shape.size ≤ pos then _ else scope.get handle >>= fun r => σ.reach r pos) = _
  rw [if_neg (Nat.not_le.mpr hpos), hroot]
  rfl

theorem elementAt_ofView_of_le (hpos : shape.size ≤ pos) (view : View) :
    scope.elementAt (Value.ofView shape view) pos = .error (.outOfRange pos shape.size) :=
  if_pos hpos

/-- **Reading one element is reading the copy.** Take a view that indexing has made, and a stack on
which its root is an array of the shape that it had then. If the view can be copied there, its
elements are those of the copy, and behind the last one the faults are the same; of a null or
identity root the selected positions have to be there. And a vector indexed by itself can be read at
each position where it holds an index of its own, whether or not it can be copied. -/
theorem elementAt_as_copied (hmade : made.index operand indices = .ok v)
    (hview : v.view? = some view) (hthen : made.get view.root = .ok former)
    (hnow : now.get view.root = .ok root) (hformer : former.HeldAs rs) (hroot : root.HeldAs rs) :
    ∃ n, v.length = .ok n ∧
      (∀ copy, now.materialize v = .ok copy → view.selection.Backed root →
        (∀ pos < n, ∃ e, now.elementAt v pos = .ok e ∧ copy.element pos = .ok e) ∧
        ∀ pos, n ≤ pos → now.elementAt v pos = .error (.outOfRange pos n) ∧
          copy.element pos = .error (.outOfRange pos n)) ∧
      (view.selection = .bySelf → ∀ pos i, root.element pos = .ok (.integer i) →
        1 ≤ i.toInt → i.toInt ≤ n →
        ∃ e, now.elementAt v pos = .ok e ∧ root.element (i.toInt - 1).toNat = .ok e) := by
  obtain ⟨former', hthen', hv⟩ := index_view hmade hview
  obtain rfl := Except.ok.inj (hthen.symm.trans hthen')
  rw [viewOf_eq hformer] at hv
  obtain rfl := Except.ok.inj hv
  obtain ⟨handle, σ⟩ := view
  have hsize := Selection.size_shape σ rs rs.size
  refine ⟨σ.count rs.size, congrArg Except.ok hsize, fun copy hcopy hbacked => ?_, ?_⟩
  · rw [materialize_ofView hnow] at hcopy
    obtain ⟨hlength, hread⟩ := Selection.exists_reach_of_gather hroot hbacked hcopy
    refine ⟨fun pos hpos => ?_, fun pos hpos => ⟨?_, Value.element_of_le hlength hpos⟩⟩
    · rw [elementAt_ofView hnow (hsize ▸ hpos)]
      exact hread pos hpos
    · rw [← hsize] at hpos ⊢
      exact elementAt_ofView_of_le hpos _
  · rintro rfl pos i hi hfirst hlast
    have hpos : pos < (Selection.bySelf.shape rs rs.size).size :=
      Value.lt_of_element hroot.length_eq hi
    rw [elementAt_ofView hnow hpos]
    exact Selection.exists_reach_bySelf hroot hi hfirst hlast

/-- A vector is indexed by itself, and then its last element is overwritten by one that is no index.
The view cannot be copied any more. It can be read at the two other positions, and where it could be
copied it was read alike. -/
theorem elementAt_as_copied_stale :
    let made := ((empty 8).pushVariable (.vector (.integers #[2, 3, 1]))).2
    let root : Handle := ⟨0, 0⟩
    let now := made.write root (.vector (.integers #[2, 3, 9]))
    let v := Value.ofView (Shape.vector .integer 3) ⟨root, .bySelf⟩
    made.index (.anchored root) [.anchored root] = .ok v ∧
      (∀ pos < 3, ∃ e, made.elementAt v pos = .ok e ∧
        (Value.vector (.integers #[3, 1, 2])).element pos = .ok e) ∧
      now.materialize v = .error (.indexOutOfRange 9 3) ∧
      now.elementAt v 0 = .ok (.integer 3) ∧ now.elementAt v 1 = .ok (.integer 9) := by
  intro made root now v
  have hmade : made.index (.anchored root) [.anchored root] = .ok v := rfl
  have hformer : (Value.vector (.integers #[2, 3, 1])).HeldAs (Shape.vector .integer 3) :=
    (Value.fresh_vector _).wellFormed.heldAs rfl
  have hroot : (Value.vector (.integers #[2, 3, 9])).HeldAs (Shape.vector .integer 3) :=
    (Value.fresh_vector _).wellFormed.heldAs rfl
  have hthen : made.get root = .ok (.vector (.integers #[2, 3, 1])) := rfl
  have hnow : now.get root = .ok (.vector (.integers #[2, 3, 9])) := rfl
  obtain ⟨n, hn, hcopy, -⟩ := elementAt_as_copied hmade rfl hthen hthen hformer hformer
  obtain ⟨m, hm, -, hself⟩ := elementAt_as_copied hmade rfl hthen hnow hformer hroot
  obtain rfl : 3 = n := Except.ok.inj hn
  obtain rfl : 3 = m := Except.ok.inj hm
  obtain ⟨e, he, hfirst⟩ := hself rfl 0 2 rfl (by decide) (by decide)
  obtain ⟨f, hf, hsecond⟩ := hself rfl 1 3 rfl (by decide) (by decide)
  obtain rfl : Element.integer 3 = e := Except.ok.inj hfirst
  obtain rfl : Element.integer 9 = f := Except.ok.inj hsecond
  exact ⟨hmade, (hcopy _ rfl nofun).1, rfl, he, hf⟩

/-- **Null roots that have no such element.** A view of the last of three integers is indexed once
more after the variable was given a vector of one null, and so is a view of a variable that was given
a view of this vector. The views that this makes can be copied, to a null, and their elements cannot
be read. -/
theorem elementAt_not_as_copied :
    let first := ((empty 8).pushVariable (.vector (.integers #[1, 2, 3]))).2
    let start := (first.pushVariable (.vector (.integers #[5]))).2
    let a : Handle := ⟨0, 0⟩
    let b : Handle := ⟨1, 1⟩
    let last : View := ⟨a, .vector (.many #[2])⟩
    let only : View := ⟨b, .vector (.many #[0])⟩
    let null := Value.sentinel (Shape.vector .null 1)
    let mirror := Value.ofView (Shape.vector .null 1) ⟨a, .vector (.many #[0])⟩
    let later := (start.write a null).write b mirror
    let one : IndexOperand := .value (.vector (.integers #[1]))
    start.index (.anchored a) [.value (.vector (.integers #[3]))] =
        .ok (.ofView (Shape.vector .integer 1) last) ∧
      start.index (.anchored b) [one] = .ok (.ofView (Shape.vector .integer 1) only) ∧
      later.get a = .ok null ∧ later.get b = .ok mirror ∧
      (later.index (.value (.ofView (Shape.vector .integer 1) last)) [one] =
          .ok (.ofView (Shape.vector .null 1) last) ∧
        later.materialize (.ofView (Shape.vector .null 1) last) = .ok null ∧
        later.elementAt (.ofView (Shape.vector .null 1) last) 0 = .error (.outOfRange 2 1)) ∧
      (later.index (.value (.ofView (Shape.vector .integer 1) only)) [one] =
          .ok (.ofView (Shape.vector .null 1) only) ∧
        later.materialize (.ofView (Shape.vector .null 1) only) = .ok null ∧
        ∃ text, later.elementAt (.ofView (Shape.vector .null 1) only) 0 = .error (.internal text)) ∧
      null.element 0 = .ok .null :=
  ⟨rfl, rfl, rfl, rfl, ⟨rfl, rfl, rfl⟩, ⟨rfl, rfl, _, rfl⟩, rfl⟩

end Scope

end ArrayMachine
