import ArrayMachine.Proofs.Value.Conversion
import ArrayMachine.Proofs.Value.Meeting
import ArrayMachine.Proofs.Value.Resizing

/-!
# What an assignment stores

A value comes into a vector or a matrix as a whole: the elements of a literal meet at one kind, null
and identity arrays are filled, an interval becomes the vector of its members, a scalar is spread
over the target, and a buffer is promoted and resized. What is stored in the end is nonetheless what
the value has for each position, promoted to the kind of the target (`Value.Fills`).

* `PromotesTo`: the changes on the way, which promote each element on its own.
* `fills_convert`: what is stored on assignment.
-/

namespace ArrayMachine

/-! ## The same extents -/

namespace ResizeRule

@[simp] theorem le_sameSize {a : ResizeRule} : a ≤ sameSize ↔ a = sameSize := by
  cases a <;> decide

@[simp] theorem max_le {a b c : ResizeRule} : max a b ≤ c ↔ a ≤ c ∧ b ≤ c := by
  cases a <;> cases b <;> cases c <;> decide

@[simp] theorem forAxis_eq_sameSize {source target : Nat} :
    forAxis source target = sameSize ↔ source = target := by
  unfold forAxis
  split
  · simpa
  · split <;> simpa

end ResizeRule

namespace Shape

variable {source target : Shape}

theorem dims_of_vector (h : source.rank = .vector) : ∃ e, source.dims = .fixed [e] := by
  unfold rank at h
  split at h <;> simp_all

theorem dims_of_matrix (h : source.rank = .matrix) :
    ∃ e f rest, source.dims = .fixed (e :: f :: rest) := by
  unfold rank at h
  split at h
  · cases h
  · cases h
  · cases h
  · rename_i extents hnil hone hdims
    rcases extents with _ | ⟨e, _ | ⟨f, rest⟩⟩
    · exact (hnil rfl).elim
    · exact (hone e rfl).elim
    · exact ⟨e, f, rest, hdims⟩

theorem extent_of_vector (h : source.rank = .vector) : source.extent 1 = 0 := by
  obtain ⟨e, he⟩ := dims_of_vector h
  simp [extent, extents, he]

/-- The rule that a source needs covers each axis. -/
theorem forAxis_le_of_resizeNeeded {rule : ResizeRule} (hrank : source.rank = target.rank)
    (hdims : target.rank = .vector ∨ target.rank = .matrix)
    (h : source.resizeNeeded target ≤ rule) :
    ∀ axis < 2, ResizeRule.forAxis (source.extent axis) (target.extent axis) ≤ rule := by
  rcases hdims with hdims | hdims
  · obtain ⟨e, he⟩ := dims_of_vector (hrank.trans hdims)
    obtain ⟨f, hf⟩ := dims_of_vector hdims
    simp only [resizeNeeded, extents, he, hf, List.map_cons, List.zipWith_cons_cons,
      List.foldr_cons, ResizeRule.max_le] at h
    rintro (_ | _ | axis) haxis
    · simpa [extent, extents, he, hf] using h.1
    · rw [extent_of_vector (hrank.trans hdims), extent_of_vector hdims]
      exact Nat.zero_le _
    · omega
  · obtain ⟨e, e', es, he⟩ := dims_of_matrix (hrank.trans hdims)
    obtain ⟨f, f', fs, hf⟩ := dims_of_matrix hdims
    simp only [resizeNeeded, extents, he, hf, List.map_cons, List.zipWith_cons_cons,
      List.foldr_cons, ResizeRule.max_le] at h
    rintro (_ | _ | axis) haxis
    · simpa [extent, extents, he, hf] using h.1
    · simpa [extent, extents, he, hf] using h.2.1
    · omega

/-- A source that needs no resizing has the extents of the target. -/
theorem extent_of_sameSize (hrank : source.rank = target.rank)
    (hdims : target.rank = .vector ∨ target.rank = .matrix)
    (h : source.resizeNeeded target ≤ .sameSize) :
    ∀ axis < 2, source.extent axis = target.extent axis := fun axis haxis =>
  ResizeRule.forAxis_eq_sameSize.mp
    (ResizeRule.le_sameSize.mp (forAxis_le_of_resizeNeeded hrank hdims h axis haxis))

end Shape

namespace Value

variable {x y z w : Value} {target source : Shape} {b c : Buffer} {n : Nat}

/-! ## Promotion of all elements -/

/-- `y` has the elements of `x`, each of them promoted. -/
structure PromotesTo (x y : Value) : Prop where
  length : y.length = x.length
  element : ∀ {pos : Nat} {f : Element}, y.element pos = .ok f →
    ∃ e k, x.element pos = .ok e ∧ e.promote k = .ok f

theorem PromotesTo.refl (x : Value) : x.PromotesTo x :=
  ⟨rfl, fun h => ⟨_, _, h, Element.promote_of_kind rfl⟩⟩

theorem PromotesTo.trans (h : x.PromotesTo y) (h' : y.PromotesTo z) : x.PromotesTo z := by
  refine ⟨h'.length.trans h.length, fun hz => ?_⟩
  obtain ⟨f, k, hf, hpromote⟩ := h'.element hz
  obtain ⟨e, j, he, hpromote'⟩ := h.element hf
  exact ⟨e, k, he, Element.promote_trans hpromote' hpromote⟩

theorem element_sentinel {shape : Shape} {pos : Nat} (hpos : pos < shape.size) :
    (sentinel shape).element pos = (sentinel shape).elementWithin pos := by
  show (if shape.size ≤ pos then _ else _) = _
  rw [if_neg (Nat.not_le.mpr hpos)]

theorem element_null {shape : Shape} (h : shape.element = .null) {pos : Nat}
    (hpos : pos < shape.size) : (sentinel shape).element pos = .ok .null := by
  rw [element_sentinel hpos]
  simp [elementWithin, kind?, shape?, sentinel, ValueType.shape?, h]

theorem element_identity {shape : Shape} (h : shape.element = .identity) {pos : Nat}
    (hpos : pos < shape.size) : (sentinel shape).element pos = .ok .identity := by
  rw [element_sentinel hpos]
  simp [elementWithin, kind?, shape?, sentinel, ValueType.shape?, h]

theorem exists_element_sentinel {shape : Shape} (hkind : shape.element.isSentinel = true) {pos : Nat}
    (hpos : pos < shape.size) :
    ∃ e, (sentinel shape).element pos = .ok e ∧ e.kind = shape.element := by
  rcases Kind.isSentinel_iff.mp hkind with hnull | hidentity
  · exact ⟨.null, element_null hnull hpos, hnull.symm⟩
  · exact ⟨.identity, element_identity hidentity hpos, hidentity.symm⟩

/-- Where nothing is stored, the same is read everywhere. -/
theorem element_sentinel_congr {s t : Shape} {p q : Nat} (hkind : s.element = t.element)
    (hp : p < s.size) (hq : q < t.size) : (sentinel s).element p = (sentinel t).element q := by
  rw [element_sentinel hp, element_sentinel hq]
  simp [elementWithin, sentinel, kind?, shape?, ValueType.shape?, hkind]

/-- The elements of a literal. -/
theorem element_mixed {shape : Shape} {es : List Element} (hsize : shape.size = es.length)
    {pos : Nat} (hpos : pos < es.length) :
    element ⟨.array shape, .mixed es⟩ pos = .ok es[pos] := by
  show (if shape.size ≤ pos then _ else _) = _
  rw [if_neg (by omega)]
  simp [elementWithin, hpos]

/-- One element, promoted, in every place. -/
theorem promotesTo_filled {shape : Shape} {e : Element} {k : Kind}
    (hread : ∀ {pos}, pos < shape.size → (sentinel shape).element pos = .ok e)
    (hc : Buffer.filled k shape.size e = .ok c) :
    (sentinel shape).PromotesTo (stored (shape.withElement k) c) := by
  have hfits : (shape.withElement k).Fits c := Shape.fits_filled hc
  obtain ⟨-, r, hr, hall⟩ := Buffer.elements_filled hc
  refine ⟨rfl, fun {pos f} hf => ?_⟩
  rw [element_stored_eq_ok_iff hfits, hall, List.getElem?_replicate] at hf
  split at hf
  · rename_i hpos
    obtain rfl := Option.some.inj hf
    exact ⟨e, k, hread hpos, hr⟩
  · cases hf

theorem promotesTo_fillSentinel {k : Kind} (h : x.fillSentinel k = .ok y) : x.PromotesTo y := by
  obtain ⟨shape, e, c, rfl, ⟨hnull, rfl⟩ | ⟨hidentity, rfl⟩, hc, rfl⟩ := fillSentinel_eq_ok h
  · exact promotesTo_filled (element_null hnull) hc
  · exact promotesTo_filled (element_identity hidentity) hc

/-- A literal of nulls, or of identities, stays what it is. -/
theorem promotesTo_sentinel {shape : Shape} {es : List Element} {k : Kind}
    (hsize : shape.size = es.length) (hk : k.isSentinel = true) (h : ∀ e ∈ es, e.kind = k) :
    PromotesTo ⟨.array shape, .mixed es⟩ (sentinel (shape.withElement k)) := by
  refine ⟨rfl, fun {pos f} hf => ?_⟩
  have hlength : (sentinel (shape.withElement k)).length = .ok shape.size := rfl
  have hpos : pos < shape.size := lt_of_element hlength hf
  have hpos' : pos < es.length := by rwa [← hsize]
  refine ⟨es[pos], k, element_mixed hsize hpos', ?_⟩
  have hkind := h es[pos] (List.getElem_mem hpos')
  rw [Element.promote_of_kind hkind, ← hf]
  cases k with
  | null =>
    have hread : (sentinel (shape.withElement .null)).element pos = .ok .null :=
      element_null rfl hpos
    rw [hread]
    cases he : es[pos] <;> simp_all [Element.kind]
  | identity =>
    have hread : (sentinel (shape.withElement .identity)).element pos = .ok .identity :=
      element_identity rfl hpos
    rw [hread]
    cases he : es[pos] <;> simp_all [Element.kind]
  | _ => cases hk

theorem promotesTo_promoteMixed (hx : x.Coherent) (h : x.promoteMixed = .ok y) :
    x.PromotesTo y := by
  rcases promoteMixed_eq_ok h with ⟨-, rfl⟩ | ⟨shape, elements, k, rfl, hk, hy⟩
  · exact .refl _
  · cases hx with
    | mixed hsize =>
      rcases hy with ⟨hsentinel, rfl⟩ | ⟨buffer, hbuffer, rfl⟩
      · exact promotesTo_sentinel hsize hsentinel
          ((Buffer.commonKind?_eq_sentinel_iff hsentinel).mp hk).2
      · obtain ⟨hkind, hall⟩ := Buffer.ofElements_eq_ok_iff.mp hbuffer
        have hfits : (shape.withElement k).Fits buffer :=
          ⟨hkind, (Buffer.length_of_ofElements hbuffer).trans hsize.symm⟩
        refine ⟨rfl, fun {pos f} hf => ?_⟩
        obtain ⟨hpos, rfl⟩ := List.getElem?_eq_some_iff.mp ((element_stored_eq_ok_iff hfits).mp hf)
        have hpos' : pos < elements.length := by rwa [← Result.length_of_mapM hall]
        exact ⟨_, k, element_mixed hsize hpos', Result.getElem_of_mapM hall hpos' hpos⟩

/-- The members of an interval. -/
theorem element_interval {interval : Interval} {pos : Nat} (hpos : pos < interval.length) :
    (ofInterval interval).element pos = .ok (.integer (interval.member pos)) := by
  show (if interval.length ≤ pos then _ else Element.integer <$> interval.get pos) = _
  rw [if_neg (Nat.not_le.mpr hpos), Interval.get, if_pos hpos]
  rfl

/-- The vector of an interval's members has the elements that the interval has. -/
theorem element_members (interval : Interval) (pos : Nat) :
    (members interval).element pos = (ofInterval interval).element pos := by
  let b := Buffer.integers interval.toList.toArray
  have hfits : (Shape.vector b.kind b.length).Fits b := ⟨rfl, rfl⟩
  show (stored (Shape.vector b.kind b.length) b).element pos =
    if interval.length ≤ pos then .error (.outOfRange pos interval.length)
    else Element.integer <$> interval.get pos
  rw [element_stored hfits, Buffer.get, Buffer.get?_eq, Interval.get_eq]
  simp only [b, Buffer.elements, Buffer.length, List.getElem?_map, List.size_toArray,
    Interval.length_toList]
  by_cases hpos : pos < interval.toList.length
  · rw [List.getElem?_eq_getElem hpos]
    rw [Interval.length_toList] at hpos
    rw [if_neg (Nat.not_le.mpr hpos)]
    rfl
  · rw [List.getElem?_eq_none (Nat.le_of_not_lt hpos)]
    rw [Interval.length_toList] at hpos
    rw [if_pos (Nat.le_of_not_lt hpos)]
    rfl

theorem promotesTo_members (interval : Interval) :
    (ofInterval interval).PromotesTo (members interval) := by
  have hlength : (members interval).length = .ok interval.length := by
    show Except.ok interval.toList.toArray.size = _
    simp
  refine ⟨hlength, fun {pos f} hf => ⟨f, f.kind, ?_, Element.promote_of_kind rfl⟩⟩
  rw [← element_members]
  exact hf

theorem promotesTo_widened (hx : x.Coherent) : x.PromotesTo x.widened := by
  cases hx with
  | interval interval => exact promotesTo_members interval
  | _ => exact .refl _

/-! ## What fills a target -/

/-- `x` has one element, or as many as the target, and `c` holds what it has for each position. -/
structure Fills (x : Value) (target : Shape) (n : Nat) (c : Buffer) : Prop where
  fits : target.Fits c
  length : x.length = .ok n
  many : n = 1 ∨ n = target.size
  elements : (List.range target.size).mapM (x.supplyAs target.element (n = 1)) = .ok c.elements

/-- What is stored of a value after its elements were promoted is what is stored of it at once. -/
theorem Fills.of_promotesTo (h : y.Fills target n c) (hxy : x.PromotesTo y) :
    x.Fills target n c := by
  refine ⟨h.fits, hxy.length ▸ h.length, h.many, Result.mapM_of_ok ?_ h.elements⟩
  intro pos g hg
  obtain ⟨f, hf, hpromote⟩ := Result.bind_eq_ok_iff.mp hg
  obtain ⟨e, k, he, hpromote'⟩ := hxy.element hf
  exact Result.bind_eq_ok_iff.mpr ⟨e, he, Element.promote_trans hpromote' hpromote⟩

/-- The empty array can only take on extents that are zero. -/
theorem extentForEmpty_eq_ok {extent found : Extent}
    (h : extentForEmpty .assignment extent = .ok found) : extent = some 0 := by
  unfold extentForEmpty at h
  split at h
  · cases h
  · rename_i size
    split at h
    · cases h
    · rename_i hzero
      have hsize : ¬ 0 < size := fun hlt => hzero ⟨hlt, rfl⟩
      rw [Nat.eq_zero_of_not_pos hsize]

theorem size_of_zeros (hrank : target.rank = .vector ∨ target.rank = .matrix)
    (h : ∀ extent ∈ target.extents, extent = some 0) : target.size = 0 := by
  have hextent : target.extent 0 = 0 := by
    unfold Shape.extent
    cases hfirst : target.extents[0]? with
    | none => rfl
    | some extent =>
      rw [h extent (List.mem_of_getElem? hfirst)]
      rfl
  rcases hrank with hrank | hrank
  · rw [Shape.size_of_vector hrank, hextent]
  · rw [Shape.size_of_matrix hrank, hextent, Nat.zero_mul]
    rfl

theorem fills_convertEmpty (hrank : target.rank = .vector ∨ target.rank = .matrix)
    (hx : x.length = .ok 0) (h : convertEmpty target .assignment = .ok w) :
    ∃ c, x.Fills target 0 c ∧ w = stored target c := by
  have hstored := convertEmpty_assignment (Shape.isEmptyArray_of_rank hrank) h
  obtain ⟨c, hfits, rfl⟩ := hstored
  unfold convertEmpty at h
  split at h
  · cases h
  · obtain ⟨extents, hextents, -⟩ := Result.bind_eq_ok_iff.mp h
    have hzeros : ∀ extent ∈ target.extents, extent = some 0 := by
      intro extent hmem
      have hin := List.mem_map_of_mem (f := extentForEmpty .assignment) hmem
      rw [Result.mapM_eq_ok_iff.mp hextents] at hin
      obtain ⟨found, -, hfound⟩ := List.mem_map.mp hin
      exact extentForEmpty_eq_ok hfound.symm
    have hsize := size_of_zeros hrank hzeros
    refine ⟨c, ⟨hfits, hx, .inr hsize.symm, ?_⟩, rfl⟩
    have hnone : c.elements = [] := by
      rw [← List.length_eq_zero_iff, Buffer.length_elements, hfits.size, hsize]
    rw [hsize, hnone]
    rfl

/-- A coherent value with a shape and stored elements. -/
theorem Coherent.eq_stored (hx : x.Coherent) (hshape : x.shape? = some source)
    (hbuffer : x.buffer? = some b) : source.Fits b ∧ x = Value.stored source b := by
  cases hx with
  | stored hfits =>
    obtain rfl := Option.some.inj hshape
    obtain rfl := Option.some.inj hbuffer
    exact ⟨hfits, rfl⟩
  | _ => cases hbuffer

theorem Coherent.length_of_shape (hx : x.Coherent) (hshape : x.shape? = some source) :
    x.length = .ok source.size := by
  cases hx with
  | bare type =>
    cases type with
    | array shape =>
      obtain rfl := Option.some.inj hshape
      rfl
    | _ => cases hshape
  | stored hfits =>
    obtain rfl := Option.some.inj hshape
    rfl
  | mixed hsize =>
    obtain rfl := Option.some.inj hshape
    rfl
  | interval interval => cases hshape
  | tuple hfields => cases hshape

/-- A promoted buffer of the target's size. -/
theorem fills_promoted (hsource : source.Fits b) (htarget : target.Fits c)
    (hsize : source.size = target.size)
    (hall : b.elements.mapM (Element.promote target.element) = .ok c.elements) :
    (stored source b).Fills target source.size c := by
  refine ⟨htarget, rfl, .inr hsize, ?_⟩
  rw [← htarget.size, ← Buffer.length_elements]
  refine Result.mapM_range_eq_ok fun pos hpos => ?_
  have hpos' : pos < b.elements.length := by rwa [← Result.length_of_mapM hall]
  -- with a single element, its position is the only one there is
  have hindex : (if source.size = 1 then 0 else pos) = pos := by
    have hlength : b.elements.length = source.size := by rw [Buffer.length_elements, hsource.size]
    split <;> omega
  refine Result.bind_eq_ok_iff.mpr ⟨b.elements[pos], ?_, Result.getElem_of_mapM hall hpos' hpos⟩
  rw [supply_eq, hindex]
  exact element_stored_of_lt hsource hpos'

/-- A promoted scalar in every place. -/
theorem fills_convertScalar (hsource : source.Fits b) (hrank : source.rank = .scalar)
    (hall : b.elements.mapM (Element.promote target.element) = .ok c.elements)
    (h : convertScalar target c = .ok w) :
    ∃ d, (stored source b).Fills target 1 d ∧ w = stored target d := by
  obtain ⟨d, hfits, rfl⟩ := storedAs_convertScalar h
  unfold convertScalar at h
  split at h
  · cases h
  · obtain ⟨e, he, h⟩ := Result.bind_eq_ok_iff.mp h
    obtain ⟨filled, hfilled, h⟩ := Result.bind_eq_ok_iff.mp h
    obtain ⟨-, -, hd⟩ := ofBuffer_eq_ok_iff.mp h
    obtain rfl : d = filled := Payload.elements.inj (Value.mk.inj hd).2
    obtain ⟨-, r, hr, hrepeat⟩ := Buffer.elements_filled hfilled
    have hone : source.size = 1 := by
      unfold Shape.size
      rw [hrank]
    refine ⟨d, ⟨hfits, congrArg Except.ok hone, .inl rfl, ?_⟩, rfl⟩
    rw [← hfits.size, ← Buffer.length_elements]
    refine Result.mapM_range_eq_ok fun pos hpos => ?_
    obtain ⟨hzero, rfl⟩ := List.getElem?_eq_some_iff.mp (Buffer.get_eq_ok_iff.mp he)
    have hzero' : 0 < b.elements.length := by rwa [← Result.length_of_mapM hall]
    have hpromote := Result.getElem_of_mapM hall hzero' hzero
    refine Result.bind_eq_ok_iff.mpr ⟨_, element_stored_of_lt hsource hzero', ?_⟩
    have hr' : d.elements[pos] = r := by simp [hrepeat]
    rw [hr']
    exact Element.promote_trans hpromote hr

/-- A buffer resized to the extents it has. -/
theorem fills_convertExtents (hsource : source.Fits b) (hrank : source.rank = target.rank)
    (hdims : target.rank = .vector ∨ target.rank = .matrix)
    (hpromote : b.promote target.element = .ok c)
    (h : convertExtents target source x c .assignment = .ok w) :
    (stored source b).Fills target source.size c ∧ w = stored target c := by
  obtain ⟨extents, resized, hextents, hneeded, hresized, hw⟩ := convertExtents_eq_ok h
  obtain rfl := resolveExtents_assignment hextents
  rw [Shape.ofExtents_extents (Shape.isEmptyArray_of_rank hdims)] at hneeded hresized hw
  obtain ⟨hkind, hall⟩ := Buffer.elements_promote hpromote
  have hlength : c.length = source.size := by
    rw [← Buffer.length_elements, Result.length_of_mapM hall, Buffer.length_elements, hsource.size]
  have hextent := Shape.extent_of_sameSize hrank hdims hneeded
  have hsame : source.size = target.size ∧ resized = c := by
    rcases hdims with hvector | hmatrix
    · rw [hvector] at hrank
      have hlong := hextent 0 (by decide)
      have hsize := Shape.size_of_vector hrank
      rw [if_pos hrank, ← hlong, ← hsize, ← hlength, Buffer.resizeVector_same] at hresized
      exact ⟨by rw [hsize, hlong, Shape.size_of_vector hvector], (Except.ok.inj hresized).symm⟩
    · rw [hmatrix] at hrank
      have hrows := hextent 0 (by decide)
      have hcolumns := hextent 1 (by decide)
      have hsize := Shape.size_of_matrix hrank
      rw [if_neg (by rw [hrank]; decide), ← hrows, ← hcolumns] at hresized
      have hcount := Buffer.countable_of_resizeMatrix (hlength.trans hsize) hresized
      rw [Buffer.resizeMatrix_same (hlength.trans (Shape.size_of_countable hrank hcount)) hcount]
        at hresized
      exact ⟨by rw [hsize, hrows, hcolumns, Shape.size_of_matrix hmatrix],
        (Except.ok.inj hresized).symm⟩
  obtain ⟨hsize, rfl⟩ := hsame
  obtain ⟨hfits, -, rfl⟩ := ofBuffer_eq_ok_iff.mp hw
  exact ⟨fills_promoted hsource hfits hsize hall, rfl⟩

theorem fills_convertStored (hx : x.Coherent)
    (hdims : target.rank = .vector ∨ target.rank = .matrix)
    (h : convertStored target x .assignment = .ok w) :
    ∃ n c, x.Fills target n c ∧ w = stored target c := by
  obtain ⟨source, b, c, hshape, hbuffer, hpromote, hcases⟩ := convertStored_cases h
  obtain ⟨hsource, rfl⟩ := hx.eq_stored hshape hbuffer
  have hpromote : b.promote target.element = .ok c := hpromote
  rcases hcases with ⟨hscalar, -⟩ | ⟨hscalar, hw⟩ | ⟨hrank, -, hw⟩
  · rw [hscalar] at hdims
    rcases hdims with hdims | hdims <;> cases hdims
  · obtain ⟨d, hd, rfl⟩ :=
      fills_convertScalar hsource hscalar (Buffer.elements_promote hpromote).2 hw
    exact ⟨1, d, hd, rfl⟩
  · obtain ⟨hc, rfl⟩ := fills_convertExtents hsource hrank hdims hpromote hw
    exact ⟨_, c, hc, rfl⟩

theorem fills_convertArray (hx : x.Coherent)
    (hrank : target.rank = .vector ∨ target.rank = .matrix)
    (h : convertArray target x .assignment = .ok w) :
    ∃ n c, x.Fills target n c ∧ w = stored target c := by
  obtain ⟨source, hsource, hcases⟩ := convertArray_cases h
  rcases hcases with ⟨hempty, -⟩ | ⟨-, hempty, hw⟩ | ⟨y, -, hy, hw⟩
  · rw [Shape.isEmptyArray_of_rank hrank] at hempty
    cases hempty
  · have hlength : x.length = .ok 0 := by
      rw [hx.length_of_shape hsource, Shape.size_of_isEmptyArray hempty]
    obtain ⟨c, hc, rfl⟩ := fills_convertEmpty hrank hlength hw
    exact ⟨0, c, hc, rfl⟩
  · rcases hy with rfl | hy
    · exact fills_convertStored hx hrank hw
    · obtain ⟨n, c, hc, rfl⟩ := fills_convertStored (coherent_fillSentinel hy) hrank hw
      exact ⟨n, c, hc.of_promotesTo (promotesTo_fillSentinel hy), rfl⟩

/-- **What is assigned to a vector or a matrix** is what the value has for each position. -/
theorem fills_convert (hx : x.Coherent)
    (hrank : target.rank = .vector ∨ target.rank = .matrix)
    (h : convert (.array target) x .assignment = .ok w) :
    ∃ n c, x.Fills target n c ∧ w = stored target c := by
  obtain ⟨y, hy, ⟨shape, hshape, h⟩ | ⟨hunknown, -⟩ | ⟨kind, hkind, -⟩⟩ := convert_eq_ok rfl h
  · obtain rfl := ValueType.array.inj hshape
    have hxy := promotesTo_promoteMixed hx hy
    have hcoherent := hx.promoteMixed hy
    have hw := (convertToArray_eq_ok h).2
    obtain ⟨n, c, hc, rfl⟩ := fills_convertArray (invariant_coherent.widened hcoherent) hrank hw
    exact ⟨n, c, hc.of_promotesTo (hxy.trans (promotesTo_widened hcoherent)), rfl⟩
  · cases hunknown
  · cases hkind

end Value

end ArrayMachine
