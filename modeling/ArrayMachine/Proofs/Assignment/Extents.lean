import ArrayMachine.Proofs.Assignment.Whole

/-!
# What an assignment asks of the extents

Assignment to a variable of an array type lets no more than one element into other extents than
those of the type. Assignment through a view counts elements and does not look at rank or extents:
it takes the elements of the source in their order, so a vector enters a view of a matrix row by
row, and a matrix one of other rows and columns. Only between vectors do the two ask for the same.

* `Value.sameExtents_of_convert`: what assignment to a variable asks.
* `Session.assign_congr_elements`: a view tells no two sources of the same elements apart.
* `Session.assign_through_counted`: what an assignment through a view asks.
* `Session.assign_through_reshapes`: a vector and a matrix that a view takes and its root does not.
-/

namespace ArrayMachine

/-! ## Extents -/

namespace Shape

variable {source target : Shape}

/-- The two shapes have the same rank, and the same extent along each axis. -/
structure SameExtents (source target : Shape) : Prop where
  rank : source.rank = target.rank
  extent : ∀ axis, axis < 2 → source.extent axis = target.extent axis

theorem sameExtents_of_vectors (hsource : source.rank = .vector) (htarget : target.rank = .vector)
    (hfirst : source.extent 0 = target.extent 0) : source.SameExtents target := by
  refine ⟨hsource.trans htarget.symm, fun axis haxis => ?_⟩
  match axis, haxis with
  | 0, _ => exact hfirst
  | 1, _ => rw [extent_of_vector hsource, extent_of_vector htarget]

/-- A source that needs no resizing has the extents of the target. -/
theorem sameExtents_of_sameSize (hrank : source.rank = target.rank)
    (htarget : target.rank = .vector ∨ target.rank = .matrix)
    (h : source.resizeNeeded target ≤ .sameSize) : source.SameExtents target :=
  ⟨hrank, extent_of_sameSize hrank htarget h⟩

end Shape

/-! ## Into a variable -/

namespace Value

variable {x y v w : Value} {source target : Shape} {n : Nat}

/-- The elements of a literal meet under its own extents; other values are left as they are. -/
theorem widened_promoteMixed (h : x.promoteMixed = .ok y) :
    y.widened = x.widened ∨ ∃ shape kind, x.widened.shape? = some shape ∧
      y.widened.shape? = some (shape.withElement kind) := by
  rcases promoteMixed_eq_ok h with
    ⟨-, rfl⟩ | ⟨shape, elements, kind, rfl, -, ⟨-, rfl⟩ | ⟨b, -, rfl⟩⟩
  · exact .inl rfl
  · exact .inr ⟨shape, kind, rfl, rfl⟩
  · exact .inr ⟨shape, kind, rfl, rfl⟩

/-- An array has as many elements as its shape says, an interval as many as it has members. -/
theorem size_of_length (hshape : x.widened.shape? = some source) (hlength : x.length = .ok n) :
    source.size = n := by
  obtain ⟨type, payload⟩ := x
  cases payload with
  | interval interval =>
    obtain rfl := Option.some.inj hshape
    obtain rfl := Except.ok.inj hlength
    show interval.toList.toArray.size = interval.length
    simp
  | _ =>
    cases type with
    | array shape =>
      obtain rfl := Option.some.inj hshape
      exact Except.ok.inj hlength
    | _ => cases hshape

theorem sameExtents_of_convertStored (htarget : target.rank = .vector ∨ target.rank = .matrix)
    (hshape : x.shape? = some source) (hmany : 1 < source.size)
    (h : convertStored target x .assignment = .ok w) : source.SameExtents target := by
  obtain ⟨found, b, c, hfound, -, -, hcases⟩ := convertStored_cases h
  obtain rfl := Option.some.inj (hshape.symm.trans hfound)
  rcases hcases with ⟨hscalar, -⟩ | ⟨hscalar, -⟩ | ⟨hrank, -, h⟩
  · rw [hscalar] at htarget
    rcases htarget with htarget | htarget <;> cases htarget
  · simp [Shape.size, hscalar] at hmany
  · obtain ⟨extents, -, hextents, hneeded, -⟩ := convertExtents_eq_ok h
    obtain rfl := resolveExtents_assignment hextents
    rw [Shape.ofExtents_extents (Shape.isEmptyArray_of_rank htarget)] at hneeded
    exact Shape.sameExtents_of_sameSize hrank htarget hneeded

theorem sameExtents_of_convertArray (htarget : target.rank = .vector ∨ target.rank = .matrix)
    (hshape : x.shape? = some source) (hmany : 1 < source.size)
    (h : convertArray target x .assignment = .ok w) : source.SameExtents target := by
  obtain ⟨found, hfound, hcases⟩ := convertArray_cases h
  obtain rfl := Option.some.inj (hshape.symm.trans hfound)
  rcases hcases with ⟨hempty, -⟩ | ⟨-, hempty, -⟩ | ⟨y, -, rfl | hy, hw⟩
  · rw [Shape.isEmptyArray_of_rank htarget] at hempty
    cases hempty
  · rw [Shape.size_of_isEmptyArray hempty] at hmany
    cases hmany
  · exact sameExtents_of_convertStored htarget hshape hmany hw
  · obtain ⟨shape, e, b, rfl, -, -, rfl⟩ := fillSentinel_eq_ok hy
    obtain rfl := Option.some.inj hshape
    have hfilled : (stored (shape.withElement target.element) b).shape? =
      some (shape.withElement target.element) := rfl
    obtain ⟨hrank, hextent⟩ := sameExtents_of_convertStored htarget hfilled hmany hw
    exact ⟨hrank, hextent⟩

/-- **What assignment to a variable asks**: more than one element enter a vector or a matrix only
under its own rank and extents, those of an interval as the vector of its members. -/
theorem sameExtents_of_convert (htarget : target.rank = .vector ∨ target.rank = .matrix)
    (hlength : x.length = .ok n) (hmany : 1 < n)
    (h : convert (.array target) x .assignment = .ok w) :
    ∃ source, x.widened.shape? = some source ∧ source.SameExtents target := by
  obtain ⟨y, hy, ⟨shape, hshape, h⟩ | ⟨hunknown, -⟩ | ⟨kind, hkind, -⟩⟩ := convert_eq_ok rfl h
  · obtain rfl := ValueType.array.inj hshape
    have hw := (convertToArray_eq_ok h).2
    obtain ⟨found, hfound, -⟩ := convertArray_cases hw
    rcases widened_promoteMixed hy with hsame | ⟨source, kind, hsource, hmet⟩
    · rw [hsame] at hfound
      have hsize := size_of_length hfound hlength
      rw [hsame] at hw
      exact ⟨found, hfound, sameExtents_of_convertArray htarget hfound (hsize ▸ hmany) hw⟩
    · have hsize := size_of_length hsource hlength
      obtain ⟨hrank, hextent⟩ := sameExtents_of_convertArray htarget hmet (hsize ▸ hmany) hw
      exact ⟨source, hsource, hrank, hextent⟩
  · cases hunknown
  · cases hkind

end Value

/-! ## Through a view -/

namespace Session

variable {s t : Session} {scope : Scope} {target : Handle} {x y copy other current : Value}
  {view : View} {es : List Element} {single : Bool} {n count pos : Nat}

/-- The loop is told what it does by the elements it reads. -/
theorem storeAll_congr
    (h : ∀ i, pos ≤ i → i < pos + count →
      x.element (if single then 0 else i) = y.element (if single then 0 else i)) :
    storeAll scope view x single count pos = storeAll scope view y single count pos := by
  induction count generalizing scope pos with
  | zero => rfl
  | succ count ih =>
    unfold storeAll
    rw [h pos (Nat.le_refl pos) (by omega)]
    split
    · exact ih fun i hi hcount => h i (by omega) (by omega)
    · rfl

/-- A loop that comes to its end has read an element for each position. -/
theorem exists_element_of_storeAll (h : (storeAll scope view x false count pos).1 = .ok ())
    {i : Nat} (hi : pos ≤ i) (hcount : i < pos + count) : ∃ e, x.element i = .ok e := by
  induction count generalizing scope pos with
  | zero => omega
  | succ count ih =>
    unfold storeAll at h
    split at h
    · rename_i next hnext
      obtain ⟨e, he, -⟩ := Result.bind_eq_ok_iff.mp hnext
      rcases Nat.eq_or_lt_of_le hi with rfl | hlt
      · exact ⟨e, he⟩
      · exact ih h hlt (by omega)
    · cases h

theorem assignThrough_congr (hx : x.elements = .ok es) (hy : y.elements = .ok es)
    (scope : Scope) (view : View) (length : Nat) :
    assignThrough scope view length x = assignThrough scope view length y := by
  obtain ⟨hxlength, hxread⟩ := Value.elements_eq_ok_iff.mp hx
  obtain ⟨hylength, hyread⟩ := Value.elements_eq_ok_iff.mp hy
  unfold assignThrough
  rw [hxlength, hylength]
  dsimp only
  split
  · rfl
  · rename_i hfit
    refine storeAll_congr fun i _ hi => ?_
    have hread : (if decide (es.length = 1) then 0 else i) < es.length := by
      split <;> simp_all
    rw [hxread _ hread, hyread _ hread]

/-- **A view tells no two sources of the same elements apart**, whatever their ranks and extents. -/
theorem assign_congr_elements (htarget : s.scope.get target = .ok current)
    (hview : current.view? = some view) (hx : s.copy x = .ok copy) (hy : s.copy y = .ok other)
    (hcopy : copy.elements = .ok es) (hother : other.elements = .ok es) :
    s.assign target y = s.assign target x := by
  have hsame : assignCopy s.scope target other = assignCopy s.scope target copy := by
    unfold assignCopy
    rw [htarget]
    simp only [hview]
    cases current.length with
    | error fault => rfl
    | ok length => exact assignThrough_congr hother hcopy s.scope view length
  rw [assign_eq hx, assign_eq hy, hsame]

/-- More than one element go through a view only if it has as many positions, and each is read. -/
theorem elements_of_assign_through (htarget : s.scope.get target = .ok current)
    (hview : current.view? = some view) (hcopy : s.copy x = .ok copy)
    (hcount : copy.length = .ok n) (hmany : 1 < n) (h : s.assign target x = (.ok (), t)) :
    current.length = .ok n ∧ ∃ es, es.length = n ∧ copy.elements = .ok es := by
  rw [assign_eq hcopy] at h
  have hstored : (assignCopy s.scope target copy).1 = .ok () := (Prod.mk.inj h).1
  cases hlength : current.length with
  | error fault =>
    unfold assignCopy at hstored
    rw [htarget] at hstored
    simp only [hview, hlength] at hstored
    cases hstored
  | ok length =>
    rw [assignCopy_view htarget hview hlength] at hstored
    unfold assignThrough at hstored
    rw [hcount] at hstored
    dsimp only at hstored
    split at hstored
    · cases hstored
    · obtain rfl : n = length := by omega
      have hsingle : decide (n = 1) = false := decide_eq_false (by omega)
      rw [hsingle] at hstored
      obtain ⟨es, hes⟩ : ∃ es, (List.range n).mapM copy.element = .ok es := by
        refine Result.exists_mapM_eq_ok fun i hi => ?_
        refine exists_element_of_storeAll hstored (Nat.zero_le i) ?_
        rw [Nat.zero_add]
        exact List.mem_range.mp hi
      refine ⟨rfl, es, ?_, Result.bind_eq_ok_iff.mpr ⟨n, hcount, hes⟩⟩
      rw [Result.length_of_mapM hes, List.length_range]

/-- **Assignment of more than one element through a view.** If it succeeds, the source has as many
elements as the view has positions. That is all it says of the extents: every source of the same
elements in the same order is assigned the same, whatever its rank. A vector assigned to a view of
a vector has the length of the view. A variable of the type of the view, if it holds no view, takes
the source only if its rank and its extents are those of the view as well. -/
theorem assign_through_counted {shape : Shape} (htarget : s.scope.get target = .ok current)
    (hview : current.view? = some view) (hshape : current.type = .array shape)
    (hrank : shape.rank = .vector ∨ shape.rank = .matrix) (hcopy : s.copy x = .ok copy)
    (hcount : copy.length = .ok n) (hmany : 1 < n) (h : s.assign target x = (.ok (), t)) :
    shape.size = n ∧
      (∃ es, es.length = n ∧ copy.elements = .ok es ∧
        ∀ y other, s.copy y = .ok other → other.elements = .ok es →
          s.assign target y = (.ok (), t)) ∧
      (∀ source, copy.widened.shape? = some source → source.rank = .vector →
        shape.rank = .vector → source.SameExtents shape) ∧
      (∀ v old u, s.scope.get v = .ok old → old.view? = none → old.type = .array shape →
        s.assign v x = (.ok (), u) →
          ∃ source, copy.widened.shape? = some source ∧ source.SameExtents shape) := by
  obtain ⟨hlength, es, hes, helements⟩ :=
    elements_of_assign_through htarget hview hcopy hcount hmany h
  have hsize : shape.size = n := by
    obtain ⟨type, payload⟩ := current
    obtain rfl := hshape
    cases payload with
    | view _ => exact Except.ok.inj hlength
    | _ => cases hview
  refine ⟨hsize, ⟨es, hes, helements, ?_⟩, ?_, ?_⟩
  · intro y other hother hsame
    rw [assign_congr_elements htarget hview hcopy hother helements hsame, h]
  · intro source hsource hvector htarget
    refine Shape.sameExtents_of_vectors hvector htarget ?_
    rw [← Shape.size_of_vector hvector, ← Shape.size_of_vector htarget, hsize]
    exact Value.size_of_length hsource hcount
  · intro v old u hold hnone htype hassign
    obtain ⟨found, new, hfound, hconvert, -⟩ := assign_direct_eq_ok hold hnone hassign
    obtain rfl := Except.ok.inj (hcopy.symm.trans hfound)
    rw [htype] at hconvert
    exact Value.sameExtents_of_convert hrank hcount hmany hconvert

/-- A vector of two into a view of one column of a matrix: the same as the row of these elements. -/
theorem assign_through_counted_column :
    let start := Session.start Settings.default [] Sink.empty
    let grid := Value.stored (Shape.matrix .integer 2 2) (.integers #[0, 0, 0, 0])
    let column := Value.ofView (Shape.matrix .integer 2 1)
      ⟨⟨0, 0⟩, .matrix (.many #[0, 1]) (.many #[1])⟩
    let two := Value.vector (.integers #[5, 6])
    let row := Value.stored (Shape.matrix .integer 1 2) (.integers #[5, 6])
    let s := ((start.allocate grid).2.allocate column).2
    let t := (s.assign ⟨1, 1⟩ two).2
    s.scope.get ⟨1, 1⟩ = .ok column ∧ two.length = .ok 2 ∧
      s.assign ⟨1, 1⟩ two = (.ok (), t) ∧ s.assign ⟨1, 1⟩ row = (.ok (), t) := by
  intro start grid column two row s t
  have htarget : s.scope.get ⟨1, 1⟩ = .ok column := rfl
  have hcopy : s.copy two = .ok two := rfl
  have hcount : two.length = .ok 2 := rfl
  have hok : s.assign ⟨1, 1⟩ two = (.ok (), t) := rfl
  obtain ⟨-, ⟨es, -, hes, hsame⟩, -, -⟩ :=
    assign_through_counted htarget rfl rfl (.inr rfl) hcopy hcount (by decide) hok
  exact ⟨htarget, hcount, hok, hsame row row rfl hes⟩

/-- **A view takes what its root does not**: six elements as a vector, and as a matrix of three rows
and two columns, enter a view of all of a matrix of two rows and three columns, in their order. The
matrix itself refuses both. -/
theorem assign_through_reshapes :
    let start := Session.start Settings.default [] Sink.empty
    let wide := Shape.matrix .integer 2 3
    let grid := Value.stored wide (.integers #[0, 0, 0, 0, 0, 0])
    let whole := Value.ofView wide ⟨⟨0, 0⟩, .matrix (.many #[0, 1]) (.many #[0, 1, 2])⟩
    let rows := IndexOperand.value (Value.vector (.integers #[1, 2]))
    let columns := IndexOperand.value (Value.vector (.integers #[1, 2, 3]))
    let six := Value.vector (.integers #[1, 2, 3, 4, 5, 6])
    let tall := Value.stored (Shape.matrix .integer 3 2) (.integers #[1, 2, 3, 4, 5, 6])
    let s := ((start.allocate grid).2.allocate whole).2
    let filled := Value.stored wide (.integers #[1, 2, 3, 4, 5, 6])
    let t := { s with scope := s.scope.write ⟨0, 0⟩ filled }
    s.scope.index (.anchored ⟨0, 0⟩) [rows, columns] = .ok whole ∧
      s.scope.get ⟨1, 1⟩ = .ok whole ∧
      s.copy six = .ok six ∧ six.length = .ok 6 ∧ s.copy tall = .ok tall ∧ tall.length = .ok 6 ∧
      s.assign ⟨1, 1⟩ six = (.ok (), t) ∧ ¬ (Shape.vector .integer 6).SameExtents wide ∧
      s.assign ⟨1, 1⟩ tall = (.ok (), t) ∧ ¬ (Shape.matrix .integer 3 2).SameExtents wide ∧
      (∃ fault, s.assign ⟨0, 0⟩ six = (.error fault, s)) ∧
      ∃ fault, s.assign ⟨0, 0⟩ tall = (.error fault, s) := by
  refine ⟨rfl, rfl, rfl, rfl, rfl, rfl, rfl, ?_, rfl, ?_, ⟨_, rfl⟩, ⟨_, rfl⟩⟩
  · intro hsame
    cases hsame.rank
  · intro hsame
    cases hsame.extent 0 (by decide)

end Session

end ArrayMachine
