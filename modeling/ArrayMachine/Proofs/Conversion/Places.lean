import ArrayMachine.Proofs.Conversion.Elements
import ArrayMachine.Proofs.Value.Assigned
import ArrayMachine.Proofs.Value.Faults

/-!
# Conversion, place by place

A vector or a matrix that is converted to an array type of its rank gets the extents of the type,
and keeps its own where the type leaves them open (`Shape.resolved`). Whatever the two sets of
extents are, each place of the result holds what the mode makes of the element that was at the same
place, or a zero of the kind where there was none (`Value.convertedAt`). The extents decide alone
which places these are: only a cast drops elements, and where a mode lets no extent change there is
nothing to add.

* `Shape.exists_position_of_le`: larger extents have every place.
* `placed_convertExtents`: what is stored of a buffer under other extents.
* `placed_convert`: what is stored of any vector, matrix, null or identity array or interval.
* `convert_places`: the same place by place, and what is dropped and added.
-/

namespace ArrayMachine

/-- A place in a vector, or in a matrix. -/
inductive Place where
  | entry (index : Nat)
  | cell (row column : Nat)

namespace ResizeRule

@[simp] theorem forAxis_le_notLarger {source target : Nat} :
    forAxis source target ≤ notLarger ↔ source ≤ target := by
  unfold forAxis
  split
  · rename_i hsame
    exact iff_of_true (by decide) (Nat.le_of_eq hsame)
  · rename_i hother
    split
    · rename_i hlt
      exact iff_of_true (by decide) (Nat.le_of_lt hlt)
    · rename_i hlt
      exact iff_of_false (by decide) (by omega)

end ResizeRule

namespace Shape

variable {shape source target : Shape} {place : Place} {pos : Nat} {kind : Kind}

/-! ## Places -/

/-- The position at which the element of a place is stored, the rows of a matrix one after the
other. -/
def position? (shape : Shape) : Place → Option Nat
  | .entry index =>
    if shape.rank = .vector ∧ index < shape.extent 0 then some index else none
  | .cell row column =>
    if shape.rank = .matrix ∧ row < shape.extent 0 ∧ column < shape.extent 1 then
      some (row * shape.extent 1 + column)
    else none

@[simp] theorem position?_entry {index : Nat} :
    shape.position? (.entry index) = some pos ↔
      shape.rank = .vector ∧ index < shape.extent 0 ∧ index = pos := by
  simp [position?, and_assoc]

@[simp] theorem position?_cell {row column : Nat} :
    shape.position? (.cell row column) = some pos ↔
      shape.rank = .matrix ∧ row < shape.extent 0 ∧ column < shape.extent 1 ∧
        row * shape.extent 1 + column = pos := by
  simp [position?, and_assoc]

@[simp] theorem position?_withElement :
    (shape.withElement kind).position? place = shape.position? place := by
  cases place <;> rfl

/-- Every stored element has a place. -/
theorem exists_place (hrank : shape.rank = .vector ∨ shape.rank = .matrix)
    (hpos : pos < shape.size) : ∃ place, shape.position? place = some pos := by
  rcases hrank with hrank | hrank
  · rw [size_of_vector hrank] at hpos
    exact ⟨.entry pos, position?_entry.mpr ⟨hrank, hpos, rfl⟩⟩
  · rw [size_of_matrix hrank] at hpos
    have hpos := Nat.lt_of_lt_of_le hpos (inWord_le _)
    have hcolumns : 0 < shape.extent 1 := Nat.pos_of_mul_pos_left (Nat.zero_lt_of_lt hpos)
    exact ⟨.cell (pos / shape.extent 1) (pos % shape.extent 1),
      position?_cell.mpr ⟨hrank, Nat.div_lt_of_lt_mul (by rwa [Nat.mul_comm]),
        Nat.mod_lt pos hcolumns, Nat.div_add_mod' pos _⟩⟩

/-- Larger extents have every place that smaller ones have. -/
theorem exists_position_of_le (hrank : source.rank = target.rank)
    (hle : ∀ axis < 2, source.extent axis ≤ target.extent axis)
    (h : source.position? place = some pos) : ∃ new, target.position? place = some new := by
  have hfirst := hle 0 (by decide)
  have hsecond := hle 1 (by decide)
  cases place with
  | entry index =>
    obtain ⟨hvector, hindex, -⟩ := position?_entry.mp h
    exact ⟨_, position?_entry.mpr ⟨hrank ▸ hvector, Nat.lt_of_lt_of_le hindex hfirst, rfl⟩⟩
  | cell row column =>
    obtain ⟨hmatrix, hrow, hcolumn, -⟩ := position?_cell.mp h
    exact ⟨_, position?_cell.mpr
      ⟨hrank ▸ hmatrix, Nat.lt_of_lt_of_le hrow hfirst, Nat.lt_of_lt_of_le hcolumn hsecond, rfl⟩⟩

/-! ## Extents that were found -/

/-- The target's shape, its open extents those of the source. -/
def resolved (target source : Shape) : Shape :=
  ofExtents target.element
    (target.extents.zipIdx.map fun (extent, axis) => some (extent.getD (source.extent axis)))
    target.isString

@[simp] theorem resolved_withElement :
    target.resolved (source.withElement kind) = target.resolved source := rfl

theorem rank_resolved (h : target.isEmptyArray = false) :
    (target.resolved source).rank = target.rank := by
  obtain ⟨element, dims, isString⟩ := target
  cases dims with
  | unspecified => cases h
  | fixed extents => rcases extents with _ | ⟨e, _ | ⟨f, rest⟩⟩ <;> rfl

/-- The extents that are found for a target. -/
theorem ofExtents_resolveExtents {mode : Mode} {extents : List Extent}
    (h : Value.resolveExtents target source mode = .ok extents) :
    ofExtents target.element extents target.isString = target.resolved source := by
  have heq := Result.eq_map_of_mapM
    (g := fun (extent, axis) => some (extent.getD (source.extent axis))) (fun x y hxy => by
      obtain ⟨extent, axis⟩ := x
      cases extent with
      | none =>
        dsimp only at hxy
        split at hxy
        · exact (Except.ok.inj hxy).symm
        · cases hxy
      | some size => exact (Except.ok.inj hxy).symm) h
  rw [heq, resolved]

end Shape

/-! ## What is stored at a place -/

section Resized

variable {source result : Shape} {place : Place} {pos : Nat} {c d : Buffer}

/-- **A resized buffer** holds at each place what it held there, or a zero, if a word counts its
elements before and after. -/
theorem Buffer.resized_at (hlength : c.length = source.size) (hrank : source.rank = result.rank)
    (hsource : source.Countable) (hresult : result.Countable)
    (h : (if source.rank = .vector then c.resizeVector (result.extent 0)
      else c.resizeMatrix (source.extent 0) (source.extent 1) (result.extent 0)
        (result.extent 1)) = .ok d)
    (hplace : result.position? place = some pos) :
    ∃ f, d.elements[pos]? = some f ∧
      match source.position? place with
      | some old => c.elements[old]? = some f
      | none => Element.zero c.kind = .ok f := by
  cases place with
  | entry index =>
    obtain ⟨hvector, hindex, rfl⟩ := Shape.position?_entry.mp hplace
    rw [if_pos (hrank.trans hvector)] at h
    obtain ⟨e, he, -, -, hvalues⟩ := c.exists_resizeVector (result.extent 0)
    obtain rfl := Except.ok.inj (h.symm.trans he)
    obtain ⟨f, hf, hvalue⟩ := hvalues index hindex
    rw [hlength, Shape.size_of_vector (hrank.trans hvector)] at hvalue
    refine ⟨f, hf, ?_⟩
    simp only [Shape.position?, hrank.trans hvector, true_and]
    split at hvalue
    · rename_i hin
      simpa only [if_pos hin] using hvalue
    · rename_i hout
      simpa only [if_neg hout] using hvalue
  | cell row column =>
    obtain ⟨hmatrix, hrow, hcolumn, rfl⟩ := Shape.position?_cell.mp hplace
    rw [if_neg (by rw [hrank, hmatrix]; decide)] at h
    have hcells := hlength.trans (Shape.size_of_countable (hrank.trans hmatrix) hsource)
    obtain ⟨e, he, -, -, hvalues⟩ := exists_resizeMatrix hcells hsource hresult
    obtain rfl := Except.ok.inj (h.symm.trans he)
    obtain ⟨f, hf, hvalue⟩ := hvalues row column hrow hcolumn
    refine ⟨f, hf, ?_⟩
    simp only [Shape.position?, hrank.trans hmatrix, true_and]
    split at hvalue
    · rename_i hin
      simpa only [if_pos hin] using hvalue
    · rename_i hout
      simpa only [if_neg hout] using hvalue

end Resized

namespace Value

variable {v x y r w : Value} {source target result : Shape} {mode : Mode} {kind : Kind}
  {b c : Buffer} {place : Place} {f : Element}

/-- What a mode makes of a value at a place: of the element that is there, or where there is none, a
zero. -/
def convertedAt (v : Value) (source : Shape) (mode : Mode) (kind : Kind) (place : Place) :
    Result Element :=
  match source.position? place with
  | some pos => do mode.convertElement kind (← v.element pos)
  | none => Element.zero kind

/-- `r` is stored under a shape that the mode lets `v` into, and holds at every place what the mode
makes of `v` there, if a word counts the elements of both. -/
structure Placed (mode : Mode) (source result : Shape) (v r : Value) : Prop where
  stored : r.StoredAs result
  needed : source.resizeNeeded result ≤ mode.rules.resize
  place : source.Countable → result.Countable →
    ∀ {place : Place} {pos : Nat}, result.position? place = some pos →
    ∃ f, r.element pos = .ok f ∧ v.convertedAt source mode result.element place = .ok f

/-- What was promoted on the way is promoted at once. -/
theorem convertedAt_of_promotesTo (hmode : mode.rules.casts = false) (hxy : x.PromotesTo y)
    (h : y.convertedAt source mode kind place = .ok f) :
    x.convertedAt source mode kind place = .ok f := by
  unfold convertedAt at h ⊢
  split at h
  · simp only [Mode.convertElement, hmode, Bool.false_eq_true, if_false] at h ⊢
    obtain ⟨g, hg, hf⟩ := Result.bind_eq_ok_iff.mp h
    obtain ⟨e, k, he, hpromote⟩ := hxy.element hg
    exact Result.bind_eq_ok_iff.mpr ⟨e, he, Element.promote_trans hpromote hf⟩
  · exact h

/-- **A buffer under other extents.** -/
theorem placed_convertExtents (hb : source.Fits b) (hbasic : target.element.isBasic = true)
    (hrank : source.rank = target.rank) (hdims : source.rank = .vector ∨ source.rank = .matrix)
    (hc : mode.convertBuffer b target.element = .ok c)
    (h : convertExtents target source x c mode = .ok r) :
    (Value.stored source b).Placed mode source (target.resolved source) r := by
  obtain ⟨extents, resized, hextents, hneeded, hresized, hr⟩ := convertExtents_eq_ok h
  rw [Shape.ofExtents_resolveExtents hextents] at hneeded hresized hr
  obtain ⟨hfits, -, rfl⟩ := ofBuffer_eq_ok_iff.mp hr
  obtain ⟨hkind, hall⟩ := Mode.convertBuffer_eq_ok hbasic hc
  have hlength : c.length = source.size := by
    rw [← Buffer.length_elements, Result.length_of_mapM hall, Buffer.length_elements, hb.size]
  have hranks : source.rank = (target.resolved source).rank := by
    rw [Shape.rank_resolved (Shape.isEmptyArray_of_rank (hrank ▸ hdims)), hrank]
  refine ⟨⟨resized, hfits, rfl⟩, hneeded, fun hsource hresult {place pos} hplace => ?_⟩
  obtain ⟨f, hf, hvalue⟩ := Buffer.resized_at hlength hranks hsource hresult hresized hplace
  refine ⟨f, (element_stored_eq_ok_iff hfits).mpr hf, ?_⟩
  unfold convertedAt
  split at hvalue
  · rename_i old _
    -- the converted buffer has at `old` what the mode makes of the element that `b` has there
    obtain ⟨hpos, rfl⟩ := List.getElem?_eq_some_iff.mp hvalue
    have hpos' : old < b.elements.length := by rwa [← Result.length_of_mapM hall]
    exact Result.bind_eq_ok_iff.mpr
      ⟨_, element_stored_of_lt hb hpos', Result.getElem_of_mapM hall hpos' hpos⟩
  · rw [hkind] at hvalue
    exact hvalue

theorem placed_convertStored (hb : source.Fits b) (hbasic : target.element.isBasic = true)
    (hrank : source.rank = target.rank) (hdims : source.rank = .vector ∨ source.rank = .matrix)
    (h : convertStored target (Value.stored source b) mode = .ok r) :
    (Value.stored source b).Placed mode source (target.resolved source) r := by
  obtain ⟨shape, buffer, c, hshape, hbuffer, hc, hcases⟩ := convertStored_cases h
  obtain rfl : source = shape := Option.some.inj hshape
  obtain rfl : b = buffer := Option.some.inj hbuffer
  rcases hcases with ⟨hscalar, -⟩ | ⟨hscalar, -⟩ | ⟨-, -, h⟩
  · rw [hrank, hscalar] at hdims
    rcases hdims with hdims | hdims <;> cases hdims
  · rw [hscalar] at hdims
    rcases hdims with hdims | hdims <;> cases hdims
  · exact placed_convertExtents hb hbasic hrank hdims hc h

/-- An array with dimensions, into a type with dimensions, is converted by its stored elements. A
null or identity array is filled first, unless it is cast. -/
theorem convertArray_eq_ok (hshape : x.shape? = some source)
    (hsource : source.isEmptyArray = false) (htarget : target.isEmptyArray = false)
    (h : convertArray target x mode = .ok w) :
    (x.isSentinel = false ∧ convertStored target x mode = .ok w) ∨
      (mode.rules.casts = false ∧ ∃ y, x.fillSentinel target.element = .ok y ∧
        convertStored target y mode = .ok w) := by
  unfold convertArray at h
  simp only [hshape, hsource, htarget, Bool.false_eq_true, if_false] at h
  split at h
  · split at h
    · cases h
    · rename_i hcasts
      obtain ⟨y, hy, h⟩ := Result.bind_eq_ok_iff.mp h
      exact .inr ⟨Bool.eq_false_iff.mpr hcasts, y, hy, h⟩
  · rename_i hsentinel
    exact .inl ⟨Bool.eq_false_iff.mpr hsentinel, h⟩

theorem placed_convertArray (hx : x.WellFormed) (hmixed : x.isMixed = false)
    (hshape : x.shape? = some source) (hbasic : target.element.isBasic = true)
    (hrank : source.rank = target.rank) (hdims : source.rank = .vector ∨ source.rank = .matrix)
    (h : convertArray target x mode = .ok r) :
    x.Placed mode source (target.resolved source) r := by
  have hsource := Shape.isEmptyArray_of_rank hdims
  have htarget := Shape.isEmptyArray_of_rank (hrank ▸ hdims)
  rcases convertArray_eq_ok hshape hsource htarget h with
    ⟨hsentinel, h⟩ | ⟨hmode, y, hy, h⟩
  · obtain ⟨b, rfl⟩ := hx.eq_stored hshape hsource hsentinel hmixed
    cases hx with
    | stored hfits _ => exact placed_convertStored hfits hbasic hrank hdims h
  · have hxy := promotesTo_fillSentinel hy
    obtain ⟨shape, e, b, rfl, -, hb, rfl⟩ := fillSentinel_eq_ok hy
    obtain rfl : shape = source := Option.some.inj hshape
    have hplaced := placed_convertStored (Shape.fits_filled hb) hbasic hrank hdims h
    -- the filled array has the extents of the one that it fills, and so the same places
    refine ⟨hplaced.stored, hplaced.needed, fun hsource hresult {place pos} hplace => ?_⟩
    obtain ⟨f, hf, hvalue⟩ := hplaced.place hsource hresult hplace
    refine ⟨f, hf, convertedAt_of_promotesTo hmode hxy ?_⟩
    simpa only [convertedAt, Shape.position?_withElement, Shape.resolved_withElement] using hvalue

/-! ## Any value with places -/

/-- An interval has the elements that the vector of its members has. -/
theorem element_widened (v : Value) (pos : Nat) : v.widened.element pos = v.element pos := by
  obtain ⟨type, payload⟩ := v
  cases payload with
  | interval interval => exact element_members interval pos
  | _ => rfl

theorem length_widened (v : Value) : v.widened.length = v.length := by
  obtain ⟨type, payload⟩ := v
  cases payload with
  | interval interval => exact congrArg Except.ok interval.length_toList
  | _ => rfl

theorem isMixed_widened (h : v.isMixed = false) : v.widened.isMixed = false := by
  unfold widened
  split
  · rfl
  · exact h

theorem placed_convert (hv : v.WellFormed) (hmixed : v.isMixed = false)
    (hshape : v.widened.shape? = some source)
    (hdims : source.rank = .vector ∨ source.rank = .matrix) (hrank : target.rank = source.rank)
    (h : convert (.array target) v mode = .ok r) :
    v.Placed mode source (target.resolved source) r := by
  obtain ⟨x, hx, ⟨shape, htarget, harray⟩ | ⟨hunknown, -⟩ | ⟨kind, hkind, -⟩⟩ :=
    convert_eq_ok rfl h
  · obtain rfl := ValueType.array.inj htarget
    obtain ⟨hbasic, harray⟩ := convertToArray_eq_ok harray
    obtain ⟨-, rfl⟩ | ⟨shape, elements, kind, rfl, -⟩ := promoteMixed_eq_ok hx
    · have hplaced := placed_convertArray (invariant_wellFormed.widened hv)
        (isMixed_widened hmixed) hshape hbasic hrank.symm hdims harray
      refine ⟨hplaced.stored, hplaced.needed, fun hsource hresult {place pos} hplace => ?_⟩
      simpa only [convertedAt, element_widened] using hplaced.place hsource hresult hplace
    · cases hmixed
  · cases hunknown
  · cases hkind

/-- **Conversion keeps every element at its place.** What a vector or a matrix, stored or null or
identity, or an interval is converted to has the kind, the text flag and the extents of the type,
its own extents where these are open. At every place there is what the mode makes of the element
that was there, or else a zero, if a word counts the elements of both. Only a cast drops an element,
and neither a promotion nor an assignment adds a zero. -/
theorem convert_places (hv : v.WellFormed) (hmixed : v.isMixed = false)
    (hshape : v.widened.shape? = some source)
    (hdims : source.rank = .vector ∨ source.rank = .matrix) (hrank : target.rank = source.rank)
    (h : convert (.array target) v mode = .ok r) :
    r.StoredAs (target.resolved source) ∧
    (source.Countable → (target.resolved source).Countable →
      ∀ place pos, (target.resolved source).position? place = some pos →
      ∃ f, r.element pos = .ok f ∧ v.convertedAt source mode target.element place = .ok f) ∧
    (mode ≠ .cast → ∀ pos < source.size, ∃ place new,
      source.position? place = some pos ∧ (target.resolved source).position? place = some new) ∧
    (mode = .promotion ∨ mode = .assignment → ∀ pos < (target.resolved source).size,
      ∃ place old, (target.resolved source).position? place = some pos ∧
        source.position? place = some old) := by
  have hplaced := placed_convert hv hmixed hshape hdims hrank h
  have htarget : (target.resolved source).rank = source.rank := by
    rw [Shape.rank_resolved (Shape.isEmptyArray_of_rank (hrank ▸ hdims)), hrank]
  refine ⟨hplaced.stored, fun hsource hresult _ _ hplace =>
    hplaced.place hsource hresult hplace, ?_, ?_⟩
  · intro hmode pos hpos
    have hneeded : source.resizeNeeded (target.resolved source) ≤ .notLarger :=
      Nat.le_trans hplaced.needed (by cases mode <;> first | decide | exact absurd rfl hmode)
    obtain ⟨place, hplace⟩ := Shape.exists_place hdims hpos
    have hle (axis : Nat) (haxis : axis < 2) :=
      ResizeRule.forAxis_le_notLarger.mp
        (Shape.forAxis_le_of_resizeNeeded htarget.symm (htarget ▸ hdims) hneeded axis haxis)
    obtain ⟨new, hnew⟩ := Shape.exists_position_of_le htarget.symm hle hplace
    exact ⟨place, new, hplace, hnew⟩
  · intro hmode pos hpos
    have hneeded : source.resizeNeeded (target.resolved source) ≤ .sameSize := by
      rcases hmode with rfl | rfl <;> exact hplaced.needed
    have hsame := Shape.extent_of_sameSize htarget.symm (htarget ▸ hdims) hneeded
    obtain ⟨place, hplace⟩ := Shape.exists_place (htarget ▸ hdims) hpos
    obtain ⟨old, hold⟩ := Shape.exists_position_of_le htarget
      (fun axis haxis => Nat.le_of_eq (hsame axis haxis).symm) hplace
    exact ⟨place, old, hplace, hold⟩

/-- A declaration gives a matrix a third column: its elements move to other positions, at the places
they had, and the new column is zero. -/
theorem convert_places_column :
    let source := Shape.matrix .integer 2 2
    let target := Shape.ofExtents .integer [none, some 3] false
    let v := stored source (.integers #[1, 2, 3, 4])
    let r := stored (Shape.matrix .integer 2 3) (.integers #[1, 2, 0, 3, 4, 0])
    source.Countable ∧ (target.resolved source).Countable ∧
      convert (.array target) v .declaration = .ok r ∧ r.StoredAs (Shape.matrix .integer 2 3) ∧
      (∃ f, r.element 3 = .ok f ∧
        v.convertedAt source .declaration .integer (.cell 1 0) = .ok f) ∧
      (∃ f, r.element 5 = .ok f ∧
        v.convertedAt source .declaration .integer (.cell 1 2) = .ok f) ∧
      ∃ place new, source.position? place = some 3 ∧
        (target.resolved source).position? place = some new := by
  have hconvert : convert (.array (Shape.ofExtents .integer [none, some 3] false))
      (stored (Shape.matrix .integer 2 2) (.integers #[1, 2, 3, 4])) .declaration =
      .ok (stored (Shape.matrix .integer 2 3) (.integers #[1, 2, 0, 3, 4, 0])) := rfl
  intro source target v r
  have hv : v.WellFormed := .stored ⟨rfl, rfl⟩ rfl
  have hrank : target.rank = source.rank := rfl
  have hsource : source.Countable := by decide
  have hresult : (target.resolved source).Countable := by decide
  obtain ⟨hstored, hplaces, hkept, -⟩ := convert_places hv rfl rfl (.inr rfl) hrank hconvert
  have hplace := hplaces hsource hresult
  exact ⟨hsource, hresult, hconvert, hstored, hplace (.cell 1 0) 3 rfl, hplace (.cell 1 2) 5 rfl,
    hkept (by decide) 3 (by decide)⟩

/-- Rows and columns whose product comes around to zero. A matrix without elements is declared as one
of so many rows and columns, and there is no element at any place. -/
theorem convert_without_elements :
    let v := stored (Shape.matrix .integer 0 0) (.integers #[])
    let wide := stored (Shape.matrix .integer 4294967296 4294967296) (.integers #[])
    v.WellFormed ∧
      convert (.array (Shape.matrix .integer 4294967296 4294967296)) v .declaration = .ok wide ∧
      (Shape.matrix .integer 4294967296 4294967296).position? (.cell 0 0) = some 0 ∧
      wide.element 0 = .error (.indexOutOfRange 1 0) := by
  intro v wide
  have hnone : wide.element 0 = .error (.outOfRange 0 0) := rfl
  exact ⟨.stored ⟨rfl, rfl⟩ rfl, rfl, rfl, hnone⟩

end Value

end ArrayMachine
