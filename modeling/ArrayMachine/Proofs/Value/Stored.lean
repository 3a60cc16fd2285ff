import ArrayMachine.Proofs.Traversal
import ArrayMachine.Value.Elements

/-!
# Stored arrays

A buffer fits a shape (`Shape.Fits`) if it has the shape's kind and size, which is what
`Value.ofBuffer` asks of it. Reading an array whose buffer fits is reading the buffer, and a list of
elements of one basic kind is stored as it is.
-/

namespace ArrayMachine

/-- The buffer holds as many elements as an array of the shape has, of the shape's kind. -/
structure Shape.Fits (shape : Shape) (buffer : Buffer) : Prop where
  kind : buffer.kind = shape.element
  size : buffer.length = shape.size

namespace Shape

variable {shape : Shape}

theorem size_of_scalar (h : shape.rank = .scalar) : shape.size = 1 := by
  unfold size
  rw [h]

theorem size_of_vector (h : shape.rank = .vector) : shape.size = shape.extent 0 := by
  unfold size
  rw [h]

theorem size_of_matrix (h : shape.rank = .matrix) :
    shape.size = inWord (shape.extent 0 * shape.extent 1) := by
  unfold size
  rw [h]

theorem size_of_countable (h : shape.rank = .matrix) (hcount : shape.Countable) :
    shape.size = shape.extent 0 * shape.extent 1 := by
  rw [size_of_matrix h, inWord_of_lt hcount]

/-- Only a matrix can have more elements than a word can count. -/
theorem countable_of_rank_ne (h : shape.rank ≠ .matrix) : shape.Countable := by
  have hextent : shape.extent 1 = 0 := by
    unfold extent extents
    unfold rank at h
    split at h
    · rename_i hdims
      simp [hdims]
    · rename_i hdims
      simp [hdims]
    · rename_i hdims
      simp [hdims]
    · exact absurd rfl h
  unfold Countable
  rw [hextent, Nat.mul_zero]
  decide

theorem size_of_isEmptyArray (h : shape.isEmptyArray = true) : shape.size = 0 := by
  unfold size
  rw [of_decide_eq_true h]

theorem isEmptyArray_of_rank (h : shape.rank = .vector ∨ shape.rank = .matrix) :
    shape.isEmptyArray = false := by
  rcases h with h | h <;> simp [isEmptyArray, h]

end Shape

/-- A word counts the elements of an array, and those of each field of a tuple. -/
inductive ValueType.Countable : ValueType → Prop where
  | array {shape : Shape} : shape.Countable → Countable (.array shape)
  | interval (kind : IntervalKind) : Countable (.interval kind)
  | tuple {fields : List (Option String × ValueType)} : (∀ field ∈ fields, Countable field.2) →
    Countable (.tuple fields)
  | input : Countable .input
  | output : Countable .output
  | unknown : Countable .unknown

/-- A word counts the elements of the value. -/
def Value.Countable (v : Value) : Prop := v.type.Countable

theorem Value.Countable.shape {v : Value} {shape : Shape} (h : v.Countable)
    (hv : v.type = .array shape) : shape.Countable := by
  unfold Countable at h
  rw [hv] at h
  cases h with
  | array hshape => exact hshape

/-- An array stored under the shape. -/
def Value.StoredAs (shape : Shape) (v : Value) : Prop :=
  ∃ b, shape.Fits b ∧ v = Value.stored shape b

/-- A vector or a matrix with stored elements. -/
def Value.Concrete (v : Value) : Prop :=
  ∃ shape b, v = Value.stored shape b ∧ shape.Fits b ∧
    (shape.rank = .vector ∨ shape.rank = .matrix)

/-! ## Buffers -/

namespace Buffer

/-- Elements that are all made by one constructor are the values of a list. -/
theorem exists_map_eq {α : Type} (wrap : α → Element) {es : List Element}
    (h : ∀ e ∈ es, ∃ a, wrap a = e) : ∃ data : List α, data.map wrap = es := by
  induction es with
  | nil => exact ⟨[], rfl⟩
  | cons e es ih =>
    obtain ⟨a, rfl⟩ := h e List.mem_cons_self
    obtain ⟨data, rfl⟩ := ih fun x hx => h x (List.mem_cons_of_mem _ hx)
    exact ⟨a :: data, rfl⟩

/-- Elements of one basic kind are those of a buffer. -/
theorem exists_elements_eq {k : Kind} (hk : k.isBasic = true) {es : List Element}
    (h : ∀ e ∈ es, e.kind = k) : ∃ b : Buffer, b.kind = k ∧ b.elements = es := by
  cases k with
  | boolean =>
    obtain ⟨data, rfl⟩ := exists_map_eq Element.boolean fun e he => by
      have := h e he
      cases e <;> simp_all [Element.kind]
    exact ⟨booleans data.toArray, rfl, rfl⟩
  | integer =>
    obtain ⟨data, rfl⟩ := exists_map_eq Element.integer fun e he => by
      have := h e he
      cases e <;> simp_all [Element.kind]
    exact ⟨integers data.toArray, rfl, rfl⟩
  | real =>
    obtain ⟨data, rfl⟩ := exists_map_eq Element.real fun e he => by
      have := h e he
      cases e <;> simp_all [Element.kind]
    exact ⟨reals data.toArray, rfl, rfl⟩
  | character =>
    obtain ⟨data, rfl⟩ := exists_map_eq Element.character fun e he => by
      have := h e he
      cases e <;> simp_all [Element.kind]
    exact ⟨characters data.toArray, rfl, rfl⟩
  | null => cases hk
  | identity => cases hk
  | mixed => cases hk

/-- **Elements of one basic kind are stored as they are.** -/
theorem ofElements_of_kind {k : Kind} (hk : k.isBasic = true) {es : List Element}
    (h : ∀ e ∈ es, e.kind = k) : ∃ b, ofElements k es = .ok b ∧ b.kind = k ∧ b.elements = es := by
  obtain ⟨b, rfl, rfl⟩ := exists_elements_eq hk h
  exact ⟨b, ofElements_elements b, rfl, rfl⟩

/-- A buffer made from elements has one for each. -/
theorem length_of_ofElements {k : Kind} {es : List Element} {b : Buffer}
    (h : ofElements k es = .ok b) : b.length = es.length := by
  cases k <;> simp only [ofElements] at h
  case boolean | integer | real | character =>
    obtain ⟨data, hdata, rfl⟩ := Result.map_eq_ok_iff.1 h
    exact Result.length_of_mapM hdata
  all_goals cases h

theorem isBasic_of_ofElements {k : Kind} {es : List Element} {b : Buffer}
    (h : ofElements k es = .ok b) : k.isBasic = true := by
  rw [← kind_of_ofElements h]
  exact b.isBasic_kind

theorem get_eq_ok_iff {b : Buffer} {pos : Nat} {e : Element} :
    b.get pos = .ok e ↔ b.elements[pos]? = some e := by
  unfold get
  rw [get?_eq]
  cases b.elements[pos]? <;> simp

theorem get_of_lt {b : Buffer} {pos : Nat} (h : pos < b.elements.length) :
    b.get pos = .ok b.elements[pos] := by
  unfold get
  rw [get?_eq, List.getElem?_eq_getElem h]

end Buffer

/-! ## Values -/

namespace Value

variable {shape : Shape} {b : Buffer}

/-- Behind the last element there is a fault. -/
theorem element_of_le {v : Value} {n pos : Nat} (hlength : v.length = .ok n) (hpos : n ≤ pos) :
    v.element pos = .error (.outOfRange pos n) := by
  unfold element
  rw [hlength]
  exact if_pos hpos

theorem lt_of_element {v : Value} {n pos : Nat} {e : Element} (hlength : v.length = .ok n)
    (h : v.element pos = .ok e) : pos < n := by
  refine Nat.lt_of_not_le fun hle => ?_
  rw [element_of_le hlength hle] at h
  cases h

/-- The elements of a value are read one by one, as many as it has. -/
theorem elements_eq_ok_iff {v : Value} {es : List Element} :
    v.elements = .ok es ↔
      v.length = .ok es.length ∧ ∀ pos (h : pos < es.length), v.element pos = .ok es[pos] := by
  unfold elements
  constructor
  · intro h
    obtain ⟨length, hlength, h⟩ := Result.bind_eq_ok_iff.mp h
    have hcount : es.length = length := by rw [Result.length_of_mapM h, List.length_range]
    refine ⟨by rw [hlength, hcount], fun pos hpos => ?_⟩
    have hread := Result.getElem_of_mapM h (by rwa [List.length_range, ← hcount]) hpos
    rwa [List.getElem_range] at hread
  · rintro ⟨hlength, hread⟩
    rw [hlength]
    exact Result.mapM_range_eq_ok hread

/-- The buffers that are let under a shape are those that fit it, if its extents are known. -/
theorem ofBuffer_eq_ok_iff {v : Value} :
    ofBuffer shape b = .ok v ↔
      shape.Fits b ∧ shape.hasOpenExtent = false ∧ v = stored shape b := by
  unfold ofBuffer
  constructor
  · intro h
    split at h
    · cases h
    · rename_i hkind
      split at h
      · cases h
      · rename_i hknown
        split at h
        · cases h
        · rename_i hsize
          refine ⟨⟨?_, ?_⟩, by simpa using hknown, (Except.ok.inj h).symm⟩
          · exact (Classical.not_not.mp hkind).symm
          · exact (Classical.not_not.mp hsize).symm
  · rintro ⟨⟨hkind, hsize⟩, hknown, rfl⟩
    rw [if_neg (Classical.not_not.mpr hkind.symm), if_neg (by simp [hknown]),
      if_neg (Classical.not_not.mpr hsize.symm)]

theorem storedAs_of_ofBuffer {v : Value} (h : ofBuffer shape b = .ok v) : v.StoredAs shape := by
  obtain ⟨hfits, -, rfl⟩ := ofBuffer_eq_ok_iff.mp h
  exact ⟨b, hfits, rfl⟩

theorem StoredAs.length {v : Value} (h : v.StoredAs shape) : v.length = .ok shape.size := by
  obtain ⟨b, -, rfl⟩ := h
  rfl

/-- **Reading a stored array is reading its buffer.** -/
theorem element_stored (h : shape.Fits b) (pos : Nat) :
    (stored shape b).element pos = b.get pos := by
  show (if shape.size ≤ pos then .error (.outOfRange pos shape.size) else b.get pos) = b.get pos
  split
  · rename_i hpos
    rw [← h.size] at hpos
    unfold Buffer.get
    rw [Buffer.get?_eq, List.getElem?_eq_none (by rwa [Buffer.length_elements]), h.size]
  · rfl

theorem element_stored_eq_ok_iff (h : shape.Fits b) {pos : Nat} {e : Element} :
    (stored shape b).element pos = .ok e ↔ b.elements[pos]? = some e := by
  rw [element_stored h, Buffer.get_eq_ok_iff]

theorem element_stored_of_lt (h : shape.Fits b) {pos : Nat} (hpos : pos < b.elements.length) :
    (stored shape b).element pos = .ok b.elements[pos] := by
  rw [element_stored h, Buffer.get_of_lt hpos]

theorem elements_stored (h : shape.Fits b) : (stored shape b).elements = .ok b.elements := by
  have hlen : shape.size = b.elements.length := by rw [Buffer.length_elements, h.size]
  show (List.range shape.size).mapM (stored shape b).element = _
  rw [hlen, Result.mapM_range_eq_ok fun i hi => element_stored_of_lt h hi]

/-- A stored array is neither null nor identity. -/
theorem isSentinel_stored (h : shape.Fits b) : (stored shape b).isSentinel = false := by
  show shape.element.isSentinel = false
  rw [← h.kind]
  cases b <;> rfl

end Value

end ArrayMachine
