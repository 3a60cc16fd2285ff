import ArrayMachine.Indexing
import ArrayMachine.Proofs.Value.Stored

/-!
# What a selection copies

A selection is within a root's shape (`Selection.Within`) if it fits the root's rank and every
position it lists is one of the root's. Whether it is depends on the shape alone, so such a selection
can be gathered from every stored array of the shape, except that a vector indexed by itself selects
by its elements.

* `within_ofIndices`: indices that are accepted select within the shape.
* `gather_eq_ok_iff`: what a copy holds, position by position.
* `gather_of_within`: a selection within the shape is copied without a fault.
* `gather_congr`: two selections that reach the same elements are copied alike, faults included.
-/

namespace ArrayMachine

/-! ## Selectors -/

namespace Selector

theorem get_eq (s : Selector) (pos : Nat) :
    s.get pos = match s.positions[pos]? with
      | some p => .ok p
      | none => .error (.outOfRange pos s.length) := by
  rw [← get?_eq]
  rfl

theorem get_of_lt {s : Selector} {pos : Nat} (h : pos < s.positions.length) :
    s.get pos = .ok s.positions[pos] := by
  rw [get_eq, List.getElem?_eq_getElem h]

theorem mem_of_get {s : Selector} {pos p : Nat} (h : s.get pos = .ok p) : p ∈ s.positions := by
  rw [get_eq] at h
  split at h
  · rename_i q hq
    obtain rfl := Except.ok.inj h
    exact List.mem_of_getElem? hq
  · cases h

/-- A position within the selector's length stands for one it lists. -/
theorem exists_get {s : Selector} {pos : Nat} (h : pos < s.length) :
    ∃ p ∈ s.positions, s.get pos = .ok p := by
  rw [← length_positions] at h
  exact ⟨s.positions[pos], List.getElem_mem h, get_of_lt h⟩

end Selector

namespace IndexList

theorem position_lt {bound p : Nat} {index : Int} (h : position bound index = .ok p) :
    p < bound := by
  unfold position at h
  split at h
  · rename_i hin
    obtain rfl := Except.ok.inj h
    omega
  · cases h

/-- Indices are only accepted within the bound. -/
theorem select_lt {list : IndexList} {bound : Nat} {s : Selector}
    (h : list.select bound = .ok s) : ∀ p ∈ s.positions, p < bound := by
  intro p hp
  cases list with
  | single index =>
    obtain ⟨q, hq, rfl⟩ := Result.map_eq_ok_iff.mp h
    obtain rfl : p = q := by simpa [Selector.positions] using hp
    exact position_lt hq
  | many indices =>
    obtain ⟨qs, hqs, rfl⟩ := Result.map_eq_ok_iff.mp h
    obtain ⟨index, -, hindex⟩ := Result.exists_of_mem_mapM hqs (y := p) hp
    exact position_lt hindex

end IndexList

namespace Selection

variable {σ τ : Selection} {rs cs : Shape} {b c : Buffer} {lists : List IndexList}

/-! ## Shapes of selections -/

theorem element_shape (σ : Selection) (rs : Shape) (n : Nat) :
    (σ.shape rs n).element = rs.element := by
  unfold shape
  split <;> rfl

theorem known_shape (σ : Selection) (rs : Shape) (n : Nat) :
    (σ.shape rs n).hasOpenExtent = false := by
  unfold shape
  split <;> rfl

theorem isEmptyArray_shape (σ : Selection) (rs : Shape) (n : Nat) :
    (σ.shape rs n).isEmptyArray = false := by
  unfold shape
  split <;> rfl

/-- The number of positions that a selection of an array of the given length has. -/
def count (rootLength : Nat) : Selection → Nat
  | bySelf => rootLength
  | vector positions => positions.length
  | matrix (.many rows) (.many columns) => inWord (rows.size * columns.size)
  | matrix rows columns => rows.length * columns.length

/-- A word counts the elements that two axes select, if it counts the indices of each. -/
theorem count_matrix {rows columns : Selector} (hrows : rows.length < UInt64.size)
    (hcolumns : columns.length < UInt64.size) (n : Nat) :
    (matrix rows columns).count n = inWord (rows.length * columns.length) := by
  cases rows with
  | many rows =>
    cases columns with
    | many columns => rfl
    | single column => simpa [count, Selector.length] using (inWord_of_lt hrows).symm
  | single row =>
    cases columns with
    | many columns => simpa [count, Selector.length] using (inWord_of_lt hcolumns).symm
    | single column => rfl

theorem count_matrix_le (rows columns : Selector) (n : Nat) :
    (matrix rows columns).count n ≤ rows.length * columns.length := by
  cases rows <;> cases columns
  case many.many => exact inWord_le _
  all_goals exact Nat.le_refl _

theorem size_shape (σ : Selection) (rs : Shape) (n : Nat) :
    (σ.shape rs n).size = σ.count n := by
  cases σ with
  | bySelf => rfl
  | vector positions => cases positions <;> rfl
  | matrix rows columns =>
    cases rows with
    | single row => cases columns <;> simp [shape, count, Selector.length, Shape.size, Shape.rank,
        Shape.scalar, Shape.vector, Shape.ofExtents, Shape.extent, Shape.extents]
    | many rows => cases columns <;> simp [shape, count, Selector.length, Shape.size, Shape.rank,
        Shape.matrix, Shape.vector, Shape.ofExtents, Shape.extent, Shape.extents]

/-! ## Positions within a root -/

/-- The selection fits the rank of a root of the shape, and the positions it lists are the root's. -/
def Within (rs : Shape) : Selection → Prop
  | bySelf => rs.rank = .vector
  | vector positions => rs.rank = .vector ∧ ∀ p ∈ positions.positions, p < rs.extent 0
  | matrix rows columns => rs.rank = .matrix ∧
    (∀ p ∈ rows.positions, p < rs.extent 0) ∧ ∀ p ∈ columns.positions, p < rs.extent 1

/-- **Indices that are accepted select within the shape.** -/
theorem within_ofIndices {root : Value} (hroot : root.shape? = some rs)
    (h : ofIndices root lists = .ok σ) : σ.Within rs ∧ σ ≠ bySelf := by
  unfold ofIndices at h
  rw [hroot] at h
  simp only at h
  split at h
  · rename_i hrank
    obtain ⟨s, hs, h⟩ := Result.bind_eq_ok_iff.mp h
    obtain rfl := Except.ok.inj h
    exact ⟨⟨hrank, IndexList.select_lt hs⟩, by simp⟩
  · rename_i hrank
    obtain ⟨rows, hrows, h⟩ := Result.bind_eq_ok_iff.mp h
    obtain ⟨columns, hcolumns, h⟩ := Result.bind_eq_ok_iff.mp h
    obtain rfl := Except.ok.inj h
    exact ⟨⟨hrank, IndexList.select_lt hrows, IndexList.select_lt hcolumns⟩, by simp⟩
  · cases h
  · cases h

theorem ofIndices_vector {root : Value} (hroot : root.shape? = some rs) (hrank : rs.rank = .vector)
    (index : IndexList) :
    ofIndices root [index] = index.select rs.size >>= fun s => .ok (vector s) := by
  unfold ofIndices
  rw [hroot, Shape.size_of_vector hrank]
  simp only [hrank]
  rfl

/-- The flat position in a matrix selection, by row and column. -/
theorem flatPosition_matrix {root : Value} (hroot : root.shape? = some rs)
    {rows columns : Selector} {pos row column : Nat} (hcolumns : columns.length ≠ 0)
    (hr : rows.get (pos / columns.length) = .ok row)
    (hc : columns.get (pos % columns.length) = .ok column) :
    (matrix rows columns).flatPosition root pos = .ok (rowMajor (rs.extent 1) row column) := by
  simp only [flatPosition, if_neg hcolumns, hr, hc, hroot]
  rfl

/-- **A selection within the shape reaches elements of the root** at all its positions, if a word
counts them. -/
theorem flatPosition_lt (root : Value) (hroot : root.shape? = some rs) (hcount : rs.Countable)
    (hσ : σ.Within rs) (hself : σ ≠ bySelf) {pos n : Nat} (hpos : pos < σ.count n) :
    ∃ p, σ.flatPosition root pos = .ok p ∧ p < rs.size := by
  cases σ with
  | bySelf => exact absurd rfl hself
  | vector positions =>
    obtain ⟨hrank, hin⟩ := hσ
    obtain ⟨p, hp, hget⟩ := Selector.exists_get hpos
    exact ⟨p, hget, Shape.size_of_vector hrank ▸ hin p hp⟩
  | matrix rows columns =>
    obtain ⟨hrank, hrows, hcolumns⟩ := hσ
    have hpos := Nat.lt_of_lt_of_le hpos (count_matrix_le rows columns n)
    have hne : columns.length ≠ 0 := by
      intro h0
      simp [h0] at hpos
    have hrow : pos / columns.length < rows.length := Nat.div_lt_of_lt_mul (by
      rw [Nat.mul_comm]
      exact hpos)
    obtain ⟨row, hrmem, hr⟩ := Selector.exists_get hrow
    obtain ⟨column, hcmem, hc⟩ := Selector.exists_get (Nat.mod_lt pos (Nat.pos_of_ne_zero hne))
    refine ⟨_, flatPosition_matrix hroot hne hr hc, ?_⟩
    rw [Shape.size_of_countable hrank hcount,
      rowMajor_eq (hrows row hrmem) (hcolumns column hcmem) hcount]
    exact place_lt (hrows row hrmem) (hcolumns column hcmem)

/-! ## Copies -/

/-- The element of a root that a position of a selection reaches. -/
def reach (σ : Selection) (root : Value) (pos : Nat) : Result Element := do
  root.element (← σ.flatPosition root pos)

/-- A null or identity root is copied once all positions are found. -/
theorem gather_of_isSentinel {root : Value} {n : Nat} (hs : root.shape? = some rs)
    (hlength : root.length = .ok n) (h : root.isSentinel = true) (σ : Selection) :
    σ.gather root = ((List.range (σ.count n)).mapM (σ.flatPosition root) >>= fun _ =>
      .ok (Value.sentinel (σ.shape rs n))) := by
  unfold gather
  rw [hs, hlength, ← size_shape σ rs]
  exact if_pos h

/-- And any other root element by element. -/
theorem gather_of_not_isSentinel {root : Value} {n : Nat} (hs : root.shape? = some rs)
    (hlength : root.length = .ok n) (h : root.isSentinel = false) (σ : Selection) :
    σ.gather root = ((List.range (σ.count n)).mapM (σ.reach root) >>= fun elements =>
      Buffer.ofElements rs.element elements >>= Value.ofBuffer (σ.shape rs n)) := by
  unfold gather
  rw [hs, hlength, ← size_shape σ rs, ← element_shape σ rs n]
  exact if_neg (Bool.eq_false_iff.mp h)

theorem gather_stored (h : rs.Fits b) (σ : Selection) :
    σ.gather (Value.stored rs b) =
      ((List.range (σ.count rs.size)).mapM (σ.reach (Value.stored rs b)) >>= fun elements =>
        Buffer.ofElements rs.element elements >>= Value.ofBuffer (σ.shape rs rs.size)) :=
  gather_of_not_isSentinel rfl rfl (Value.isSentinel_stored h) σ

/-- What a selection reaches of a stored root are elements of the root's kind. -/
theorem kind_of_reach (h : rs.Fits b) {pos : Nat} {e : Element}
    (he : σ.reach (Value.stored rs b) pos = .ok e) : e.kind = rs.element := by
  obtain ⟨p, -, he⟩ := Result.bind_eq_ok_iff.mp he
  rw [Value.element_stored_eq_ok_iff h] at he
  rw [Buffer.kind_of_mem_elements (List.mem_of_getElem? he), h.kind]

/-- What is reached of a root of a basic kind is stored as it is, if it is of that kind. -/
theorem elements_of_gather {root copy : Value} {n : Nat} (hs : root.shape? = some rs)
    (hlength : root.length = .ok n) (hsentinel : root.isSentinel = false)
    (hkind : rs.element.isBasic = true → ∀ pos e, σ.reach root pos = .ok e → e.kind = rs.element)
    (hg : σ.gather root = .ok copy) :
    ∃ c, (σ.shape rs n).Fits c ∧ copy = Value.stored (σ.shape rs n) c ∧
      (List.range (σ.count n)).mapM (σ.reach root) = .ok c.elements := by
  rw [gather_of_not_isSentinel hs hlength hsentinel] at hg
  obtain ⟨elements, helements, hg⟩ := Result.bind_eq_ok_iff.mp hg
  obtain ⟨c, hc, hg⟩ := Result.bind_eq_ok_iff.mp hg
  obtain ⟨hfits, -, rfl⟩ := Value.ofBuffer_eq_ok_iff.mp hg
  have hbasic := Buffer.isBasic_of_ofElements hc
  have hkinds : ∀ e ∈ elements, e.kind = rs.element := by
    intro e he
    obtain ⟨pos, -, hpos⟩ := Result.exists_of_mem_mapM helements he
    exact hkind hbasic pos e hpos
  obtain ⟨c', hc', -, heq⟩ := Buffer.ofElements_of_kind hbasic hkinds
  obtain rfl := Except.ok.inj (hc.symm.trans hc')
  exact ⟨c, hfits, rfl, heq ▸ helements⟩

/-- **A copy holds what the selection reaches**, position by position. -/
theorem gather_eq_ok_iff (h : rs.Fits b) {copy : Value} :
    σ.gather (Value.stored rs b) = .ok copy ↔
      ∃ c, (σ.shape rs rs.size).Fits c ∧ copy = Value.stored (σ.shape rs rs.size) c ∧
        (List.range (σ.count rs.size)).mapM (σ.reach (Value.stored rs b)) = .ok c.elements := by
  constructor
  · exact elements_of_gather rfl rfl (Value.isSentinel_stored h) fun _ _ _ => kind_of_reach h
  · rintro ⟨c, hfits, rfl, helements⟩
    rw [gather_stored h, helements]
    have hkind : c.kind = rs.element := hfits.kind.trans (element_shape σ rs rs.size)
    show (Buffer.ofElements rs.element c.elements >>= Value.ofBuffer (σ.shape rs rs.size)) = _
    rw [← hkind, Buffer.ofElements_elements]
    exact Value.ofBuffer_eq_ok_iff.mpr ⟨hfits, known_shape σ rs rs.size, rfl⟩

/-- **A selection that reaches an element at every position is copied without a fault.** -/
theorem gather_of_reach (h : rs.Fits b)
    (hreach : ∀ pos, pos < σ.count rs.size → ∃ e, σ.reach (Value.stored rs b) pos = .ok e) :
    ∃ c, (σ.shape rs rs.size).Fits c ∧
      σ.gather (Value.stored rs b) = .ok (Value.stored (σ.shape rs rs.size) c) := by
  obtain ⟨es, hes⟩ := Result.exists_mapM_eq_ok fun pos hpos => hreach pos (List.mem_range.mp hpos)
  have hkind : ∀ e ∈ es, e.kind = rs.element := by
    intro e he
    obtain ⟨pos, -, hpos⟩ := Result.exists_of_mem_mapM hes he
    exact kind_of_reach h hpos
  have hbasic : rs.element.isBasic = true := h.kind ▸ b.isBasic_kind
  obtain ⟨c, -, hckind, rfl⟩ := Buffer.ofElements_of_kind hbasic hkind
  have hlen := Result.length_of_mapM hes
  rw [List.length_range, Buffer.length_elements] at hlen
  have hfits : (σ.shape rs rs.size).Fits c :=
    ⟨hckind.trans (element_shape σ rs rs.size).symm, hlen.trans (size_shape σ rs rs.size).symm⟩
  exact ⟨c, hfits, (gather_eq_ok_iff h).mpr ⟨c, hfits, rfl, hes⟩⟩

/-- **A selection within the shape is copied without a fault**, if a word counts the elements. -/
theorem gather_of_within (h : rs.Fits b) (hcount : rs.Countable) (hσ : σ.Within rs)
    (hself : σ ≠ bySelf) :
    ∃ c, (σ.shape rs rs.size).Fits c ∧
      σ.gather (Value.stored rs b) = .ok (Value.stored (σ.shape rs rs.size) c) := by
  refine gather_of_reach h fun pos hpos => ?_
  obtain ⟨p, hp, hlt⟩ := flatPosition_lt (Value.stored rs b) rfl hcount hσ hself hpos
  have hlt' : p < b.elements.length := by rwa [Buffer.length_elements, h.size]
  refine ⟨b.elements[p], ?_⟩
  unfold reach
  rw [hp]
  exact Value.element_stored_of_lt h hlt'

/-- Rows and columns whose product comes around to zero, over no elements, have a first place, but
nothing there to copy. -/
theorem gather_uncounted : gather (matrix (.single 0) (.single 0))
    (Value.stored (Shape.matrix .integer 4294967296 4294967296) (.integers #[])) =
      .error (.outOfRange 0 0) := rfl

/-- Reading a copy is reaching into the root. -/
theorem reach_of_gather (h : rs.Fits b) {copy : Value}
    (hg : σ.gather (Value.stored rs b) = .ok copy) {pos : Nat} (hpos : pos < σ.count rs.size) :
    ∃ e, σ.reach (Value.stored rs b) pos = .ok e ∧ copy.element pos = .ok e := by
  obtain ⟨c, hfits, rfl, hc⟩ := (gather_eq_ok_iff h).mp hg
  have hpos' : pos < c.elements.length := by
    rw [Result.length_of_mapM hc, List.length_range]
    exact hpos
  have hreach := Result.getElem_of_mapM hc (by rwa [List.length_range]) hpos'
  rw [List.getElem_range] at hreach
  exact ⟨_, hreach, Value.element_stored_of_lt hfits hpos'⟩

/-- **Selections that reach the same elements are copied alike.** -/
theorem gather_congr (h : rs.Fits b) (hc : cs.Fits c)
    (hshape : σ.shape rs rs.size = τ.shape cs cs.size)
    (hreach : ∀ pos, pos < τ.count cs.size →
      σ.reach (Value.stored rs b) pos = τ.reach (Value.stored cs c) pos) :
    σ.gather (Value.stored rs b) = τ.gather (Value.stored cs c) := by
  have hcount : σ.count rs.size = τ.count cs.size := by
    rw [← size_shape σ rs, ← size_shape τ cs, hshape]
  have helement : rs.element = cs.element := by
    rw [← element_shape σ rs rs.size, hshape, element_shape]
  rw [gather_stored h, gather_stored hc, hcount, hshape, helement,
    Result.mapM_congr fun pos hpos => hreach pos (List.mem_range.mp hpos)]

end Selection

end ArrayMachine
