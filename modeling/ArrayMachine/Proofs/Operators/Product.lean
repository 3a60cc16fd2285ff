import ArrayMachine.Proofs.Operators.Stepping
import Mathlib.Algebra.BigOperators.Group.Finset.Basic

/-!
# A matrix product is the dot products of its views

The product of two matrices is computed by three nested loops over flat positions. Its entries are
also the dot products of the rows of the one matrix and the columns of the other, and these can be
had by indexing: a view of a row or a column is copied and multiplied like any vector. Both ways read
the same numbers, add their products up in the same order, and wrap around alike.

* `Buffer.productLoop_eq`: the loops stay in bounds and compute the table of all entries, if words
  count the elements of all three matrices.
* `Buffer.pairedSum_eq_ofInt`: a wrapped sum of products is the wrapped sum.
* `Scope.view_row`, `Scope.view_column`: copies of a row and a column.
* `Value.binary_mismatch`, `Value.binary_matrices`, `Value.binary_vectors`: the products.
* `Value.product_of_views`: the entries of a product, by the views of the row and the column.
-/

namespace ArrayMachine

namespace Buffer

section Loop

variable {α : Type} {start : α} {n m k i j : Nat} {x y out : Array α}

/-! ## Rows and columns -/

/-- Row `i` of a matrix with `columns` columns. -/
def matrixRow (columns i : Nat) (data : Array α) : List α :=
  (List.range columns).filterMap fun j => data[i * columns + j]?

/-- Column `j` of a matrix of `rows` rows and `columns` columns. -/
def matrixColumn (rows columns j : Nat) (data : Array α) : List α :=
  (List.range rows).filterMap fun i => data[i * columns + j]?

/-- The products of each row of an `n` by `m` matrix with each column of an `m` by `k` one, row by
row. Every sum starts with `start`. -/
def productTable [Add α] [Mul α] (start : α) (n m k : Nat) (x y : Array α) : Array α :=
  ((List.range (n * k)).map fun pos =>
    pairedSum start (matrixRow m (pos / k) x) (matrixColumn m k (pos % k) y)).toArray

/-- A row of a table is read at its flat positions. -/
theorem matrixRow_eq (hx : x.size = n * m) (hi : i < n) (d : α) :
    matrixRow m i x = (List.range m).map fun l => x.getD (i * m + l) d := by
  unfold matrixRow
  rw [← List.filterMap_eq_map]
  refine List.filterMap_congr fun l hl => ?_
  have hlt : i * m + l < x.size := hx ▸ place_lt hi (List.mem_range.mp hl)
  simp [hlt]

/-- So is a column. -/
theorem matrixColumn_eq (hy : y.size = m * k) (hj : j < k) (d : α) :
    matrixColumn m k j y = (List.range m).map fun l => y.getD (l * k + j) d := by
  unfold matrixColumn
  rw [← List.filterMap_eq_map]
  refine List.filterMap_congr fun l hl => ?_
  have hlt : l * k + j < y.size := hy ▸ place_lt (List.mem_range.mp hl) hj
  simp [hlt]

/-! ## The loops -/

variable [Add α] [Mul α]

/-- A sum of products, term by term. -/
theorem pairedSum_map (start : α) (f g : Nat → α) (m : Nat) :
    pairedSum start ((List.range m).map f) ((List.range m).map g) =
      (List.range m).foldl (fun sum l => sum + f l * g l) start := by
  unfold pairedSum
  rw [List.zipWith_map, List.zipWith_self, List.foldl_map]

/-- **The innermost loop** reads in bounds and computes the sum for its entry. -/
theorem entryLoop_eq (hx : x.size = n * m) (hy : y.size = m * k) (hnm : n * m < UInt64.size)
    (hmk : m * k < UInt64.size) (hi : i < n) (hj : j < k) :
    entryLoop start m k i j x y =
      some (pairedSum start (matrixRow m i x) (matrixColumn m k j y)) := by
  rw [matrixRow_eq hx hi start, matrixColumn_eq hy hj start, pairedSum_map]
  -- the sum over the first positions, so that each read has its bound
  suffices hprefix : ∀ p ≤ m, (List.range p).foldlM
      (fun sum l => do return sum + (← x[rowMajor m i l]?) * (← y[rowMajor k l j]?)) start =
      some ((List.range p).foldl
        (fun sum l => sum + x.getD (i * m + l) start * y.getD (l * k + j) start) start) from
    hprefix m (Nat.le_refl m)
  intro p hp
  induction p with
  | zero => rfl
  | succ p ih =>
    have hlx : i * m + p < x.size := hx ▸ place_lt hi hp
    have hly : p * k + j < y.size := hy ▸ place_lt hp hj
    rw [List.range_succ, List.foldlM_append, ih (by omega), List.foldl_append]
    simp [rowMajor_eq hi hp hnm, rowMajor_eq hp hj hmk, hlx, hly]

/-- The entry that a table has at a flat position. -/
def entryAt (start : α) (m k : Nat) (x y : Array α) (pos : Nat) : α :=
  pairedSum start (matrixRow m (pos / k) x) (matrixColumn m k (pos % k) y)

theorem entryAt_flat (hj : j < k) :
    entryAt start m k x y (i * k + j) =
      pairedSum start (matrixRow m i x) (matrixColumn m k j y) := by
  obtain ⟨hdiv, hmod⟩ := div_mod_place i hj
  unfold entryAt
  rw [hdiv, hmod]

/-- The entries before a position are written. -/
structure Written (start : α) (n m k : Nat) (x y : Array α) (pos : Nat) (out : Array α) : Prop where
  size : out.size = n * k
  entries : ∀ q < pos, out[q]? = some (entryAt start m k x y q)

theorem size_productTable (start : α) (n m k : Nat) (x y : Array α) :
    (productTable start n m k x y).size = n * k := by
  simp [productTable]

theorem getElem?_productTable {pos : Nat} (hpos : pos < n * k) :
    (productTable start n m k x y)[pos]? = some (entryAt start m k x y pos) := by
  unfold productTable entryAt
  simp [hpos]

theorem getD_productTable (hi : i < n) (hj : j < k) (d : α) :
    (productTable start n m k x y).getD (i * k + j) d =
      pairedSum start (matrixRow m i x) (matrixColumn m k j y) := by
  rw [Array.getD_eq_getD_getElem?, getElem?_productTable (place_lt hi hj),
    entryAt_flat hj]
  rfl

section Exact

variable (hx : x.size = n * m) (hy : y.size = m * k) (hnm : n * m < UInt64.size)
  (hmk : m * k < UInt64.size) (hnk : n * k < UInt64.size)

include hx hy hnm hmk hnk

/-- **One step of the loops** writes the next entry. -/
theorem Written.step (hi : i < n) (hj : j < k) (h : Written start n m k x y (i * k + j) out) :
    ∃ next, writeEntry start m k i x y out j = some next ∧
      Written start n m k x y (i * k + (j + 1)) next := by
  have hlt : i * k + j < out.size := h.size ▸ place_lt hi hj
  refine ⟨out.set (i * k + j) (entryAt start m k x y (i * k + j)) hlt, ?_,
    ⟨(Array.size_set hlt).trans h.size, fun q hq => ?_⟩⟩
  · unfold writeEntry
    rw [entryLoop_eq hx hy hnm hmk hi hj, entryAt_flat hj, rowMajor_eq hi hj hnk]
    exact dif_pos hlt
  · rw [Array.getElem?_set]
    split
    · rename_i heq
      rw [heq]
    · exact h.entries q (by omega)

/-- The loop over the columns writes a row. -/
theorem Written.columns (hi : i < n) (h : Written start n m k x y (i * k) out) (hj : j ≤ k) :
    ∃ row, (List.range j).foldlM (writeEntry start m k i x y) out = some row ∧
      Written start n m k x y (i * k + j) row := by
  induction j with
  | zero => exact ⟨out, rfl, h⟩
  | succ j ih =>
    obtain ⟨row, hrow, hwritten⟩ := ih (by omega)
    obtain ⟨next, hnext, hstep⟩ := hwritten.step hx hy hnm hmk hnk hi hj
    refine ⟨next, ?_, hstep⟩
    rw [List.range_succ, List.foldlM_append, hrow]
    simp [hnext]

/-- The loop over the rows writes all of them. -/
theorem exists_written (hi : i ≤ n) :
    ∃ out, (List.range i).foldlM
        (fun out i => (List.range k).foldlM (writeEntry start m k i x y) out)
        (Array.replicate (inWord (n * k)) start) = some out ∧
      Written start n m k x y (i * k) out := by
  induction i with
  | zero =>
    refine ⟨_, rfl, ⟨Array.size_replicate.trans (inWord_of_lt hnk), fun q hq => ?_⟩⟩
    rw [Nat.zero_mul] at hq
    exact absurd hq (Nat.not_lt_zero q)
  | succ i ih =>
    obtain ⟨out, hout, hwritten⟩ := ih (by omega)
    obtain ⟨next, hnext, hcolumns⟩ := hwritten.columns hx hy hnm hmk hnk hi (Nat.le_refl k)
    refine ⟨next, ?_, Nat.succ_mul i k ▸ hcolumns⟩
    rw [List.range_succ, List.foldlM_append, hout]
    simp [hnext]

/-- **The loops stay in bounds**, and what they leave is the table of all entries. -/
theorem productLoop_eq :
    productLoop start n m k x y = some (productTable start n m k x y) := by
  obtain ⟨out, hout, hwritten⟩ := exists_written hx hy hnm hmk hnk (Nat.le_refl n)
  refine hout.trans (congrArg some (Array.ext_getElem? fun pos => ?_))
  by_cases hpos : pos < n * k
  · rw [hwritten.entries pos hpos, getElem?_productTable hpos]
  · rw [Array.getElem?_eq_none (by rw [hwritten.size]; omega),
      Array.getElem?_eq_none (by rw [size_productTable]; omega)]

end Exact

/-- The first read of a matrix without elements is out of bounds. -/
theorem productLoop_empty (start : α) (y : Array α) (hn : 0 < n) (hm : 0 < m) (hk : 0 < k) :
    productLoop start n m k #[] y = none := by
  obtain ⟨n, rfl⟩ := Nat.exists_eq_succ_of_ne_zero hn.ne'
  obtain ⟨m, rfl⟩ := Nat.exists_eq_succ_of_ne_zero hm.ne'
  obtain ⟨k, rfl⟩ := Nat.exists_eq_succ_of_ne_zero hk.ne'
  simp [productLoop, writeEntry, entryLoop, List.range_succ_eq_map]

end Loop

/-- **A wrapped sum of wrapped products** is the sum of the products, wrapped once. -/
theorem pairedSum_eq_ofInt (f g : Nat → Int32) (m : Nat) :
    pairedSum 0 ((List.range m).map f) ((List.range m).map g) =
      Int32.ofInt (∑ l ∈ Finset.range m, (f l).toInt * (g l).toInt) := by
  rw [pairedSum_map]
  induction m with
  | zero => rfl
  | succ m ih =>
    rw [List.range_succ, List.foldl_append, ih, Finset.sum_range_succ, Int32.ofInt_add,
      Int32.ofInt_mul, Int32.ofInt_toInt, Int32.ofInt_toInt]
    rfl

end Buffer

variable {n m depth k i j : Nat} {x y : Array Int32} {s t : Shape}

/-! ## Integer matrices -/

/-- Integers under a shape of so many rows and columns. -/
structure Shape.IsGrid (s : Shape) (rows columns : Nat) (x : Array Int32) : Prop where
  operand : s.IsOperand (.integers x)
  extents : s.extents = [some rows, some columns]

/-- An integer matrix of so many rows and columns. -/
structure Value.IsIntegerMatrix (v : Value) (rows columns : Nat) : Prop where
  wellFormed : v.WellFormed
  shaped : ∃ s, v.shape? = some s ∧ s.element = .integer ∧ s.extents = [some rows, some columns]

theorem Value.element_integers (h : s.Fits (.integers x)) {pos : Nat} (hpos : pos < x.size) :
    (Value.stored s (.integers x)).element pos = .ok (.integer (x.getD pos 0)) := by
  rw [Value.element_stored_eq_ok_iff h]
  simp [Buffer.elements, hpos]

namespace Shape.IsGrid

theorem rank (h : s.IsGrid n m x) : s.rank = .matrix := by
  unfold Shape.rank
  rw [dims_of_extents h.operand.nonempty, h.extents]

theorem extent_zero (h : s.IsGrid n m x) : s.extent 0 = n := by
  unfold Shape.extent
  rw [h.extents]
  rfl

theorem extent_one (h : s.IsGrid n m x) : s.extent 1 = m := by
  unfold Shape.extent
  rw [h.extents]
  rfl

theorem size (h : s.IsGrid n m x) (hcount : n * m < UInt64.size) : x.size = n * m := by
  calc x.size = s.size := h.operand.fits.size
    _ = inWord (n * m) := by rw [size_of_matrix h.rank, h.extent_zero, h.extent_one]
    _ = n * m := inWord_of_lt hcount

/-- The flat positions are exact. -/
theorem rowMajor_eq (h : s.IsGrid n m x) (hcount : n * m < UInt64.size) (hi : i < n) (hj : j < m) :
    rowMajor (s.extent 1) i j = i * m + j := by
  rw [h.extent_one]
  exact ArrayMachine.rowMajor_eq hi hj hcount

/-- A matrix is read at the flat positions. -/
theorem element (h : s.IsGrid n m x) (hcount : n * m < UInt64.size) (hi : i < n) (hj : j < m) :
    (Value.stored s (.integers x)).element (i * m + j) = .ok (.integer (x.getD (i * m + j) 0)) :=
  Value.element_integers h.operand.fits (h.size hcount ▸ place_lt hi hj)

theorem matrix (hx : x.size = n * m) (hcount : n * m < UInt64.size) :
    (Shape.matrix .integer n m).IsGrid n m x :=
  ⟨⟨⟨rfl, hx.trans (inWord_of_lt hcount).symm⟩, rfl, rfl⟩, rfl⟩

end Shape.IsGrid

namespace Value

/-- An integer matrix is stored. -/
theorem IsIntegerMatrix.exists_stored {v : Value} (h : v.IsIntegerMatrix n m) :
    ∃ s x, s.IsGrid n m x ∧ v = stored s (.integers x) := by
  obtain ⟨s, hs, hkind, hextents⟩ := h.shaped
  have hempty : s.isEmptyArray = false := by
    unfold Shape.isEmptyArray Shape.rank
    unfold Shape.extents at hextents
    split at hextents
    · cases hextents
    · rename_i hdims
      rw [hdims, hextents]
      rfl
  obtain ⟨x, hx, rfl⟩ := h.wellFormed.exists_integers hs hempty hkind
  exact ⟨s, x, ⟨hx, hextents⟩, rfl⟩

end Value

/-! ## Views of rows and columns -/

namespace Selection

/-- One row. -/
def row (i columns : Nat) : Selection := matrix (.single i) (.many (List.range columns).toArray)

/-- One column. -/
def column (rows j : Nat) : Selection := matrix (.many (List.range rows).toArray) (.single j)

theorem get_range {l : Nat} (hl : l < m) :
    (Selector.many (List.range m).toArray).get l = .ok l := by
  have hlt : l < (Selector.many (List.range m).toArray).positions.length := by
    simpa [Selector.positions]
  rw [Selector.get_of_lt hlt]
  simp [Selector.positions]

/-- A copy of stored integers holds the ones at the flat positions of the selection. -/
theorem gather_integers {σ : Selection} (h : s.Fits (.integers x)) {f : Nat → Nat}
    (hflat : ∀ pos < σ.count s.size,
      σ.flatPosition (Value.stored s (.integers x)) pos = .ok (f pos) ∧ f pos < x.size) :
    σ.gather (Value.stored s (.integers x)) = .ok (Value.stored (σ.shape s s.size)
      (.integers ((List.range (σ.count s.size)).map fun pos => x.getD (f pos) 0).toArray)) := by
  have hkind : s.element = .integer := h.kind.symm
  refine (gather_eq_ok_iff h).mpr ⟨_, ⟨?_, ?_⟩, rfl, ?_⟩
  · rw [element_shape, hkind]
    rfl
  · rw [size_shape]
    simp [Buffer.length]
  · rw [Result.mapM_eq_ok_iff, Buffer.elements, List.map_map, List.map_map]
    refine List.map_congr_left fun pos hpos => ?_
    obtain ⟨hpos, hlt⟩ := hflat pos (List.mem_range.mp hpos)
    unfold reach
    rw [hpos]
    exact Value.element_integers h hlt

/-- **A copy of a row** holds its numbers. -/
theorem gather_row (h : s.IsGrid n m x) (hcount : n * m < UInt64.size) (hi : i < n) :
    (row i m).gather (Value.stored s (.integers x)) =
      .ok (Value.vector (.integers (Buffer.matrixRow m i x).toArray)) := by
  have hlength : (row i m).count s.size = m := by simp [row, count, Selector.length]
  have hshape : (row i m).shape s s.size = Shape.vector .integer m := by
    simp [row, shape, ← h.operand.fits.kind, Buffer.kind]
  rw [gather_integers h.operand.fits (f := fun l => i * m + l) fun l hl => ?_, hlength, hshape,
    Buffer.matrixRow_eq (h.size hcount) hi 0]
  · simp [Value.vector, Buffer.kind, Buffer.length]
  · rw [hlength] at hl
    refine ⟨?_, h.size hcount ▸ place_lt hi hl⟩
    unfold row
    rw [flatPosition_row (by simpa [Selector.length]), get_range hl]
    exact congrArg Except.ok (h.rowMajor_eq hcount hi hl)

/-- **A copy of a column** holds its numbers. -/
theorem gather_column (h : s.IsGrid n m x) (hcount : n * m < UInt64.size) (hj : j < m) :
    (column n j).gather (Value.stored s (.integers x)) =
      .ok (Value.vector (.integers (Buffer.matrixColumn n m j x).toArray)) := by
  have hlength : (column n j).count s.size = n := by simp [column, count, Selector.length]
  have hshape : (column n j).shape s s.size = Shape.vector .integer n := by
    simp [column, shape, ← h.operand.fits.kind, Buffer.kind]
  rw [gather_integers h.operand.fits (f := fun l => l * m + j) fun l hl => ?_, hlength, hshape,
    Buffer.matrixColumn_eq (h.size hcount) hj 0]
  · simp [Value.vector, Buffer.kind, Buffer.length]
  · rw [hlength] at hl
    refine ⟨?_, h.size hcount ▸ place_lt hl hj⟩
    unfold column
    rw [flatPosition_column, get_range hl]
    exact congrArg Except.ok (h.rowMajor_eq hcount hl hj)

/-- A copy of one entry. -/
theorem gather_entry (h : s.IsGrid n m x) (hcount : n * m < UInt64.size) (hi : i < n)
    (hj : j < m) :
    (matrix (.single i) (.single j)).gather (Value.stored s (.integers x)) =
      .ok (Value.integer (x.getD (i * m + j) 0)) := by
  have hkind : s.element = .integer := h.operand.fits.kind.symm
  rw [gather_integers h.operand.fits (f := fun _ => i * m + j) fun pos hpos => ?_]
  · show Except.ok (Value.stored (Shape.scalar s.element) _) = _
    rw [hkind]
    rfl
  · obtain rfl : pos = 0 := Nat.lt_one_iff.mp hpos
    refine ⟨?_, h.size hcount ▸ place_lt hi hj⟩
    rw [flatPosition_column]
    exact congrArg Except.ok (h.rowMajor_eq hcount hi hj)

theorem ofIndices_matrix (h : s.IsGrid n m x) {rows columns : IndexList} {r c : Selector}
    (hrows : rows.select n = .ok r) (hcolumns : columns.select m = .ok c) :
    ofIndices (Value.stored s (.integers x)) [rows, columns] = .ok (matrix r c) := by
  have hshape : (Value.stored s (.integers x)).shape? = some s := rfl
  unfold ofIndices
  rw [hshape]
  simp only [h.rank, h.extent_zero, h.extent_one, hrows, hcolumns]
  rfl

end Selection

namespace Scope

variable {scope : Scope} {handle : Handle} {u v : Value} {axis : Interval} {p q : Int32}

/-- A single index selects the position below it. -/
theorem select_single (hi : i < n) (hp : p.toInt = i + 1) :
    (IndexList.single p.toInt).select n = .ok (.single i) := by
  show (Selector.single <$> IndexList.position n p.toInt) = _
  unfold IndexList.position
  rw [if_pos (by omega), hp, Int.add_sub_cancel]
  rfl

/-- The interval from one selects all positions. -/
theorem select_axis (hlength : axis.length = m)
    (hmember : ∀ offset < m, (axis.member offset).toInt = offset + 1) :
    (IndexList.many (axis.toList.map Int32.toInt)).select m =
      .ok (.many (List.range m).toArray) := by
  have hbelow : ∀ l ∈ List.range m, l < m := fun l hl => List.mem_range.mp hl
  unfold Interval.toList
  rw [hlength, Value.indices_of_members hmember hbelow, Value.select_positions hbelow]

/-- Two indices make a view of a matrix. -/
theorem view_matrix (h : s.IsGrid n m x) (hget : scope.get handle = .ok (.stored s (.integers x)))
    {rows columns : IndexList} {r c : Selector}
    (hlists : scope.indexLists [.value u, .value v] = .ok [rows, columns])
    (hrows : rows.select n = .ok r) (hcolumns : columns.select m = .ok c) :
    ∃ view, scope.index (.anchored handle) [.value u, .value v] = .ok view ∧
      scope.materialize view = (Selection.matrix r c).gather (.stored s (.integers x)) := by
  have hbase : scope.operandValue (.anchored handle) = .ok (.stored s (.integers x)) := hget
  refine ⟨_, ?_, materialize_ofView hget ((Selection.matrix r c).shape s s.size) _⟩
  rw [index_eq hbase h.operand.nonempty rfl, hlists]
  show (Selection.ofIndices (.stored s (.integers x)) [rows, columns] >>= _) = _
  rw [Selection.ofIndices_matrix h hrows hcolumns]
  rfl

/-- **A view of a row** is copied as the numbers of the row. -/
theorem view_row (h : s.IsGrid n m x) (hcount : n * m < UInt64.size)
    (hget : scope.get handle = .ok (.stored s (.integers x))) (hlength : axis.length = m)
    (hmember : ∀ offset < m, (axis.member offset).toInt = offset + 1)
    (hi : i < n) (hp : p.toInt = i + 1) :
    ∃ view, scope.index (.anchored handle) [.value (.integer p), .value (.ofInterval axis)] =
        .ok view ∧
      scope.materialize view = .ok (.vector (.integers (Buffer.matrixRow m i x).toArray)) := by
  obtain ⟨view, hview, hcopy⟩ := view_matrix (u := .integer p) (v := .ofInterval axis) h hget rfl
    (select_single hi hp) (select_axis hlength hmember)
  exact ⟨view, hview, hcopy.trans (Selection.gather_row h hcount hi)⟩

/-- **A view of a column** is copied as the numbers of the column. -/
theorem view_column (h : s.IsGrid n m x) (hcount : n * m < UInt64.size)
    (hget : scope.get handle = .ok (.stored s (.integers x))) (hlength : axis.length = n)
    (hmember : ∀ offset < n, (axis.member offset).toInt = offset + 1)
    (hj : j < m) (hp : p.toInt = j + 1) :
    ∃ view, scope.index (.anchored handle) [.value (.ofInterval axis), .value (.integer p)] =
        .ok view ∧
      scope.materialize view = .ok (.vector (.integers (Buffer.matrixColumn n m j x).toArray)) := by
  obtain ⟨view, hview, hcopy⟩ := view_matrix (u := .ofInterval axis) (v := .integer p) h hget rfl
    (select_axis hlength hmember) (select_single hj hp)
  exact ⟨view, hview, hcopy.trans (Selection.gather_column h hcount hj)⟩

/-- Two single indices of a matrix that is not on the stack give an entry. -/
theorem index_entry (scope : Scope) (h : s.IsGrid n m x) (hcount : n * m < UInt64.size) (hi : i < n)
    (hj : j < m) (hp : p.toInt = i + 1) (hq : q.toInt = j + 1) :
    scope.index (.value (.stored s (.integers x))) [.value (.integer p), .value (.integer q)] =
      .ok (.integer (x.getD (i * m + j) 0)) := by
  have hlists : scope.indexLists [.value (.integer p), .value (.integer q)] =
      .ok [.single p.toInt, .single q.toInt] := rfl
  rw [index_value h.operand.nonempty, hlists]
  show (Selection.ofIndices (.stored s (.integers x)) [.single p.toInt, .single q.toInt] >>=
    fun τ => τ.gather (.stored s (.integers x))) = _
  rw [Selection.ofIndices_matrix h (select_single hi hp) (select_single hj hq)]
  exact Selection.gather_entry h hcount hi hj

end Scope

namespace Value

variable {a b : Value}

/-! ## The two products -/

/-- Integers are multiplied as they are. -/
theorem binary_dot (hx : s.IsOperand (.integers x)) (hy : t.IsOperand (.integers y)) :
    binary .dot (stored s (.integers x)) (stored t (.integers y)) =
      product (stored s (.integers x)) (stored t (.integers y)) := by
  have hskind : s.element = .integer := hx.fits.kind.symm
  have htkind : t.element = .integer := hy.fits.kind.symm
  have hmeet : s.element.common? t.element = some .integer := by
    rw [hskind, htkind]
    rfl
  have harrays : binary .dot (stored s (.integers x)) (stored t (.integers y)) =
      arraysOfKinds .dot (stored s (.integers x)) (stored t (.integers y)) :=
    binary_stored hx hy nofun nofun
  have hpromote {u : Shape} {c : Buffer} (hkind : u.element = .integer) :
      (stored u c).promoteArray .integer = .ok (stored u c) := if_pos hkind
  obtain ⟨s', t', c, d, -, -, ha, hb, happly⟩ := arraysOfKinds_promoted hx hy hmeet
  have hleft := Except.ok.inj ((hpromote hskind).symm.trans ha)
  have hright := Except.ok.inj ((hpromote htkind).symm.trans hb)
  rw [harrays, happly, hleft, hright]
  rfl

/-- **The product of two vectors** is the sum of the products of their numbers. -/
theorem binary_vectors {xs ys : List Int32} (h : xs.length = ys.length) :
    binary .dot (vector (.integers xs.toArray)) (vector (.integers ys.toArray)) =
      .ok (integer (Buffer.pairedSum 0 xs ys)) := by
  have hoperand (zs : List Int32) :
      (Shape.vector .integer zs.length).IsOperand (.integers zs.toArray) := ⟨⟨rfl, rfl⟩, rfl, rfl⟩
  have hdot : Buffer.dot (.integers xs.toArray) (.integers ys.toArray) =
      .ok (.integer (Buffer.pairedSum 0 xs ys)) := if_neg (Classical.not_not.mpr h)
  refine (binary_dot (hoperand xs) (hoperand ys)).trans ?_
  show (Buffer.dot (.integers xs.toArray) (.integers ys.toArray) >>= fun e => .ok (ofElement e)) = _
  rw [hdot]
  rfl

/-- Matrices are multiplied if the inner extents agree. -/
theorem product_of_grids (hx : s.IsGrid n m x) (hy : t.IsGrid depth k y) :
    product (stored s (.integers x)) (stored t (.integers y)) =
      if m ≠ depth then .error (.dimensionMismatch s!"cannot multiply {n}x{m} by {depth}x{k}")
      else Buffer.matrixProduct (.integers x) (.integers y) n m k >>= fun table =>
        ofBuffer (Shape.matrix table.kind n k) table := by
  unfold product arrayShape
  dsimp only [stored, shape?, ValueType.shape?, bind, Except.bind]
  rw [hx.rank, hy.rank, hx.extent_zero, hx.extent_one, hy.extent_zero, hy.extent_one]
  rfl

/-- **Matrices without a common extent** have no product. -/
theorem binary_mismatch (hx : s.IsGrid n m x) (hy : t.IsGrid depth k y) (hne : m ≠ depth) :
    binary .dot (stored s (.integers x)) (stored t (.integers y)) =
      .error (.dimensionMismatch s!"cannot multiply {n}x{m} by {depth}x{k}") := by
  rw [binary_dot hx.operand hy.operand, product_of_grids hx hy]
  exact if_pos hne

/-- **The product of two matrices** is the table of all entries. -/
theorem binary_matrices (hx : s.IsGrid n m x) (hy : t.IsGrid m k y) (hnm : n * m < UInt64.size)
    (hmk : m * k < UInt64.size) (hnk : n * k < UInt64.size) :
    binary .dot (stored s (.integers x)) (stored t (.integers y)) =
      .ok (stored (Shape.matrix .integer n k) (.integers (Buffer.productTable 0 n m k x y))) := by
  have htable : Buffer.matrixProduct (.integers x) (.integers y) n m k =
      .ok (.integers (Buffer.productTable 0 n m k x y)) := by
    unfold Buffer.matrixProduct
    rw [if_neg (by
      simp [Buffer.length, inWord_of_lt hnm, inWord_of_lt hmk, hx.size hnm, hy.size hmk])]
    show Buffer.integers <$> Buffer.inBounds (Buffer.productLoop 0 n m k x y) = _
    rw [Buffer.productLoop_eq (hx.size hnm) (hy.size hmk) hnm hmk hnk]
    rfl
  have hfits := (Shape.IsGrid.matrix (Buffer.size_productTable 0 n m k x y) hnk).operand
  rw [binary_dot hx.operand hy.operand, product_of_grids hx hy, if_neg (Classical.not_not.mpr rfl),
    htable]
  exact ofBuffer_eq_ok_iff.mpr ⟨hfits.fits, rfl, rfl⟩

/-- Row `p` of the one matrix and column `q` of the other, with the indices of the axis, can be viewed
and copied, and the dot product of the copies is the number. -/
def ViewsMultiplyTo (scope : Scope) (left right : Handle) (axis : Interval) (p q z : Int32) : Prop :=
  ∃ row column u v,
    scope.index (.anchored left) [.value (integer p), .value (ofInterval axis)] = .ok row ∧
    scope.index (.anchored right) [.value (ofInterval axis), .value (integer q)] = .ok column ∧
    scope.materialize row = .ok u ∧ scope.materialize column = .ok v ∧
    binary .dot u v = .ok (integer z)

/-- **A matrix product is the dot products of its views.** Two integer matrices without a common
extent have no product. Otherwise, if words hold the numbers of elements of all three, it is an
integer matrix, and each of its entries is the sum of the products of the numbers in the row and in
the column, wrapped around. If the common extent is an integer, and so are the one-based numbers of
the row and the column, then views of the row and the column can be had by indexing, and the entry is
the dot product of their copies. -/
theorem product_of_views {scope : Scope} {left right : Handle} (ha : a.IsIntegerMatrix n m)
    (hb : b.IsIntegerMatrix depth k) (hleft : scope.get left = .ok a)
    (hright : scope.get right = .ok b) :
    (m ≠ depth → binary .dot a b =
      .error (.dimensionMismatch s!"cannot multiply {n}x{m} by {depth}x{k}")) ∧
    (m = depth → n * m < UInt64.size → m * k < UInt64.size → n * k < UInt64.size →
      ∃ c, binary .dot a b = .ok c ∧ c.StoredAs (Shape.matrix .integer n k) ∧
      ∀ i < n, ∀ j < k, ∃ (z : Int32) (f g : Nat → Int32),
        c.element (i * k + j) = .ok (.integer z) ∧
        (∀ l < m, a.element (i * m + l) = .ok (.integer (f l)) ∧
          b.element (l * k + j) = .ok (.integer (g l))) ∧
        z = Int32.ofInt (∑ l ∈ Finset.range m, (f l).toInt * (g l).toInt) ∧
        (1 ≤ m → m ≤ 2 ^ 31 - 1 → ∃ axis, Interval.ofEnds 1 (Int32.ofNat m) = .ok axis ∧
          ∀ p q : Int32, p.toInt = i + 1 → q.toInt = j + 1 →
            ViewsMultiplyTo scope left right axis p q z ∧
              scope.index (.value c) [.value (integer p), .value (integer q)] =
                .ok (integer z))) := by
  obtain ⟨s, x, hx, rfl⟩ := ha.exists_stored
  obtain ⟨t, y, hy, rfl⟩ := hb.exists_stored
  refine ⟨binary_mismatch hx hy, ?_⟩
  rintro rfl hnm hmk hnk
  rw [binary_matrices hx hy hnm hmk hnk]
  have hc := Shape.IsGrid.matrix (Buffer.size_productTable 0 n m k x y) hnk
  refine ⟨_, rfl, ⟨_, hc.operand.fits, rfl⟩, fun i hi j hj => ?_⟩
  have hentry : (Buffer.productTable 0 n m k x y).getD (i * k + j) 0 =
      Buffer.pairedSum 0 (Buffer.matrixRow m i x) (Buffer.matrixColumn m k j y) :=
    Buffer.getD_productTable hi hj 0
  refine ⟨_, fun l => x.getD (i * m + l) 0, fun l => y.getD (l * k + j) 0, hc.element hnk hi hj,
    fun l hl => ⟨hx.element hnm hi hl, hy.element hmk hl hj⟩, ?_, fun hpos hmax => ?_⟩
  · rw [hentry, Buffer.matrixRow_eq (hx.size hnm) hi 0, Buffer.matrixColumn_eq (hy.size hmk) hj 0,
      Buffer.pairedSum_eq_ofInt]
  · obtain ⟨axis, haxis, hlength, hmember⟩ := Interval.exists_fromOne hpos hmax
    refine ⟨axis, haxis, fun p q hp hq => ?_⟩
    obtain ⟨row, hrow, hu⟩ := Scope.view_row hx hnm hleft hlength hmember hi hp
    obtain ⟨column, hcolumn, hv⟩ := Scope.view_column hy hmk hright hlength hmember hj hq
    refine ⟨⟨row, column, _, _, hrow, hcolumn, hu, hv, ?_⟩,
      Scope.index_entry scope hc hnk hi hj hp hq⟩
    rw [hentry]
    refine binary_vectors ?_
    rw [Buffer.matrixRow_eq (hx.size hnm) hi 0, Buffer.matrixColumn_eq (hy.size hmk) hj 0,
      List.length_map, List.length_map]

/-- The last entry of a product wraps around, whether the matrices are multiplied or views of the
second row and the second column. A matrix that is not square has no product with itself. -/
theorem product_of_views_wrapped :
    let wide := stored (Shape.matrix .integer 2 3) (.integers #[1, 2, 3, 2147483647, 2, 0])
    let tall := stored (Shape.matrix .integer 3 2) (.integers #[7, 2, 8, 3, 9, 4])
    let stack := (((Scope.empty 2).pushVariable wide).2.pushVariable tall).2
    wide.IsIntegerMatrix 2 3 ∧ tall.IsIntegerMatrix 3 2 ∧
      stack.get ⟨0, 0⟩ = .ok wide ∧ stack.get ⟨1, 1⟩ = .ok tall ∧
      binary .dot wide tall =
        .ok (stored (Shape.matrix .integer 2 2) (.integers #[50, 20, -2147483639, 4])) ∧
      ViewsMultiplyTo stack ⟨0, 0⟩ ⟨1, 1⟩ ⟨1, 3, by decide⟩ 2 2 4 ∧
      binary .dot wide wide = .error (.dimensionMismatch "cannot multiply 2x3 by 2x3") := by
  intro wide tall stack
  have hwide : wide.IsIntegerMatrix 2 3 := ⟨.stored ⟨rfl, rfl⟩ rfl, _, rfl, rfl, rfl⟩
  have htall : tall.IsIntegerMatrix 3 2 := ⟨.stored ⟨rfl, rfl⟩ rfl, _, rfl, rfl, rfl⟩
  have hleft : stack.get ⟨0, 0⟩ = .ok wide := rfl
  have hright : stack.get ⟨1, 1⟩ = .ok tall := rfl
  have hproduct : binary .dot wide tall =
      .ok (stored (Shape.matrix .integer 2 2) (.integers #[50, 20, -2147483639, 4])) := by
    unfold binary
    rfl
  have hrefused := (product_of_views hwide hwide hleft hleft).1 (by decide)
  obtain ⟨c, hc, -, hentries⟩ := (product_of_views hwide htall hleft hright).2 rfl
    (by decide) (by decide) (by decide)
  obtain rfl := Except.ok.inj (hproduct.symm.trans hc)
  obtain ⟨z, -, -, hz, -, -, hviews⟩ := hentries 1 Nat.one_lt_two 1 Nat.one_lt_two
  obtain rfl : 4 = z := by
    cases hz
    rfl
  obtain ⟨axis, haxis, hentry⟩ := hviews (by decide) (by decide)
  have hthree : Interval.ofEnds 1 3 = .ok ⟨1, 3, by decide⟩ := rfl
  obtain rfl := Except.ok.inj (hthree.symm.trans haxis)
  exact ⟨hwide, htall, hleft, hright, hproduct, (hentry 2 2 rfl rfl).1, hrefused⟩

/-- `2 ^ 63` rows of two columns are no element, as a word counts them: the matrix is well-formed,
but the loops read past its end. -/
theorem product_not_of_views :
    let uncounted := stored (Shape.matrix .integer (2 ^ 63) 2) (.integers #[])
    let square := stored (Shape.matrix .integer 2 2) (.integers #[1, 2, 3, 4])
    let stack := (((Scope.empty 2).pushVariable uncounted).2.pushVariable square).2
    uncounted.IsIntegerMatrix (2 ^ 63) 2 ∧ square.IsIntegerMatrix 2 2 ∧
      stack.get ⟨0, 0⟩ = .ok uncounted ∧ stack.get ⟨1, 1⟩ = .ok square ∧
      binary .dot uncounted square = .error .overrun := by
  intro uncounted square stack
  have hx : (Shape.matrix .integer (2 ^ 63) 2).IsGrid (2 ^ 63) 2 #[] := ⟨⟨⟨rfl, rfl⟩, rfl, rfl⟩, rfl⟩
  have hy : (Shape.matrix .integer 2 2).IsGrid 2 2 #[1, 2, 3, 4] := ⟨⟨⟨rfl, rfl⟩, rfl, rfl⟩, rfl⟩
  have hlengths : ¬((Buffer.integers #[]).length ≠ inWord (2 ^ 63 * 2) ∨
      (Buffer.integers #[1, 2, 3, 4]).length ≠ inWord (2 * 2)) := by decide
  refine ⟨⟨.stored hx.operand.fits rfl, _, rfl, rfl, rfl⟩,
    ⟨.stored hy.operand.fits rfl, _, rfl, rfl, rfl⟩, rfl, rfl, ?_⟩
  rw [binary_dot hx.operand hy.operand, product_of_grids hx hy, if_neg (by decide)]
  unfold Buffer.matrixProduct
  rw [if_neg hlengths]
  dsimp only
  rw [Buffer.productLoop_empty 0 #[1, 2, 3, 4] (by decide) (by decide) (by decide)]
  rfl

end Value

end ArrayMachine
