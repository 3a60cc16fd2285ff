import ArrayMachine.Proofs.Operators.Product
import Mathlib.Algebra.BigOperators.Group.Finset.Sigma
import Mathlib.Algebra.BigOperators.Ring.Finset

/-!
# Matrix products associate

An entry of a product of three integer matrices is a sum of sums of products, and at every level it
has been wrapped around: the inner product is stored as 32-bit integers before the outer one reads
it. A wrapped number and the number itself cannot be told apart under another wrapping sum, so both
groupings come to the wrapped double sum over the two inner extents, one of them with the order of
summation exchanged.

* `Buffer.ofInt_sum_congr`: terms under a wrapped sum may be wrapped.
* `Buffer.entry_productTable`: an entry of a product.
* `Buffer.entry_left`, `Buffer.entry_right`: an entry of either grouping, as one double sum.
* `Value.product_assoc`: both groupings have a product, and it is the same matrix.
-/

namespace ArrayMachine

namespace Buffer

variable {n m k l i j : Nat} {x y z : Array Int32}

/-! ## Wrapped sums -/

/-- Sums of terms that wrap alike wrap alike. -/
theorem ofInt_sum_congr {f g : Nat → Int} (h : ∀ p < m, Int32.ofInt (f p) = Int32.ofInt (g p)) :
    Int32.ofInt (∑ p ∈ Finset.range m, f p) = Int32.ofInt (∑ p ∈ Finset.range m, g p) := by
  induction m with
  | zero => rfl
  | succ m ih =>
    rw [Finset.sum_range_succ, Finset.sum_range_succ, Int32.ofInt_add, Int32.ofInt_add,
      ih fun p hp => h p (Nat.lt_succ_of_lt hp), h m (Nat.lt_succ_self m)]

/-- A wrapped factor and the factor itself make products that wrap alike. -/
theorem ofInt_wrapped_mul (a b : Int) :
    Int32.ofInt ((Int32.ofInt a).toInt * b) = Int32.ofInt (a * b) := by
  rw [Int32.ofInt_mul, Int32.ofInt_toInt, Int32.ofInt_mul]

theorem ofInt_mul_wrapped (a b : Int) :
    Int32.ofInt (a * (Int32.ofInt b).toInt) = Int32.ofInt (a * b) := by
  rw [Int.mul_comm, ofInt_wrapped_mul, Int.mul_comm]

/-! ## Entries -/

/-- The number in row `i` and column `j` of a matrix with so many columns. -/
def entry (columns : Nat) (x : Array Int32) (i j : Nat) : Int := (x.getD (i * columns + j) 0).toInt

/-- **An entry of a product** is the wrapped sum of the products of a row and a column. -/
theorem entry_productTable (hx : x.size = n * m) (hy : y.size = m * k) (hi : i < n) (hj : j < k) :
    entry k (productTable 0 n m k x y) i j =
      (Int32.ofInt (∑ p ∈ Finset.range m, entry m x i p * entry k y p j)).toInt := by
  unfold entry
  rw [getD_productTable hi hj, matrixRow_eq hx hi 0, matrixColumn_eq hy hj 0, pairedSum_eq_ofInt]

/-- A table is its entries. -/
theorem table_ext {x y : Array Int32} (hx : x.size = n * k) (hy : y.size = n * k)
    (h : ∀ i < n, ∀ j < k, entry k x i j = entry k y i j) : x = y := by
  refine Array.ext (hx.trans hy.symm) fun pos hpos hpos' => ?_
  have hlt : pos < n * k := hx ▸ hpos
  have hk : 0 < k := Nat.pos_of_mul_pos_left (Nat.zero_lt_of_lt hlt)
  have hentry := h (pos / k) (Nat.div_lt_of_lt_mul (Nat.mul_comm n k ▸ hlt)) (pos % k)
    (Nat.mod_lt pos hk)
  unfold entry at hentry
  rw [Nat.div_add_mod', Int32.toInt_inj] at hentry
  simpa [hpos, hpos'] using hentry

/-! ## Three factors -/

/-- An entry of the product whose left factor is itself a product. -/
theorem entry_left (hx : x.size = n * m) (hy : y.size = m * k) (hz : z.size = k * l) (hi : i < n)
    (hj : j < l) :
    entry l (productTable 0 n k l (productTable 0 n m k x y) z) i j =
      (Int32.ofInt (∑ p ∈ Finset.range m, ∑ q ∈ Finset.range k,
        entry m x i p * entry k y p q * entry l z q j)).toInt := by
  rw [entry_productTable (size_productTable 0 n m k x y) hz hi hj, Finset.sum_comm]
  refine congrArg Int32.toInt (ofInt_sum_congr fun q hq => ?_)
  rw [entry_productTable hx hy hi hq, ofInt_wrapped_mul, Finset.sum_mul]

/-- An entry of the product whose right factor is itself a product. -/
theorem entry_right (hx : x.size = n * m) (hy : y.size = m * k) (hz : z.size = k * l) (hi : i < n)
    (hj : j < l) :
    entry l (productTable 0 n m l x (productTable 0 m k l y z)) i j =
      (Int32.ofInt (∑ p ∈ Finset.range m, ∑ q ∈ Finset.range k,
        entry m x i p * entry k y p q * entry l z q j)).toInt := by
  rw [entry_productTable hx (size_productTable 0 m k l y z) hi hj]
  refine congrArg Int32.toInt (ofInt_sum_congr fun p hp => ?_)
  rw [entry_productTable hy hz hp hj, ofInt_mul_wrapped, Finset.mul_sum]
  exact congrArg Int32.ofInt (Finset.sum_congr rfl fun q _ => (Int.mul_assoc _ _ _).symm)

/-- **Both groupings** fill the same table. -/
theorem productTable_assoc (hx : x.size = n * m) (hy : y.size = m * k) (hz : z.size = k * l) :
    productTable 0 n k l (productTable 0 n m k x y) z =
      productTable 0 n m l x (productTable 0 m k l y z) :=
  table_ext (size_productTable ..) (size_productTable ..) fun _ hi _ hj =>
    (entry_left hx hy hz hi hj).trans (entry_right hx hy hz hi hj).symm

end Buffer

namespace Value

variable {n m k l : Nat} {a b c : Value} {s t : Shape} {x y : Array Int32}

/-- **Products of integer matrices associate.** Three matrices whose inner extents agree, of any
extents with words to hold every number of elements, have a product in either grouping. It is the
same matrix, with the outer two extents, and each of its entries is the sum over both inner extents
of the products of three numbers, wrapped around once. -/
theorem product_assoc (ha : a.IsIntegerMatrix n m) (hb : b.IsIntegerMatrix m k)
    (hc : c.IsIntegerMatrix k l) (hnm : n * m < UInt64.size) (hmk : m * k < UInt64.size)
    (hkl : k * l < UInt64.size) (hnk : n * k < UInt64.size) (hml : m * l < UInt64.size)
    (hnl : n * l < UInt64.size) :
    ∃ ab bc abc, binary .dot a b = .ok ab ∧ binary .dot b c = .ok bc ∧
      binary .dot ab c = .ok abc ∧ binary .dot a bc = .ok abc ∧
      abc.StoredAs (Shape.matrix .integer n l) ∧
      ∀ i < n, ∀ j < l, ∃ (f : Nat → Int32) (g : Nat → Nat → Int32) (h : Nat → Int32),
        (∀ p < m, a.element (i * m + p) = .ok (.integer (f p))) ∧
        (∀ p < m, ∀ q < k, b.element (p * k + q) = .ok (.integer (g p q))) ∧
        (∀ q < k, c.element (q * l + j) = .ok (.integer (h q))) ∧
        abc.element (i * l + j) = .ok (.integer (Int32.ofInt
          (∑ p ∈ Finset.range m, ∑ q ∈ Finset.range k,
            (f p).toInt * (g p q).toInt * (h q).toInt))) := by
  obtain ⟨s, x, hx, rfl⟩ := ha.exists_stored
  obtain ⟨t, y, hy, rfl⟩ := hb.exists_stored
  obtain ⟨u, z, hz, rfl⟩ := hc.exists_stored
  have hxy := Shape.IsGrid.matrix (Buffer.size_productTable 0 n m k x y) hnk
  have hyz := Shape.IsGrid.matrix (Buffer.size_productTable 0 m k l y z) hml
  have hxyz := Shape.IsGrid.matrix
    (Buffer.size_productTable 0 n k l (Buffer.productTable 0 n m k x y) z) hnl
  refine ⟨_, _, _, binary_matrices hx hy hnm hmk hnk, binary_matrices hy hz hmk hkl hml,
    binary_matrices hxy hz hnk hkl hnl, ?_, ⟨_, hxyz.operand.fits, rfl⟩, fun i hi j hj =>
      ⟨fun p => x.getD (i * m + p) 0, fun p q => y.getD (p * k + q) 0,
        fun q => z.getD (q * l + j) 0, fun p hp => hx.element hnm hi hp,
        fun p hp q hq => hy.element hmk hp hq, fun q hq => hz.element hkl hq hj, ?_⟩⟩
  · rw [binary_matrices hx hyz hnm hml hnl,
      Buffer.productTable_assoc (hx.size hnm) (hy.size hmk) (hz.size hkl)]
  · rw [hxyz.element hnl hi hj]
    exact congrArg (Except.ok ∘ Element.integer)
      (Int32.toInt_inj.mp (Buffer.entry_left (hx.size hnm) (hy.size hmk) (hz.size hkl) hi hj))

/-- The product of a row, a square and a column wraps around in the inner product of the one
grouping and in the outer one of the other. -/
theorem product_assoc_wrapped :
    let row := stored (Shape.matrix .integer 1 2) (.integers #[65536, 1])
    let square := stored (Shape.matrix .integer 2 2) (.integers #[65536, 0, 0, 1])
    let column := stored (Shape.matrix .integer 2 1) (.integers #[3, 5])
    let five := stored (Shape.matrix .integer 1 1) (.integers #[5])
    row.IsIntegerMatrix 1 2 ∧ square.IsIntegerMatrix 2 2 ∧ column.IsIntegerMatrix 2 1 ∧
      ∃ ab bc, binary .dot row square = .ok ab ∧ binary .dot square column = .ok bc ∧
        ab.element 0 = .ok (.integer 0) ∧ bc.element 0 = .ok (.integer 196608) ∧
        binary .dot ab column = .ok five ∧ binary .dot row bc = .ok five := by
  intro row square column five
  have hrow : row.IsIntegerMatrix 1 2 := ⟨.stored ⟨rfl, rfl⟩ rfl, _, rfl, rfl, rfl⟩
  have hsquare : square.IsIntegerMatrix 2 2 := ⟨.stored ⟨rfl, rfl⟩ rfl, _, rfl, rfl, rfl⟩
  have hcolumn : column.IsIntegerMatrix 2 1 := ⟨.stored ⟨rfl, rfl⟩ rfl, _, rfl, rfl, rfl⟩
  have hleft : binary .dot row square =
      .ok (stored (Shape.matrix .integer 1 2) (.integers #[0, 1])) := by
    unfold binary
    rfl
  have hright : binary .dot square column =
      .ok (stored (Shape.matrix .integer 2 1) (.integers #[196608, 5])) := by
    unfold binary
    rfl
  have houter : binary .dot (stored (Shape.matrix .integer 1 2) (.integers #[0, 1])) column =
      .ok five := by
    unfold binary
    rfl
  obtain ⟨ab, bc, abc, hab, hbc, habc, habc', -, -⟩ := product_assoc hrow hsquare hcolumn
    (by decide) (by decide) (by decide) (by decide) (by decide) (by decide)
  obtain rfl := Except.ok.inj (hleft.symm.trans hab)
  obtain rfl := Except.ok.inj (hright.symm.trans hbc)
  obtain rfl := Except.ok.inj (houter.symm.trans habc)
  exact ⟨hrow, hsquare, hcolumn, _, _, hab, hbc, rfl, rfl, habc, habc'⟩

end Value

end ArrayMachine
