import ArrayMachine.Proofs.Operators.Equality

/-!
# Operators on integer arrays

Integer arrays of the same extents are alike as they stand: nothing is promoted, and no scalar is
copied. An operator that makes integers of integers then pairs up their numbers, and leaves them
under the same extents. So several operators one after the other are what they make of the numbers.

* `Shape.HasIntegers.pairAt_eq`: a pair of numbers.
* `Value.binary_integers`: an operator that has an answer for every pair.
* `Value.binary_integers_fault`: one that has none for some pair.
* `Value.compare_integers`, `Value.equal_integers`: integer arrays are equal if their numbers are.
-/

namespace ArrayMachine

/-- An integer array of the given extents, not the empty array. -/
structure Value.IsIntegerArray (v : Value) (extents : List Extent) : Prop where
  wellFormed : v.WellFormed
  shaped : ∃ s, v.shape? = some s ∧ s.element = .integer ∧ s.dims = .fixed extents

/-- Integers under a shape of the given extents. -/
structure Shape.HasIntegers (s : Shape) (extents : List Extent) (x : Array Int32) : Prop where
  operand : s.IsOperand (.integers x)
  dims : s.dims = .fixed extents

variable {op : BinaryOp} {extents : List Extent} {s t : Shape} {x y z : Array Int32} {v : Value}
  {n : Int32} {pos : Nat}

/-- An integer array stores integers. -/
theorem Value.IsIntegerArray.exists_stored (h : v.IsIntegerArray extents) :
    ∃ s x, s.HasIntegers extents x ∧ v = Value.stored s (.integers x) := by
  obtain ⟨s, hs, hkind, hdims⟩ := h.shaped
  have hempty : s.isEmptyArray = false := by
    rw [Bool.eq_false_iff, ne_eq, Shape.isEmptyArray_iff, hdims]
    exact nofun
  obtain ⟨x, hx, rfl⟩ := h.wellFormed.exists_integers hs hempty hkind
  exact ⟨s, x, ⟨hx, hdims⟩, rfl⟩

namespace Shape.HasIntegers

theorem element_eq (h : s.HasIntegers extents x) : s.element = .integer := h.operand.fits.kind.symm

theorem extents_eq (h : s.HasIntegers extents x) : s.extents = extents := by
  unfold Shape.extents
  rw [h.dims]

theorem size_eq (hx : s.HasIntegers extents x) (hy : t.HasIntegers extents y) :
    x.size = y.size :=
  calc x.size = s.size := hx.operand.fits.size
    _ = t.size := size_congr (hx.dims.trans hy.dims.symm)
    _ = y.size := hy.operand.fits.size.symm

/-- As many integers as there were, under the extents alone. -/
theorem replaced (h : s.HasIntegers extents x) (hz : z.size = x.size) :
    (ofExtents .integer extents false).HasIntegers extents z := by
  have hdims : (ofExtents .integer extents false).dims = s.dims := h.dims.symm
  refine ⟨⟨⟨rfl, ?_⟩, ?_, ?_⟩, rfl⟩
  · exact hz.trans (h.operand.fits.size.trans (size_congr hdims).symm)
  · exact (hasOpenExtent_congr hdims).trans h.operand.known
  · exact (isEmptyArray_congr hdims).trans h.operand.nonempty

/-- The numbers are read where they are stored. -/
theorem element_eq_ok_iff (h : s.HasIntegers extents x) :
    (Value.stored s (.integers x)).element pos = .ok (.integer n) ↔ x[pos]? = some n := by
  rw [Value.element_stored_eq_ok_iff h.operand.fits]
  simp [Buffer.elements]

theorem conforms (hx : s.HasIntegers extents x) (hy : t.HasIntegers extents y) : s.Conforms t :=
  .inr (.inr (hx.extents_eq.trans hy.extents_eq.symm))

theorem spread_eq (hx : s.HasIntegers extents x) (hy : t.HasIntegers extents y) (kind : Kind) :
    s.spread t kind = ofExtents kind extents false := by
  unfold spread
  rw [hx.extents_eq, hy.extents_eq, ite_self]

theorem meet (hx : s.HasIntegers extents x) (hy : t.HasIntegers extents y) :
    s.element.common? t.element = some .integer := by
  rw [hx.element_eq, hy.element_eq]
  rfl

/-- **A pair of numbers** is what the operator takes at a position. -/
theorem pairAt_eq (hx : s.HasIntegers extents x) (hy : t.HasIntegers extents y)
    (hpos : pos < x.size) (hpos' : pos < y.size) (op : BinaryOp) :
    Value.pairAt op .integer (Value.stored s (.integers x)) (Value.stored t (.integers y)) pos =
      Element.binaryInteger op x[pos] y[pos] := by
  have hlt (z : Array Int32) (h : pos < z.size) : pos < (Buffer.integers z).elements.length := by
    simpa [Buffer.elements]
  unfold Value.pairAt
  rw [Value.supplyAs_stored hx.operand.fits hx.element_eq (hlt x hpos),
    Value.supplyAs_stored hy.operand.fits hy.element_eq (hlt y hpos')]
  simp [Buffer.elements, bind, Except.bind, Element.binary]

end Shape.HasIntegers

namespace Value

/-- **An operator on integer arrays** that has an integer for every pair has these, under the same
extents. -/
theorem binary_integers (hx : s.HasIntegers extents x) (hy : t.HasIntegers extents y)
    (hop : op.isPointwise = true) (hkind : op.resultKind? .integer = some .integer)
    {f : Int32 → Int32 → Int32}
    (hf : ∀ pos (hpos : pos < x.size) (hpos' : pos < y.size),
      Element.binaryInteger op x[pos] y[pos] = .ok (.integer (f x[pos] y[pos]))) :
    binary op (stored s (.integers x)) (stored t (.integers y)) =
      .ok (stored (Shape.ofExtents .integer extents false) (.integers (Array.zipWith f x y))) := by
  have hsize := hx.size_eq hy
  have hpaired := hx.replaced (z := Array.zipWith f x y) (by simp [hsize])
  rw [← hx.spread_eq hy .integer] at hpaired ⊢
  refine binary_eq_stored hx.operand hy.operand hop (hx.meet hy) hkind (hx.conforms hy)
    hpaired.operand.fits fun pos hpos => ?_
  have hlt : pos < x.size := by simpa [Buffer.elements, hsize] using hpos
  rw [hx.pairAt_eq hy hlt (hsize ▸ hlt), hf pos hlt (hsize ▸ hlt)]
  simp [Buffer.elements]

theorem times_integers (hx : s.HasIntegers extents x) (hy : t.HasIntegers extents y) :
    binary .times (stored s (.integers x)) (stored t (.integers y)) =
      .ok (stored (Shape.ofExtents .integer extents false)
        (.integers (Array.zipWith (· * ·) x y))) :=
  binary_integers hx hy rfl rfl fun _ _ _ => rfl

theorem plus_integers (hx : s.HasIntegers extents x) (hy : t.HasIntegers extents y) :
    binary .plus (stored s (.integers x)) (stored t (.integers y)) =
      .ok (stored (Shape.ofExtents .integer extents false)
        (.integers (Array.zipWith (· + ·) x y))) :=
  binary_integers hx hy rfl rfl fun _ _ _ => rfl

/-- One that has none for some pair divides by zero. -/
theorem binary_integers_fault (hx : s.HasIntegers extents x) (hy : t.HasIntegers extents y)
    (hop : op.isPointwise = true) (hkind : op.resultKind? .integer = some .integer)
    (hpos : pos < x.size) (hpos' : pos < y.size) {fault : Fault}
    (h : Element.binaryInteger op x[pos] y[pos] = .error fault) :
    ∃ text, binary op (stored s (.integers x)) (stored t (.integers y)) =
      .error (.divisionByZero text) := by
  have hwithin : pos < (s.spread t .integer).size := by
    rw [hx.spread_eq hy, ← (hx.replaced rfl).operand.fits.size]
    exact hpos
  exact binary_of_fault hx.operand hy.operand hop (hx.meet hy) hkind (hx.conforms hy) hwithin
    ((hx.pairAt_eq hy hpos hpos' op).trans h)

/-- **Two integer arrays** are compared number by number. -/
theorem compare_integers (hx : s.HasIntegers extents x) (hy : t.HasIntegers extents y) :
    binary .equal (stored s (.integers x)) (stored t (.integers y)) =
      .ok (boolean (decide (x = y))) := by
  have hsupplies {u : Shape} {z : Array Int32} (hz : u.HasIntegers extents z) :
      (stored u (.integers z)).Supplies .integer (s.spread t .boolean).size (.integers z) := by
    have hsize : (s.spread t .boolean).size = u.size := by
      rw [hx.spread_eq hy]
      exact Shape.size_congr hz.dims.symm
    rw [hsize, ← hz.element_eq]
    exact supplies_self hz.operand.fits
  obtain ⟨c, d, hc, hd, hequal⟩ := binary_equal_stored hx.operand hy.operand (hx.meet hy) nofun
    (hx.conforms hy)
  rw [hequal, hc.unique (hsupplies hx), hd.unique (hsupplies hy)]
  simp only [Buffer.integers.injEq]

/-- **Arrays of the same numbers** are equal, whatever else is said of them. -/
theorem equal_integers (hx : s.HasIntegers extents x) (hy : t.HasIntegers extents x) :
    binary .equal (stored s (.integers x)) (stored t (.integers x)) = .ok (boolean true) := by
  rw [compare_integers hx hy, decide_eq_true rfl]

end Value

end ArrayMachine
