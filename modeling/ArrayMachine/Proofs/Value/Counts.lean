import ArrayMachine.Proofs.Interval.Members

/-!
# Counts as integers

`length`, `rows` and `columns` count elements, rows and columns in natural numbers and give what they
counted as an integer scalar. An integer has 32 bits. So the scalar tells the count where it is below
`2 ^ 31`, and otherwise what is left of the count after it has come around: an interval can have up
to `2 ^ 32` members and a null or identity array any extents at all, and both are longer than any
scalar can tell (`Value.Reports`).

* `reports_count`: what a scalar tells of a count.
* `counts_reported`: `length`, `rows` and `columns`.
-/

namespace ArrayMachine.Value

variable {v w x : Value} {role : String}

/-! ## Scalars that tell a count -/

/-- The scalar tells the number: exactly below `2 ^ 31`, and else what is left at 32 bits, which is
negative for half of the numbers. -/
inductive Reports (n : Nat) : Value → Prop where
  | intro {i : Int32} : i.toInt = (n : Int).bmod (2 ^ 32) → (i.toInt = n ↔ n < 2 ^ 31) →
    (i.toInt < 0 ↔ 2 ^ 31 ≤ n % 2 ^ 32) → Reports n (integer i)

theorem reports_count (n : Nat) : Reports n (count n) := by
  have hbmod : (Int32.ofNat n).toInt = (n : Int).bmod (2 ^ 32) := Int32.toInt_ofNat
  have hcases : (n : Int).bmod (2 ^ 32) =
      if n % 2 ^ 32 < 2 ^ 31 then (n : Int) % 2 ^ 32 else (n : Int) % 2 ^ 32 - 2 ^ 32 := by
    rw [Int.bmod_def]
    split <;> split <;> omega
  refine .intro hbmod ?_ ?_
  · rw [hbmod, hcases]
    split <;> omega
  · rw [hbmod, hcases]
    split <;> omega

/-! ## What is counted -/

/-- An operand has the length and the dimensions of the value it comes from. -/
theorem dims_of_operand (h : v.operand role = .ok x) :
    v.length = x.length ∧ v.shape?.map Shape.dims = x.shape?.map Shape.dims := by
  unfold operand at h
  split at h
  · cases h
  · have hpromoted : v.promoteMixed = .ok x := by
      split at h
      · cases h
      · cases h
      · cases h
      · exact h
    rcases promoteMixed_eq_ok hpromoted with
      ⟨-, rfl⟩ | ⟨shape, elements, kind, rfl, -, ⟨-, rfl⟩ | ⟨b, -, rfl⟩⟩
    · exact ⟨rfl, rfl⟩
    · exact ⟨rfl, rfl⟩
    · exact ⟨rfl, rfl⟩

theorem length_of_interval? {i : Interval} (h : v.interval? = some i) : v.length = .ok i.length := by
  obtain ⟨type, payload⟩ := v
  cases payload with
  | interval j =>
    obtain rfl : j = i := Option.some.inj h
    rfl
  | _ => cases h

/-- `length` counts elements. -/
theorem WellFormed.lengthScalar_eq_ok (hv : v.WellFormed) (h : v.lengthScalar = .ok w) :
    ∃ n, v.length = .ok n ∧ w = count n := by
  obtain ⟨x, hx, h⟩ := Result.bind_eq_ok_iff.mp h
  rw [(dims_of_operand hx).1]
  split at h
  · rename_i i hi
    exact ⟨i.length, length_of_interval? hi, (Except.ok.inj h).symm⟩
  · obtain ⟨s, hs, h⟩ := Result.bind_eq_ok_iff.mp h
    have hlength : x.length = .ok s.size :=
      (invariant_wellFormed.operand hv hx).length_eq (shape?_of_arrayShape hs)
    refine ⟨s.size, hlength, ?_⟩
    unfold Shape.size
    split at h
    · rename_i hrank
      rw [hrank]
      exact (Except.ok.inj h).symm
    · rename_i hrank
      rw [hrank]
      exact (Except.ok.inj h).symm
    · cases h

/-- The rows and the columns of a matrix. The empty array has none. -/
inductive Grid (v : Value) : Nat → Nat → Prop where
  | empty : v.isEmptyArray = true → Grid v 0 0
  | matrix {s : Shape} : v.shape? = some s → s.rank = .matrix → Grid v (s.extent 0) (s.extent 1)

/-- `rows` and `columns` read the extents. -/
theorem matrixExtent_eq_ok {axis : Nat} (h : v.matrixExtent axis role = .ok w) :
    ∃ s, v.shape? = some s ∧ ((s.rank = .unspecified ∧ w = count 0) ∨
      (s.rank = .matrix ∧ w = count (s.extent axis))) := by
  obtain ⟨x, hx, h⟩ := Result.bind_eq_ok_iff.mp h
  obtain ⟨t, ht, h⟩ := Result.bind_eq_ok_iff.mp h
  have hdims := (dims_of_operand hx).2
  rw [shape?_of_arrayShape ht] at hdims
  obtain ⟨s, hs, hst⟩ := Option.map_eq_some_iff.mp hdims
  rw [← Shape.rank_congr hst] at h
  refine ⟨s, hs, ?_⟩
  split at h
  · rename_i hrank
    exact .inl ⟨hrank, (Except.ok.inj h).symm⟩
  · rename_i hrank
    refine .inr ⟨hrank, ?_⟩
    unfold Shape.extent
    rw [Shape.extents_congr hst]
    exact (Except.ok.inj h).symm
  · cases h

/-- An array has as many elements as its rows have columns, counted in a word. -/
theorem WellFormed.elements_grid {rows columns : Nat} (hv : v.WellFormed)
    (h : v.Grid rows columns) :
    ∃ es, v.elements = .ok es ∧ es.length = inWord (rows * columns) := by
  cases h with
  | empty hempty =>
    obtain ⟨s, hs⟩ : ∃ s, v.shape? = some s := by
      cases hs : v.shape? with
      | none => simp [isEmptyArray, hs] at hempty
      | some s => exact ⟨s, rfl⟩
    have hsize : s.size = 0 := Shape.size_of_isEmptyArray (isEmptyArray_eq hs ▸ hempty)
    obtain ⟨es, hes, hlength⟩ := hv.exists_elements (hv.length_eq hs)
    exact ⟨es, hes, hlength.trans hsize⟩
  | @matrix s hs hrank =>
    obtain ⟨es, hes, hlength⟩ := hv.exists_elements (hv.length_eq hs)
    exact ⟨es, hes, hlength.trans (Shape.size_of_matrix hrank)⟩

/-- The rows and the columns of what `rows` or `columns` gives an answer for. -/
theorem exists_grid {axis : Nat} (h : v.matrixExtent axis role = .ok w) :
    ∃ rows columns, v.Grid rows columns ∧ (axis = 0 → w = count rows) ∧
      (axis = 1 → w = count columns) := by
  obtain ⟨s, hs, ⟨hrank, rfl⟩ | ⟨hrank, rfl⟩⟩ := matrixExtent_eq_ok h
  · have hempty : v.isEmptyArray = true := by simp [isEmptyArray, hs, Shape.isEmptyArray, hrank]
    exact ⟨0, 0, .empty hempty, fun _ => rfl, fun _ => rfl⟩
  · exact ⟨_, _, .matrix hs hrank, fun haxis => haxis ▸ rfl, fun haxis => haxis ▸ rfl⟩

/-- **What `length`, `rows` and `columns` tell.** Whatever well-formed value they answer for, the
scalar stands for the number of its elements, rows or columns, as far as an integer can: it is that
number below `2 ^ 31`, and what is left of it at 32 bits from there on. -/
theorem counts_reported (hv : v.WellFormed) :
    (∀ w, v.lengthScalar = .ok w → ∃ es, v.elements = .ok es ∧ Reports es.length w) ∧
    (∀ w, v.rowsScalar = .ok w → ∃ rows columns es, v.Grid rows columns ∧ v.elements = .ok es ∧
      es.length = inWord (rows * columns) ∧ Reports rows w) ∧
    ∀ w, v.columnsScalar = .ok w → ∃ rows columns es, v.Grid rows columns ∧ v.elements = .ok es ∧
      es.length = inWord (rows * columns) ∧ Reports columns w := by
  refine ⟨fun w hw => ?_, fun w hw => ?_, fun w hw => ?_⟩
  · obtain ⟨n, hn, rfl⟩ := hv.lengthScalar_eq_ok hw
    obtain ⟨es, hes, rfl⟩ := hv.exists_elements hn
    exact ⟨es, hes, reports_count es.length⟩
  · obtain ⟨rows, columns, hgrid, hrows, -⟩ := exists_grid hw
    obtain ⟨es, hes, hlength⟩ := hv.elements_grid hgrid
    obtain rfl := hrows rfl
    exact ⟨rows, columns, es, hgrid, hes, hlength, reports_count rows⟩
  · obtain ⟨rows, columns, hgrid, -, hcolumns⟩ := exists_grid hw
    obtain ⟨es, hes, hlength⟩ := hv.elements_grid hgrid
    obtain rfl := hcolumns rfl
    exact ⟨rows, columns, es, hgrid, hes, hlength, reports_count columns⟩

/-- A vector of nulls that is longer than there are words. -/
theorem counts_reported_long :
    let v := sentinel (Shape.vector .null (2 ^ 32 + 1))
    v.WellFormed ∧ v.lengthScalar = .ok (integer 1) ∧
      ∃ es, v.elements = .ok es ∧ Reports es.length (integer 1) := by
  intro v
  have hv : v.WellFormed := .sentinel rfl rfl
  have hscalar : v.lengthScalar = .ok (integer 1) := rfl
  exact ⟨hv, hscalar, (counts_reported hv).1 _ hscalar⟩

/-- **Too long to be told.** The widest interval has `2 ^ 32` members and is given the length zero,
and the lower half of it with zero is given a negative one. -/
theorem length_not_told :
    let widest := ofInterval ⟨Int32.minValue, Int32.maxValue, by decide⟩
    let lower := ofInterval ⟨Int32.minValue, 0, by decide⟩
    (widest.WellFormed ∧ widest.length = .ok (2 ^ 32) ∧ widest.lengthScalar = .ok (integer 0)) ∧
      lower.WellFormed ∧ lower.length = .ok (2 ^ 31 + 1) ∧
      lower.lengthScalar = .ok (integer (-2147483647)) := by
  exact ⟨⟨.interval _ _, rfl, rfl⟩, .interval _ _, rfl, rfl⟩

end ArrayMachine.Value
