import ArrayMachine.Proofs.Operators.Integers
import Mathlib.Algebra.Order.Group.Unbundled.Int

/-!
# Quotients and remainders

Division of 32-bit integers goes toward zero, so a remainder has the sign of what is divided. There
is one quotient that is no 32-bit integer, that of the least one and minus one; it wraps around to
the least one, and its remainder is zero like that of the number. Therefore the quotient times the
divisor plus the remainder is always what was divided, as long as sums and products wrap around too.
Arrays have quotients and remainders together, unless some divisor is zero.

* `quotient_eq`, `remainder_eq`: what is computed, by what is to be computed.
* `quotient_mul_add_remainder`, `remainder_bounds`: the laws of two integers.
* `Value.quotient_and_remainder`: the laws of two integer arrays.
-/

namespace ArrayMachine

/-! ## Two integers -/

/-- The quotient is cut off toward zero, and wrapped around. -/
theorem quotient_eq (x y : Int32) : x / y = Int32.ofInt (x.toInt.tdiv y.toInt) := by
  rw [← Int32.toInt_inj, Int32.toInt_div, Int32.toInt_ofInt]

theorem remainder_eq (x y : Int32) : x % y = Int32.ofInt (x.toInt.tmod y.toInt) := by
  rw [← Int32.toInt_mod, Int32.ofInt_toInt]

/-- **The quotient times the divisor and the remainder** make what was divided. -/
theorem quotient_mul_add_remainder (x y : Int32) : x / y * y + x % y = x :=
  calc x / y * y + x % y
      = Int32.ofInt (x.toInt.tdiv y.toInt * y.toInt + x.toInt.tmod y.toInt) := by
        rw [Int32.ofInt_add, Int32.ofInt_mul, Int32.ofInt_toInt, ← quotient_eq, ← remainder_eq]
    _ = x := by rw [Int.tdiv_mul_add_tmod, Int32.ofInt_toInt]

/-- **A remainder** is less than the divisor, and has the sign of what was divided unless it is
zero. -/
theorem remainder_bounds (x : Int32) {y : Int32} (hy : y ≠ 0) :
    |(x % y).toInt| < |y.toInt| ∧ (x % y = 0 ∨ (x % y).toInt.sign = x.toInt.sign) := by
  have hpos : 0 < y.toInt.natAbs := Int.natAbs_pos.mpr fun h => hy (Int32.toInt_inj.mp h)
  rw [Int32.toInt_mod]
  constructor
  · rw [Int.abs_eq_natAbs, Int.abs_eq_natAbs, Int.natAbs_tmod]
    exact Int.ofNat_lt.mpr (Nat.mod_lt _ hpos)
  · by_cases hdvd : y.toInt ∣ x.toInt
    · left
      rw [← Int32.toInt_inj, Int32.toInt_mod, Int.tmod_eq_zero_of_dvd hdvd]
      rfl
    · right
      rw [Int.sign_tmod, if_neg hdvd]

/-! ## Two arrays -/

namespace Value

variable {extents : List Extent} {a b : Value} {s t : Shape} {x y : Array Int32}

/-- A divisor that is zero is one too many. -/
theorem division_by_zero (hx : s.HasIntegers extents x) (hy : t.HasIntegers extents y) {pos : Nat}
    (hpos : y[pos]? = some 0) {op : BinaryOp} (hop : op = .divide ∨ op = .remainder) :
    ∃ text, binary op (stored s (.integers x)) (stored t (.integers y)) =
      .error (.divisionByZero text) := by
  obtain ⟨hlt, hzero⟩ := Array.getElem?_eq_some_iff.mp hpos
  have hlt' : pos < x.size := hx.size_eq hy ▸ hlt
  rcases hop with rfl | rfl
  · exact binary_integers_fault hx hy rfl rfl hlt' hlt (if_pos hzero)
  · exact binary_integers_fault hx hy rfl rfl hlt' hlt (if_pos hzero)

/-- Without such a divisor, all quotients and remainders are there. -/
theorem binary_divide (hx : s.HasIntegers extents x) (hy : t.HasIntegers extents y)
    (hne : ∀ pos : Nat, y[pos]? ≠ some 0) :
    binary .divide (stored s (.integers x)) (stored t (.integers y)) =
        .ok (stored (Shape.ofExtents .integer extents false)
          (.integers (Array.zipWith (· / ·) x y))) ∧
      binary .remainder (stored s (.integers x)) (stored t (.integers y)) =
        .ok (stored (Shape.ofExtents .integer extents false)
          (.integers (Array.zipWith (· % ·) x y))) := by
  have hdivisor (pos : Nat) (hpos : pos < y.size) : y[pos] ≠ 0 := fun hzero =>
    hne pos (Array.getElem?_eq_some_iff.mpr ⟨hpos, hzero⟩)
  exact ⟨binary_integers hx hy rfl rfl fun pos _ hpos => if_neg (hdivisor pos hpos),
    binary_integers hx hy rfl rfl fun pos _ hpos => if_neg (hdivisor pos hpos)⟩

/-- The laws of two integers, number by number. -/
theorem zipWith_quotient_remainder (h : x.size = y.size) :
    Array.zipWith (· + ·) (Array.zipWith (· * ·) (Array.zipWith (· / ·) x y) y)
      (Array.zipWith (· % ·) x y) = x := by
  refine Array.ext (by simp [h]) fun pos hpos hpos' => ?_
  simp only [Array.getElem_zipWith, quotient_mul_add_remainder]

/-- **Quotients and remainders of arrays.** Two integer arrays of the same extents have neither if
some divisor is zero. Otherwise they have both, and the quotients times the divisors plus the
remainders are what was divided: an array under the same extents, of the same numbers, equal to it,
and the same value unless that one was marked as a text. Each quotient is cut off toward zero and
wrapped around, and each remainder is less than its divisor, and has the sign of what was divided
unless it is zero. -/
theorem quotient_and_remainder (ha : a.IsIntegerArray extents) (hb : b.IsIntegerArray extents) :
    ((∃ pos, b.element pos = .ok (.integer 0)) →
      (∃ text, binary .divide a b = .error (.divisionByZero text)) ∧
        ∃ text, binary .remainder a b = .error (.divisionByZero text)) ∧
    ((∀ pos, b.element pos ≠ .ok (.integer 0)) →
      ∃ q r p w, binary .divide a b = .ok q ∧ binary .remainder a b = .ok r ∧
        binary .times q b = .ok p ∧ binary .plus p r = .ok w ∧
        w.StoredAs (Shape.ofExtents .integer extents false) ∧
        (∀ pos, w.element pos = a.element pos) ∧ binary .equal w a = .ok (boolean true) ∧
        (a.shape? = some (Shape.ofExtents .integer extents false) → w = a) ∧
        ∀ pos x, a.element pos = .ok (.integer x) →
          ∃ y z, b.element pos = .ok (.integer y) ∧ r.element pos = .ok (.integer z) ∧
            q.element pos = .ok (.integer (Int32.ofInt (x.toInt.tdiv y.toInt))) ∧
            |z.toInt| < |y.toInt| ∧ (z = 0 ∨ z.toInt.sign = x.toInt.sign)) := by
  obtain ⟨s, x, hx, rfl⟩ := ha.exists_stored
  obtain ⟨t, y, hy, rfl⟩ := hb.exists_stored
  refine ⟨?_, fun hne => ?_⟩
  · rintro ⟨pos, hpos⟩
    have hzero := hy.element_eq_ok_iff.mp hpos
    exact ⟨division_by_zero hx hy hzero (.inl rfl), division_by_zero hx hy hzero (.inr rfl)⟩
  · have hdivisors (pos : Nat) : y[pos]? ≠ some 0 := fun h =>
      hne pos (hy.element_eq_ok_iff.mpr h)
    have hsize := hx.size_eq hy
    obtain ⟨hdivide, hremainder⟩ := binary_divide hx hy hdivisors
    have hq := hx.replaced (z := Array.zipWith (· / ·) x y) (by simp [hsize])
    have hr := hx.replaced (z := Array.zipWith (· % ·) x y) (by simp [hsize])
    have hp := hx.replaced
      (z := Array.zipWith (· * ·) (Array.zipWith (· / ·) x y) y) (by simp [hsize])
    have hplus := plus_integers hp hr
    rw [zipWith_quotient_remainder hsize] at hplus
    have hw := hx.replaced (z := x) rfl
    refine ⟨_, _, _, _, hdivide, hremainder, times_integers hq hy, hplus, ⟨_, hw.operand.fits, rfl⟩,
      fun pos => ?_, equal_integers hw hx, fun hshape => ?_, fun pos n hn => ?_⟩
    · rw [element_stored hw.operand.fits, element_stored hx.operand.fits]
    · rw [← Option.some.inj hshape]
    · obtain ⟨hpos, rfl⟩ := Array.getElem?_eq_some_iff.mp (hx.element_eq_ok_iff.mp hn)
      have hpos' : pos < y.size := hsize ▸ hpos
      have hdivisor : y[pos] ≠ 0 := fun hzero =>
        hdivisors pos (Array.getElem?_eq_some_iff.mpr ⟨hpos', hzero⟩)
      refine ⟨y[pos], x[pos] % y[pos], hy.element_eq_ok_iff.mpr (by simp [hpos']),
        hr.element_eq_ok_iff.mpr ?_, hq.element_eq_ok_iff.mpr ?_, remainder_bounds _ hdivisor⟩
      · simp [hpos, hpos']
      · simp [hpos, hpos', quotient_eq]

/-- The least integer over minus one is itself, without remainder, and what is divided by a row with
a zero in it has no quotients. -/
theorem quotient_and_remainder_least :
    let shape := Shape.vector .integer 3
    let a := stored shape (.integers #[Int32.minValue, 7, -7])
    let b := stored shape (.integers #[-1, -2, 2])
    let q := stored shape (.integers #[Int32.minValue, -3, -3])
    let r := stored shape (.integers #[0, 1, -1])
    let zeros := stored shape (.integers #[1, 0, 2])
    a.IsIntegerArray [some 3] ∧ b.IsIntegerArray [some 3] ∧ zeros.IsIntegerArray [some 3] ∧
      binary .divide a b = .ok q ∧ binary .remainder a b = .ok r ∧
      (∃ p, binary .times q b = .ok p ∧ binary .plus p r = .ok a) ∧
      (∃ text, binary .divide a zeros = .error (.divisionByZero text)) ∧
      ∃ text, binary .remainder a zeros = .error (.divisionByZero text) := by
  intro shape a b q r zeros
  have harray (x y z : Int32) : (stored shape (.integers #[x, y, z])).IsIntegerArray [some 3] :=
    ⟨.stored ⟨rfl, rfl⟩ rfl, _, rfl, rfl, rfl⟩
  have ha : a.IsIntegerArray [some 3] := harray _ _ _
  have hb : b.IsIntegerArray [some 3] := harray _ _ _
  have hzeros : zeros.IsIntegerArray [some 3] := harray _ _ _
  have hdivisors : shape.HasIntegers [some 3] #[-1, -2, 2] := ⟨⟨⟨rfl, rfl⟩, rfl, rfl⟩, rfl⟩
  have hne (pos : Nat) : b.element pos ≠ .ok (.integer 0) := fun hzero =>
    absurd (Array.mem_of_getElem? (hdivisors.element_eq_ok_iff.mp hzero)) (by simp)
  have hdivide : binary .divide a b = .ok q := by
    unfold binary
    rfl
  have hremainder : binary .remainder a b = .ok r := by
    unfold binary
    rfl
  obtain ⟨q', r', p, w, hq, hr, hp, hw, -, -, -, hsame, -⟩ := (quotient_and_remainder ha hb).2 hne
  obtain rfl := Except.ok.inj (hdivide.symm.trans hq)
  obtain rfl := Except.ok.inj (hremainder.symm.trans hr)
  obtain rfl := hsame rfl
  exact ⟨ha, hb, hzeros, hq, hr, ⟨p, hp, hw⟩, (quotient_and_remainder ha hzeros).1 ⟨1, rfl⟩⟩

end Value

end ArrayMachine
