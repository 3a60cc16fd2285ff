import ArrayMachine.Element.Arithmetic
import Mathlib.Algebra.Order.Field.Power
import Mathlib.Algebra.Ring.Int.Parity
import Mathlib.Data.Rat.Floor

/-!
# Integer powers

A power with a natural exponent is computed in a loop (`Powering.turn`): each turn takes the last
binary digit off the exponent and squares the base, so that the product of the result with the power
that is still to come stays the same. Squares and products wrap around at every turn, and what comes
out is the power itself, wrapped around once. Powers of minus one can be told by the parity of the
exponent, without a loop. A negative exponent makes a fraction, which is cut off toward zero.

* `Powering.value_turn`: what a turn preserves.
* `Powering.exists_ends`: the loop ends, after no more turns than the exponent has digits.
* `truncated_zpow`: a power with a negative exponent, cut off.
* `integerPower_eq`: the powers of 32-bit integers, for all bases and exponents.
-/

namespace ArrayMachine

variable {base exponent : Int32}

/-! ## Wrapped powers -/

theorem ofInt_pow (x : Int) (n : Nat) : Int32.ofInt (x ^ n) = Int32.ofInt x ^ n := by
  induction n with
  | zero =>
    rw [Int.pow_zero, Int32.pow_zero]
    rfl
  | succ n ih => rw [Int.pow_succ, Int32.ofInt_mul, ih, Int32.pow_succ]

/-- A power of a 32-bit integer is the power of the number, wrapped around once. -/
theorem pow_eq_ofInt (x : Int32) (n : Nat) : x ^ n = Int32.ofInt (x.toInt ^ n) := by
  rw [ofInt_pow, Int32.ofInt_toInt]

theorem square_pow (x : Int32) (n : Nat) : (x * x) ^ n = x ^ (2 * n) := by
  induction n with
  | zero => rfl
  | succ n ih =>
    rw [Int32.pow_succ, ih, Nat.mul_succ, Int32.pow_succ, Int32.pow_succ, Int32.mul_assoc]

/-- A power is the one of the square, with one factor more where the exponent is odd. -/
theorem pow_halved (x : Int32) (n : Nat) :
    (if n % 2 = 1 then x else 1) * (x * x) ^ (n / 2) = x ^ n := by
  rw [square_pow]
  split
  · have hodd : 2 * (n / 2) + 1 = n := by omega
    rw [Int32.mul_comm, ← Int32.pow_succ, hodd]
  · have heven : 2 * (n / 2) = n := by omega
    rw [Int32.one_mul, heven]

/-- **Powers by squaring** are powers. -/
theorem wrappingPower_eq (base : Int32) (n : Nat) : wrappingPower base n = base ^ n := by
  induction base, n using wrappingPower.induct with
  | case1 base => rw [wrappingPower, if_pos rfl, Int32.pow_zero]
  | case2 base n hn hodd ih =>
    rw [wrappingPower, if_neg hn]
    dsimp only
    rw [if_pos hodd, ih, ← pow_halved base n, if_pos hodd]
  | case3 base n hn heven ih =>
    rw [wrappingPower, if_neg hn]
    dsimp only
    rw [if_neg heven, ih, ← pow_halved base n, if_neg heven, Int32.one_mul]

/-! ## Parity -/

theorem mod_two_eq_zero_iff (exponent : Int32) : exponent % 2 = 0 ↔ Even exponent.toInt := by
  rw [← Int32.toInt_inj, Int32.toInt_mod, even_iff_two_dvd, Int.dvd_iff_tmod_eq_zero]
  rfl

theorem mod_two_eq_one_iff (h : 0 ≤ exponent.toInt) :
    exponent % 2 = 1 ↔ exponent.toInt.toNat % 2 = 1 := by
  rw [← Int32.toInt_inj, Int32.toInt_mod, Int.tmod_eq_emod_of_nonneg h]
  show exponent.toInt % 2 = 1 ↔ _
  omega

/-- The powers of minus one. -/
theorem neg_one_pow_eq (n : Nat) : (-1 : Int32) ^ n = if Even n then 1 else -1 := by
  rw [pow_eq_ofInt]
  show Int32.ofInt ((-1) ^ n) = _
  rcases Nat.even_or_odd n with h | h
  · rw [h.neg_one_pow, if_pos h]
    rfl
  · rw [h.neg_one_pow, if_neg (Nat.not_even_iff_odd.mpr h)]
    rfl

/-! ## The loop -/

/-- What the loop is at: a result, and a power that is still to be multiplied with it. -/
structure Powering where
  result : Int32
  base : Int32
  exponent : Int32

namespace Powering

variable {p : Powering} {n : Nat}

/-- One turn, for the last binary digit of the exponent. -/
def turn (p : Powering) : Powering where
  result := if p.exponent % 2 = 1 then p.result * p.base else p.result
  base := p.base * p.base
  exponent := p.exponent / 2

/-- The loop takes so many turns until the exponent is zero, and ends with the result it has then.
-/
inductive Ends : Nat → Powering → Int32 → Prop where
  | done {p : Powering} : p.exponent = 0 → Ends 0 p p.result
  | turn {n : Nat} {p : Powering} {z : Int32} : p.exponent ≠ 0 → Ends n p.turn z →
    Ends (n + 1) p z

/-- The result times the power that is still to come. -/
def value (p : Powering) : Int32 := p.result * p.base ^ p.exponent.toInt.toNat

/-- The exponent is halved. -/
theorem exponent_turn (h : 0 ≤ p.exponent.toInt) :
    p.turn.exponent.toInt = p.exponent.toInt / 2 := by
  show (p.exponent / 2).toInt = _
  rw [Int32.toInt_div_of_ne_right _ _ (by decide)]
  exact Int.tdiv_eq_ediv_of_nonneg h

/-- The base is a factor of the result where the exponent is odd. -/
theorem result_turn (h : 0 ≤ p.exponent.toInt) :
    p.turn.result = p.result * if p.exponent.toInt.toNat % 2 = 1 then p.base else 1 := by
  show (if p.exponent % 2 = 1 then p.result * p.base else p.result) = _
  by_cases hodd : p.exponent.toInt.toNat % 2 = 1
  · rw [if_pos ((mod_two_eq_one_iff h).mpr hodd), if_pos hodd]
  · rw [if_neg (mt (mod_two_eq_one_iff h).mp hodd), if_neg hodd, Int32.mul_one]

/-- **A turn** keeps the value. -/
theorem value_turn (h : 0 ≤ p.exponent.toInt) : p.turn.value = p.value := by
  have hexponent : p.turn.exponent.toInt.toNat = p.exponent.toInt.toNat / 2 := by
    rw [exponent_turn h]
    omega
  unfold value
  rw [hexponent, result_turn h, Int32.mul_assoc]
  exact congrArg (p.result * ·) (pow_halved p.base p.exponent.toInt.toNat)

theorem ends_of_zero (h : p.exponent = 0) : Ends 0 p p.value := by
  have hvalue : p.value = p.result := by
    unfold value
    rw [h]
    exact Int32.mul_one p.result
  exact hvalue ▸ .done h

/-- **The loop ends with the value** after at most as many turns as the exponent has digits. -/
theorem exists_ends (h : 0 ≤ p.exponent.toInt) (hdigits : p.exponent.toInt < 2 ^ n) :
    ∃ turns ≤ n, Ends turns p p.value := by
  -- on the number of digits, whatever the loop is at
  induction n generalizing p with
  | zero =>
    have hzero : p.exponent.toInt = 0 := by omega
    exact ⟨0, Nat.le_refl 0, ends_of_zero (Int32.toInt_inj.mp hzero)⟩
  | succ n ih =>
    by_cases hzero : p.exponent = 0
    · exact ⟨0, Nat.zero_le _, ends_of_zero hzero⟩
    · have hhalf := exponent_turn h
      obtain ⟨turns, hturns, hends⟩ := ih (p := p.turn) (by omega) (by omega)
      exact ⟨turns + 1, Nat.succ_le_succ hturns, .turn hzero (value_turn h ▸ hends)⟩

end Powering

/-! ## Negative exponents -/

/-- A fraction cut off toward zero. -/
def truncated (q : ℚ) : Int := if 0 ≤ q then ⌊q⌋ else ⌈q⌉

theorem truncated_intCast (n : Int) : truncated n = n := by
  unfold truncated
  rw [Int.floor_intCast, Int.ceil_intCast, ite_self]

theorem truncated_of_abs_lt_one {q : ℚ} (h : |q| < 1) : truncated q = 0 := by
  obtain ⟨hlow, hhigh⟩ := abs_lt.mp h
  unfold truncated
  split
  · rename_i hpos
    exact Int.floor_eq_zero_iff.mpr ⟨hpos, hhigh⟩
  · rename_i hneg
    exact Int.ceil_eq_zero_iff.mpr ⟨hlow, (not_le.mp hneg).le⟩

/-- **A power with a negative exponent** is cut off to zero, unless the base is one or minus one. -/
theorem truncated_zpow {b e : Int} (hb : 1 < |b|) (he : e < 0) : truncated ((b : ℚ) ^ e) = 0 := by
  refine truncated_of_abs_lt_one ?_
  rw [abs_zpow]
  exact zpow_lt_one_of_neg₀ (by exact_mod_cast hb) he

theorem truncated_neg_one_zpow (e : Int) :
    truncated (((-1 : Int) : ℚ) ^ e) = if Even e then 1 else -1 := by
  have hpower : ((-1 : Int) : ℚ) ^ e = ((if Even e then 1 else -1 : Int) : ℚ) := by
    rw [Int.cast_neg, Int.cast_one, neg_one_zpow_eq_ite]
    split <;> simp
  rw [hpower, truncated_intCast]

/-- Powers with a negative exponent. -/
theorem integerPower_of_neg (hexponent : exponent < 0) (hbase : base ≠ 0) :
    ∃ z, integerPower base exponent = .ok z ∧
      z.toInt = truncated ((base.toInt : ℚ) ^ exponent.toInt) := by
  have hneg : exponent.toInt < 0 := Int32.lt_iff_toInt_lt.mp hexponent
  unfold integerPower
  rw [if_pos hexponent, if_neg hbase]
  by_cases hone : base = 1
  · subst hone
    refine ⟨1, if_pos rfl, ?_⟩
    show 1 = truncated (((1 : Int) : ℚ) ^ exponent.toInt)
    rw [Int.cast_one, one_zpow]
    exact (truncated_intCast 1).symm
  · rw [if_neg hone]
    by_cases hminus : base = -1
    · subst hminus
      refine ⟨_, if_pos rfl, ?_⟩
      show _ = truncated (((-1 : Int) : ℚ) ^ exponent.toInt)
      rw [truncated_neg_one_zpow]
      simp only [mod_two_eq_zero_iff]
      split <;> rfl
    · refine ⟨0, if_neg hminus, ?_⟩
      have hzero : base.toInt ≠ 0 := fun h => hbase (Int32.toInt_inj.mp h)
      have hne : base.toInt ≠ 1 := fun h => hone (Int32.toInt_inj.mp h)
      have hne' : base.toInt ≠ -1 := fun h => hminus (Int32.toInt_inj.mp h)
      rw [truncated_zpow (lt_abs.mpr (by omega)) hneg]
      rfl

/-! ## All exponents -/

/-- **The powers of 32-bit integers**, for all bases and exponents. With a natural exponent there is
always one: the power of the number, wrapped around once. It is what the loop ends with after at
most 31 turns, and what the parity of the exponent says of minus one. With a negative exponent zero
has no power, which is a division by zero, and the power of any other base is the fraction cut off
toward zero. -/
theorem integerPower_eq (base exponent : Int32) :
    (0 ≤ exponent → ∃ z, integerPower base exponent = .ok z ∧
      z = Int32.ofInt (base.toInt ^ exponent.toInt.toNat) ∧
      (∃ turns ≤ 31, Powering.Ends turns ⟨1, base, exponent⟩ z) ∧
      (base = -1 → z = if exponent % 2 = 0 then 1 else -1)) ∧
    (exponent < 0 →
      (base = 0 → integerPower base exponent = .error (.divisionByZero s!"0 ^ {exponent}")) ∧
      (base ≠ 0 → ∃ z, integerPower base exponent = .ok z ∧
        z.toInt = truncated ((base.toInt : ℚ) ^ exponent.toInt))) := by
  refine ⟨fun hexponent => ?_, fun hexponent => ⟨?_, integerPower_of_neg hexponent⟩⟩
  · have hnat : 0 ≤ exponent.toInt := Int32.le_iff_toInt_le.mp hexponent
    obtain ⟨turns, hturns, hends⟩ := Powering.exists_ends (p := ⟨1, base, exponent⟩) hnat
      exponent.toInt_lt
    have hvalue : Powering.value ⟨1, base, exponent⟩ = base ^ exponent.toInt.toNat :=
      Int32.one_mul _
    rw [hvalue] at hends
    refine ⟨base ^ exponent.toInt.toNat, ?_, pow_eq_ofInt base _, ⟨turns, hturns, hends⟩, ?_⟩
    · unfold integerPower
      rw [if_neg (Int32.not_lt.mpr hexponent), wrappingPower_eq]
    · rintro rfl
      have hparity : Even exponent.toInt.toNat ↔ exponent % 2 = 0 := by
        rw [mod_two_eq_zero_iff, Nat.even_iff, Int.even_iff]
        omega
      rw [neg_one_pow_eq]
      simp only [hparity]
  · rintro rfl
    unfold integerPower
    rw [if_pos hexponent, if_pos rfl]

/-- The square of the least integer wraps around to zero, zero to the power of zero is one, and a
third is cut off to zero. Zero has no negative power. -/
theorem integerPower_eq_least :
    (0 : Int32) ≤ 2 ∧ (0 : Int32) ≤ 0 ∧ (-1 : Int32) < 0 ∧ (3 : Int32) ≠ 0 ∧
      integerPower (-2147483648) 2 = .ok 0 ∧ integerPower 0 0 = .ok 1 ∧
      integerPower 3 (-1) = .ok 0 ∧
      integerPower 0 (-1) = .error (.divisionByZero s!"0 ^ {(-1 : Int32)}") := by
  have htwo : (0 : Int32) ≤ 2 := by decide
  have hzero : (0 : Int32) ≤ 0 := by decide
  have hneg : (-1 : Int32) < 0 := by decide
  have hthree : (3 : Int32) ≠ 0 := by decide
  obtain ⟨square, hsquare, rfl, -, -⟩ := (integerPower_eq (-2147483648) 2).1 htwo
  obtain ⟨one, hone, rfl, -, -⟩ := (integerPower_eq 0 0).1 hzero
  obtain ⟨third, hthird, hcut⟩ := ((integerPower_eq 3 (-1)).2 hneg).2 hthree
  have hnone := ((integerPower_eq 0 (-1)).2 hneg).1 rfl
  rw [truncated_zpow (by decide) (by decide)] at hcut
  obtain rfl : third = 0 := Int32.toInt_inj.mp hcut
  exact ⟨htwo, hzero, hneg, hthree, hsquare, hone, hthird, hnone⟩

end ArrayMachine
