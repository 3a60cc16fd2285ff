import ArrayMachine.Single.Text
import Mathlib.Algebra.Order.Field.Power
import Mathlib.Algebra.Order.Field.Rat
import Mathlib.Algebra.Order.Ring.Abs
import Mathlib.Data.Rat.Cast.Order
import Mathlib.Tactic.FieldSimp
import Mathlib.Tactic.Linarith
import Mathlib.Tactic.NormNum
import Mathlib.Tactic.Positivity
import Mathlib.Tactic.Ring

/-!
# Six significant digits

The decimal numbers of six significant digits lie on a grid that gets ten times as coarse at each
power of ten. `SixDigits.IsNearest` says which of them a number is rounded to, over all of them and
without a word on how it is found: none is nearer, and of two that are equally near it is the one
with an even last digit.

It is found on the grid that the number itself lies in. What is below that grid is farther away than
the power of ten where the grid begins, and what is above is on the grid too. A number that is
rounded up to the next power of ten is a million there, and a hundred thousand on the grid above.

* `roundsTo_roundDiv`: a quotient rounded to a whole number.
* `SixDigits.isNearest_ofRounded`: rounding on the grid is rounding to six digits.
* `SixDigits.IsNearest.unique`: one number only is rounded to.
-/

namespace ArrayMachine

/-! ## Whole numbers -/

/-- A rational rounds to the nearest whole number, and from the middle to the even one. -/
structure RoundsTo (y : ℚ) (n : ℕ) : Prop where
  near : |y - n| ≤ 1 / 2
  even : |y - n| = 1 / 2 → n % 2 = 0

namespace RoundsTo

variable {y : ℚ} {n m : ℕ}

theorem half_le_of_ne (h : RoundsTo y n) (hne : m ≠ n) : 1 / 2 ≤ |y - m| := by
  have hone : (1 : ℚ) ≤ |(n : ℚ) - m| := by
    have hint : (1 : ℤ) ≤ |(n : ℤ) - m| := by
      have := abs_pos.mpr (sub_ne_zero.mpr (Int.ofNat_inj.not.mpr hne.symm))
      omega
    exact_mod_cast hint
  have htriangle := abs_sub_le (n : ℚ) y m
  rw [abs_sub_comm (n : ℚ) y] at htriangle
  linarith [h.near]

/-- No whole number is nearer. -/
theorem nearest (h : RoundsTo y n) (m : ℕ) : |y - n| ≤ |y - m| := by
  by_cases hne : m = n
  · rw [hne]
  · exact h.near.trans (h.half_le_of_ne hne)

theorem unique (hn : RoundsTo y n) (hm : RoundsTo y m) : n = m := by
  by_contra hne
  have hn' : |y - n| = 1 / 2 := le_antisymm hn.near (hm.half_le_of_ne hne)
  have hm' : |y - m| = 1 / 2 := le_antisymm hm.near (hn.half_le_of_ne (Ne.symm hne))
  -- both are half away, on different sides, so one follows the other and is odd
  have hapart : (n : ℚ) = m + 1 ∨ (m : ℚ) = n + 1 := by
    rcases abs_eq (by norm_num : (0 : ℚ) ≤ 1 / 2) |>.mp hn' with h | h <;>
      rcases abs_eq (by norm_num : (0 : ℚ) ≤ 1 / 2) |>.mp hm' with h' | h'
    · exact absurd (by linarith : (n : ℚ) = m) (by exact_mod_cast hne)
    · exact .inr (by linarith)
    · exact .inl (by linarith)
    · exact absurd (by linarith : (n : ℚ) = m) (by exact_mod_cast hne)
  have hparity := hn.even hn'
  have hparity' := hm.even hm'
  rcases hapart with h | h
  · have : n = m + 1 := by exact_mod_cast h
    omega
  · have : m = n + 1 := by exact_mod_cast h
    omega

end RoundsTo

/-- **A quotient is rounded** to the nearest whole number, and from the middle to the even one. -/
theorem roundsTo_roundDiv (num : ℕ) {den : ℕ} (hden : 0 < den) :
    RoundsTo (num / den) (Single.roundDiv num den) := by
  have hpos : (0 : ℚ) < den := by exact_mod_cast hden
  have hsplit : (num : ℚ) / den = (num / den : ℕ) + (num % den : ℕ) / (den : ℚ) := by
    have hnum : (num : ℚ) = den * (num / den : ℕ) + (num % den : ℕ) := by
      exact_mod_cast (Nat.div_add_mod num den).symm
    rw [hnum]
    field_simp
  have hlt : ((num % den : ℕ) : ℚ) / den < 1 / 2 ↔ 2 * (num % den) < den := by
    rw [div_lt_div_iff₀ hpos two_pos, one_mul, mul_comm]
    exact_mod_cast Iff.rfl
  have heq : ((num % den : ℕ) : ℚ) / den = 1 / 2 ↔ 2 * (num % den) = den := by
    rw [div_eq_div_iff hpos.ne' two_ne_zero, one_mul, mul_comm]
    exact_mod_cast Iff.rfl
  have hnonneg : 0 ≤ ((num % den : ℕ) : ℚ) / den := by positivity
  have hone : ((num % den : ℕ) : ℚ) / den < 1 := by
    rw [div_lt_one hpos]
    exact_mod_cast Nat.mod_lt num hden
  unfold Single.roundDiv
  dsimp only
  rw [hsplit]
  generalize ((num % den : ℕ) : ℚ) / den = t at *
  split
  · rename_i hdown
    have hdist : |((num / den : ℕ) : ℚ) + t - (num / den : ℕ)| = t := by
      rw [add_sub_cancel_left, abs_of_nonneg hnonneg]
    rw [← hlt, ← heq] at hdown
    constructor <;> rw [hdist]
    · exact hdown.elim le_of_lt fun h => h.1.le
    · intro h
      exact hdown.elim (fun hlt => absurd h hlt.ne) And.right
  · rename_i hup
    rw [← hlt, ← heq] at hup
    obtain ⟨hnotlt, hodd⟩ := not_or.mp hup
    have hdist : |((num / den : ℕ) : ℚ) + t - (num / den + 1 : ℕ)| = 1 - t := by
      push_cast
      rw [add_sub_add_left_eq_sub, abs_sub_comm, abs_of_nonneg (by linarith)]
    constructor <;> rw [hdist]
    · linarith
    · intro h
      have := not_and.mp hodd (by linarith)
      omega

/-! ## Powers of ten -/

theorem ten_ne_zero : (10 : ℚ) ≠ 0 := by norm_num

theorem one_lt_ten : (1 : ℚ) < 10 := by norm_num

section

variable {r : ℚ} {e f : ℤ}

/-- A number lies between two neighbouring powers of ten only. -/
theorem exponent_unique (hlow : (10 : ℚ) ^ e ≤ r) (hhigh : r < (10 : ℚ) ^ (e + 1))
    (hlow' : (10 : ℚ) ^ f ≤ r) (hhigh' : r < (10 : ℚ) ^ (f + 1)) : e = f := by
  have h := (zpow_lt_zpow_iff_right₀ one_lt_ten).mp (hlow.trans_lt hhigh')
  have h' := (zpow_lt_zpow_iff_right₀ one_lt_ten).mp (hlow'.trans_lt hhigh)
  omega

end

namespace Single.SixDigits

variable {r : ℚ} {e : ℤ} {n : ℕ} {six other : SixDigits}

/-- The number that the digits stand for. -/
def value (six : SixDigits) : ℚ := six.digits * (10 : ℚ) ^ (six.exponent - 5)

/-- There are six digits, and the first is not a zero. -/
def IsNormal (six : SixDigits) : Prop := 100000 ≤ six.digits ∧ six.digits < 1000000

/-- A number rounds to six significant digits: to none that is farther away than another, and of two
that are equally near to the one with an even last digit. -/
structure IsNearest (r : ℚ) (six : SixDigits) : Prop where
  normal : six.IsNormal
  near : ∀ other : SixDigits, other.IsNormal → |r - six.value| ≤ |r - other.value|
  even : ∀ other : SixDigits, other.IsNormal → other ≠ six →
    |r - six.value| = |r - other.value| → six.digits % 2 = 0

theorem zpow_sub_five (e : ℤ) : (10 : ℚ) ^ (e - 5) = (10 : ℚ) ^ e / 100000 := by
  rw [zpow_sub₀ ten_ne_zero]
  norm_num

/-- The exponent is that of the number. -/
theorem IsNormal.bounds (h : six.IsNormal) :
    (10 : ℚ) ^ six.exponent ≤ six.value ∧ six.value < (10 : ℚ) ^ (six.exponent + 1) := by
  have hlow : (100000 : ℚ) ≤ six.digits := by exact_mod_cast h.1
  have hhigh : (six.digits : ℚ) < 1000000 := by exact_mod_cast h.2
  have hpos : (0 : ℚ) < 10 ^ six.exponent := by positivity
  rw [value, zpow_sub_five, zpow_add_one₀ ten_ne_zero]
  constructor <;> nlinarith

/-- Different digits are different numbers. -/
theorem IsNormal.value_inj (h : six.IsNormal) (h' : other.IsNormal)
    (hvalue : six.value = other.value) : six = other := by
  have hexponent : six.exponent = other.exponent := by
    refine exponent_unique h.bounds.1 h.bounds.2 ?_ ?_
    · rw [hvalue]
      exact h'.bounds.1
    · rw [hvalue]
      exact h'.bounds.2
  have hdigits : six.digits = other.digits := by
    rw [value, value, hexponent] at hvalue
    exact_mod_cast mul_right_cancel₀ (by positivity) hvalue
  obtain ⟨_, _⟩ := six
  obtain ⟨_, _⟩ := other
  exact congrArg₂ SixDigits.mk hdigits hexponent

/-! ### The grid that a number lies in -/

/-- The digits of a number rounded in units of its sixth digit, where a million is the next power of
ten. -/
def ofRounded (n : ℕ) (e : ℤ) : SixDigits :=
  if n = 1000000 then ⟨100000, e + 1⟩ else ⟨n, e⟩

theorem value_ofRounded (n : ℕ) (e : ℤ) :
    (ofRounded n e).value = n * (10 : ℚ) ^ (e - 5) := by
  unfold ofRounded value
  split
  · rename_i hmillion
    rw [hmillion, zpow_sub_five, zpow_sub_five, zpow_add_one₀ ten_ne_zero]
    push_cast
    ring
  · rfl

/-- Numbers that do not lie below the grid lie on it. -/
theorem exists_value_eq (hgrid : e ≤ other.exponent) :
    ∃ k : ℕ, other.value = k * (10 : ℚ) ^ (e - 5) := by
  obtain ⟨finer, hfiner⟩ := Int.eq_ofNat_of_zero_le (sub_nonneg.mpr hgrid)
  refine ⟨other.digits * 10 ^ finer, ?_⟩
  have hexponent : other.exponent - 5 = finer + (e - 5) := by omega
  rw [value, hexponent, zpow_add₀ ten_ne_zero, zpow_natCast]
  push_cast
  ring

/-- Numbers below the grid lie below the power of ten where it begins. -/
theorem IsNormal.value_lt (h : other.IsNormal) (hbelow : other.exponent < e) :
    other.value < (10 : ℚ) ^ e :=
  h.bounds.2.trans_le (zpow_le_zpow_right₀ one_lt_ten.le (by omega))

/-- Distances are measured in units of the sixth digit. -/
theorem abs_sub_grid (r : ℚ) (e : ℤ) (k : ℕ) :
    |r - k * (10 : ℚ) ^ (e - 5)| = |r * (10 : ℚ) ^ (5 - e) - k| * (10 : ℚ) ^ (e - 5) := by
  have hpos : (0 : ℚ) < (10 : ℚ) ^ (e - 5) := by positivity
  have hunit : (10 : ℚ) ^ (5 - e) * (10 : ℚ) ^ (e - 5) = 1 := by
    rw [← zpow_add₀ ten_ne_zero, sub_add_sub_cancel', sub_self, zpow_zero]
  rw [← abs_of_pos hpos, ← abs_mul, abs_of_pos hpos, sub_mul, mul_assoc, hunit, mul_one]

/-- An even number of units is of even digits, also where it is a million. -/
theorem even_ofRounded (hn : n % 2 = 0) : (ofRounded n e).digits % 2 = 0 := by
  unfold ofRounded
  split
  · norm_num
  · exact hn

/-- What is below the grid is farther away than the power of ten where the grid begins, and this is
not nearer than what is rounded to. -/
theorem IsNormal.farther_of_below (h : other.IsNormal) (hlow : (10 : ℚ) ^ e ≤ r)
    (hn : RoundsTo (r * (10 : ℚ) ^ (5 - e)) n) (hbelow : other.exponent < e) :
    |r * (10 : ℚ) ^ (5 - e) - n| * (10 : ℚ) ^ (e - 5) < |r - other.value| := by
  have hpos : (0 : ℚ) < (10 : ℚ) ^ (e - 5) := by positivity
  have hvalue := h.value_lt hbelow
  have hstart : (10 : ℚ) ^ e = (100000 : ℕ) * (10 : ℚ) ^ (e - 5) := by
    rw [zpow_sub_five]
    push_cast
    ring
  calc |r * (10 : ℚ) ^ (5 - e) - n| * (10 : ℚ) ^ (e - 5)
      ≤ |r - (10 : ℚ) ^ e| := by
        rw [hstart, abs_sub_grid]
        exact mul_le_mul_of_nonneg_right (hn.nearest _) hpos.le
    _ = r - (10 : ℚ) ^ e := abs_of_nonneg (by linarith)
    _ < r - other.value := by linarith
    _ ≤ |r - other.value| := le_abs_self _

section Rounded

variable (hlow : (10 : ℚ) ^ e ≤ r) (hhigh : r < (10 : ℚ) ^ (e + 1))
  (hn : RoundsTo (r * (10 : ℚ) ^ (5 - e)) n)

include hlow hhigh hn

/-- A number has six digits before the point in units of its sixth digit, or is rounded up to
seven. -/
theorem rounded_bounds : 100000 ≤ n ∧ n ≤ 1000000 := by
  have hpos : (0 : ℚ) < (10 : ℚ) ^ (5 - e) := by positivity
  have hlow' : (100000 : ℚ) ≤ r * (10 : ℚ) ^ (5 - e) := by
    have h := mul_le_mul_of_nonneg_right hlow hpos.le
    rw [← zpow_add₀ ten_ne_zero, add_sub_cancel] at h
    exact_mod_cast h
  have hhigh' : r * (10 : ℚ) ^ (5 - e) < 1000000 := by
    have h := mul_lt_mul_of_pos_right hhigh hpos
    have hexponent : e + 1 + (5 - e) = 6 := by ring
    rw [← zpow_add₀ ten_ne_zero, hexponent] at h
    exact_mod_cast h
  obtain ⟨hdown, hup⟩ := abs_le.mp hn.near
  constructor
  · have : (100000 : ℚ) < n + 1 := by linarith
    have : 100000 < n + 1 := by exact_mod_cast this
    omega
  · have : (n : ℚ) < 1000000 + 1 := by linarith
    have : n < 1000000 + 1 := by exact_mod_cast this
    omega

theorem isNormal_ofRounded : (ofRounded n e).IsNormal := by
  obtain ⟨hsix, hseven⟩ := rounded_bounds hlow hhigh hn
  unfold ofRounded IsNormal
  split
  · simp
  · exact ⟨hsix, lt_of_le_of_ne hseven ‹_›⟩

/-- **Rounding on the grid** that a number lies in is rounding to six significant digits. -/
theorem isNearest_ofRounded : (ofRounded n e).IsNearest r := by
  have hnormal := isNormal_ofRounded hlow hhigh hn
  have hpos : (0 : ℚ) < (10 : ℚ) ^ (e - 5) := by positivity
  have hnear {other : SixDigits} (hother : other.IsNormal) (hne : other ≠ ofRounded n e) :
      |r - (ofRounded n e).value| ≤ |r - other.value| ∧
        (|r - (ofRounded n e).value| = |r - other.value| → (ofRounded n e).digits % 2 = 0) := by
    rw [value_ofRounded, abs_sub_grid]
    by_cases hgrid : e ≤ other.exponent
    · obtain ⟨k, hk⟩ := exists_value_eq hgrid
      have hkn : k ≠ n := by
        rintro rfl
        refine hne (hother.value_inj hnormal ?_)
        rw [hk, value_ofRounded]
      rw [hk, abs_sub_grid]
      refine ⟨mul_le_mul_of_nonneg_right (hn.nearest k) hpos.le, fun htie => ?_⟩
      -- a tie of six digits is one of whole numbers
      have htie := mul_right_cancel₀ hpos.ne' htie
      exact even_ofRounded (hn.even (le_antisymm hn.near (htie ▸ hn.half_le_of_ne hkn)))
    · have hfar := hother.farther_of_below hlow hn (lt_of_not_ge hgrid)
      exact ⟨hfar.le, fun htie => absurd htie hfar.ne⟩
  refine ⟨hnormal, fun other hother => ?_, fun other hother hne => (hnear hother hne).2⟩
  by_cases hne : other = ofRounded n e
  · rw [hne]
  · exact (hnear hother hne).1

end Rounded

/-- **Rounding in units of the last digit** finds the digits. Where they went up to the next power
of ten, the unit is ten times as large by now, and the number is closer to the digits in it. -/
theorem roundsTo_ofRounded (hn : RoundsTo (r * (10 : ℚ) ^ (5 - e)) n) :
    RoundsTo (r * (10 : ℚ) ^ (5 - (ofRounded n e).exponent)) (ofRounded n e).digits := by
  unfold ofRounded
  split
  · rename_i hmillion
    have hexponent : 5 - (e + 1) = 5 - e - 1 := by ring
    have hclose : |r * (10 : ℚ) ^ (5 - (e + 1)) - (100000 : ℕ)| ≤ 1 / 20 := by
      have hnear := hn.near
      rw [hmillion, abs_le] at hnear
      rw [hexponent, zpow_sub_one₀ ten_ne_zero, abs_le]
      push_cast at hnear ⊢
      constructor <;> linarith
    exact ⟨hclose.trans (by norm_num), fun _ => by norm_num⟩
  · exact hn

/-! ### One number only -/

/-- The next number of six digits, where the last one is not a nine, and nothing in between. -/
theorem IsNormal.succ_le (h : six.IsNormal) (h' : other.IsNormal) (hlt : six.value < other.value) :
    ((six.digits + 1 : ℕ) : ℚ) * (10 : ℚ) ^ (six.exponent - 5) ≤ other.value := by
  have hpos : (0 : ℚ) < (10 : ℚ) ^ (six.exponent - 5) := by positivity
  by_cases hgrid : six.exponent ≤ other.exponent
  · obtain ⟨k, hk⟩ := exists_value_eq hgrid
    rw [hk]
    rw [hk, value] at hlt
    have hk : six.digits < k := by exact_mod_cast lt_of_mul_lt_mul_right hlt hpos.le
    exact mul_le_mul_of_nonneg_right (by exact_mod_cast hk) hpos.le
  · exact absurd (h'.value_lt (lt_of_not_ge hgrid)) (not_lt_of_ge (h.bounds.1.trans hlt.le))

/-- Of two numbers that are equally near the lower one is followed by the other, since nothing in
between is nearer, and so they are not both even. -/
theorem IsNearest.not_value_lt (h : six.IsNearest r) (h' : other.IsNearest r) :
    ¬ six.value < other.value := by
  intro hlt
  have htie := le_antisymm (h.near other h'.normal) (h'.near six h.normal)
  have hne : other ≠ six := fun heq => hlt.ne (congrArg value heq.symm)
  have heven := h.even other h'.normal hne htie
  have heven' := h'.even six h.normal hne.symm htie.symm
  have hmiddle : 2 * r = six.value + other.value := by
    rcases abs_eq_abs.mp htie with hsame | hopposite
    · exact absurd (by linarith) hlt.ne
    · linarith
  have hnormal : (SixDigits.mk (six.digits + 1) six.exponent).IsNormal := by
    have hhigh := h.normal.2
    refine ⟨Nat.le_succ_of_le h.normal.1, ?_⟩
    show six.digits + 1 < 1000000
    omega
  have hstep : six.value < (SixDigits.mk (six.digits + 1) six.exponent).value :=
    mul_lt_mul_of_pos_right (by exact_mod_cast Nat.lt_succ_self _) (by positivity)
  rcases lt_or_eq_of_le (h.normal.succ_le h'.normal hlt) with hbetween | hnext
  · refine not_lt_of_ge (h.near _ hnormal) ?_
    have hdist : |r - six.value| = r - six.value := abs_of_pos (by linarith)
    rw [hdist, abs_lt]
    change (SixDigits.mk (six.digits + 1) six.exponent).value < other.value at hbetween
    constructor <;> linarith
  · have hdigits := congrArg digits (hnormal.value_inj h'.normal hnext)
    dsimp only at hdigits
    omega

/-- **A number rounds to one** number of six digits. -/
theorem IsNearest.unique (h : six.IsNearest r) (h' : other.IsNearest r) : six = other :=
  h.normal.value_inj h'.normal
    (le_antisymm (not_lt.mp (h'.not_value_lt h)) (not_lt.mp (h.not_value_lt h')))

end Single.SixDigits

/-! ## The digits of a real -/

namespace Decimal

theorem place_succ (n : ℕ) : place (n + 1) = 10 * place n := Nat.pow_succ'

theorem cast_place (n : ℕ) : ((place n : ℕ) : ℚ) = (10 : ℚ) ^ n := Nat.cast_pow 10 n

theorem lt_place_length_digits (n : ℕ) : n < place (digits n).length := by
  fun_induction digits n with
  | case1 n hn => exact hn
  | case2 n _ ih =>
    rw [List.length_append, List.length_singleton, place_succ]
    omega

theorem place_length_digits_le {n : ℕ} (hn : 0 < n) : place (digits n).length ≤ 10 * n := by
  fun_induction digits n with
  | case1 n _ => exact Nat.mul_le_mul_left 10 hn
  | case2 n hten ih =>
    have := ih (Nat.div_pos (not_lt.mp hten) (by norm_num))
    rw [List.length_append, List.length_singleton, place_succ]
    omega

end Decimal

namespace Single

variable {quanta : ℕ} {x : Single}

theorem quantaPerUnit_pos : 0 < quantaPerUnit := by decide

/-- **The decimal exponent** is that of the greatest power of ten that is not above the number. -/
theorem decimalExponent_bounds (hquanta : 0 < quanta) :
    (10 : ℚ) ^ decimalExponent quanta ≤ quanta / quantaPerUnit ∧
      (quanta : ℚ) / quantaPerUnit < (10 : ℚ) ^ (decimalExponent quanta + 1) := by
  have hunit : (0 : ℚ) < quantaPerUnit := by exact_mod_cast quantaPerUnit_pos
  have hcount : 0 < quanta * Decimal.place 45 / quantaPerUnit := by
    refine Nat.div_pos ?_ quantaPerUnit_pos
    have hsmall : quantaPerUnit ≤ Decimal.place 45 := by decide
    exact hsmall.trans (Nat.le_mul_of_pos_left _ hquanta)
  have hlow := Decimal.place_length_digits_le hcount
  have hhigh := Decimal.lt_place_length_digits (quanta * Decimal.place 45 / quantaPerUnit)
  unfold decimalExponent
  generalize (Decimal.digits (quanta * Decimal.place 45 / quantaPerUnit)).length = length at *
  have hlow' : Decimal.place length * quantaPerUnit ≤ quanta * Decimal.place 46 := by
    have := Nat.div_mul_le_self (quanta * Decimal.place 45) quantaPerUnit
    calc Decimal.place length * quantaPerUnit
        ≤ 10 * (quanta * Decimal.place 45 / quantaPerUnit) * quantaPerUnit :=
          Nat.mul_le_mul_right _ hlow
      _ ≤ 10 * (quanta * Decimal.place 45) := by
          rw [Nat.mul_assoc]
          exact Nat.mul_le_mul_left 10 this
      _ = quanta * Decimal.place 46 := by
          rw [Decimal.place_succ 45]
          ring
  have hhigh' : quanta * Decimal.place 45 < Decimal.place length * quantaPerUnit :=
    (Nat.div_lt_iff_lt_mul quantaPerUnit_pos).mp hhigh
  constructor
  · rw [zpow_sub₀ ten_ne_zero, zpow_natCast, div_le_div_iff₀ (by positivity) hunit]
    exact_mod_cast hlow'
  · have hexponent : (length : ℤ) - 46 + 1 = length - 45 := by ring
    rw [hexponent, zpow_sub₀ ten_ne_zero, zpow_natCast,
      div_lt_div_iff₀ hunit (by positivity)]
    exact_mod_cast hhigh'

/-- The six digits are those of the exact value, rounded in units of the sixth. -/
theorem exists_sixDigits_eq (quanta : ℕ) :
    ∃ n, RoundsTo (quanta / quantaPerUnit * (10 : ℚ) ^ (5 - decimalExponent quanta)) n ∧
      sixDigits quanta = .ofRounded n (decimalExponent quanta) := by
  by_cases hexponent : decimalExponent quanta ≤ 5
  · obtain ⟨places, hplaces⟩ := Int.eq_ofNat_of_zero_le (sub_nonneg.mpr hexponent)
    refine ⟨roundDiv (quanta * Decimal.place places) quantaPerUnit, ?_, ?_⟩
    · have h := roundsTo_roundDiv (quanta * Decimal.place places) quantaPerUnit_pos
      rw [Nat.cast_mul, Decimal.cast_place, mul_div_right_comm] at h
      rwa [hplaces, zpow_natCast]
    · simp [sixDigits, SixDigits.ofRounded, hexponent, hplaces]
  · obtain ⟨places, hplaces⟩ := Int.eq_ofNat_of_zero_le (sub_nonneg.mpr (le_of_not_ge hexponent))
    refine ⟨roundDiv quanta (quantaPerUnit * Decimal.place places), ?_, ?_⟩
    · have hpos : 0 < quantaPerUnit * Decimal.place places :=
        Nat.mul_pos quantaPerUnit_pos (Nat.pow_pos (by norm_num))
      have h := roundsTo_roundDiv quanta hpos
      rw [Nat.cast_mul, Decimal.cast_place, ← div_div, div_eq_mul_inv _ ((10 : ℚ) ^ places)] at h
      rwa [← neg_sub, hplaces, zpow_neg, zpow_natCast]
    · simp [sixDigits, SixDigits.ofRounded, hexponent, hplaces]

/-- **The six digits of a real** are those that its exact value rounds to. -/
theorem isNearest_sixDigits (hquanta : 0 < quanta) :
    (sixDigits quanta).IsNearest (quanta / quantaPerUnit) := by
  obtain ⟨n, hn, hdigits⟩ := exists_sixDigits_eq quanta
  obtain ⟨hlow, hhigh⟩ := decimalExponent_bounds hquanta
  rw [hdigits]
  exact SixDigits.isNearest_ofRounded hlow hhigh hn

/-- **A second rounding** at the place of the last of the six digits finds the same digits, also
where the first one went up to the next power of ten. -/
theorem roundDiv_sixDigits (hexponent : (sixDigits quanta).exponent ≤ 5) :
    roundDiv (quanta * Decimal.place (5 - (sixDigits quanta).exponent).toNat) quantaPerUnit =
      (sixDigits quanta).digits := by
  obtain ⟨n, hn, hdigits⟩ := exists_sixDigits_eq quanta
  obtain ⟨places, hplaces⟩ := Int.eq_ofNat_of_zero_le (sub_nonneg.mpr hexponent)
  have h := roundsTo_roundDiv (quanta * Decimal.place places) quantaPerUnit_pos
  rw [Nat.cast_mul, Decimal.cast_place, mul_div_right_comm, ← zpow_natCast, ← hplaces] at h
  rw [hplaces, Int.toNat_natCast]
  refine h.unique ?_
  rw [hdigits]
  exact SixDigits.roundsTo_ofRounded hn

/-! ### Finite reals -/

theorem quanta_pos (hzero : x.isZero = false) : 0 < x.quanta := by
  have hmagnitude : 0 < x.magnitude := Nat.pos_of_ne_zero (of_decide_eq_false hzero)
  have hsignificand : 0 < x.significand := by
    unfold significand
    dsimp only
    split
    · rename_i hsmall
      rwa [Nat.mod_eq_of_lt hsmall]
    · exact Nat.add_pos_right _ (by decide)
  rw [quanta, Nat.shiftLeft_eq]
  exact Nat.mul_pos hsignificand (Nat.pow_pos two_pos)

/-- A finite real is below `2 ^ 128`. -/
theorem quanta_lt (hfinite : x.isFinite = true) : x.quanta < 2 ^ 24 * 2 ^ 253 := by
  have hmagnitude : x.magnitude < infiniteMagnitude := of_decide_eq_true hfinite
  have hsignificand : x.significand < 2 ^ 24 := by
    have hfraction : x.magnitude % exponentWeight < exponentWeight := Nat.mod_lt _ (by decide)
    have hweight : exponentWeight = 2 ^ 23 := by decide
    unfold significand
    dsimp only
    split <;> omega
  have hscale : x.scale ≤ 253 := by
    have hhigh : x.magnitude / exponentWeight < 255 :=
      (Nat.div_lt_iff_lt_mul (by decide)).mpr hmagnitude
    unfold scale
    omega
  rw [quanta, Nat.shiftLeft_eq]
  exact Nat.mul_lt_mul_of_lt_of_le hsignificand (Nat.pow_le_pow_right two_pos hscale) (by decide)

/-- The exponents of finite reals have two digits at most. -/
theorem exponent_bounds (hfinite : x.isFinite = true) (hzero : x.isZero = false) :
    -45 ≤ (sixDigits x.quanta).exponent ∧ (sixDigits x.quanta).exponent ≤ 39 := by
  have hlow : -45 ≤ decimalExponent x.quanta := by
    have := List.length_pos_iff.mpr
      (Decimal.digits_ne_nil (x.quanta * Decimal.place 45 / quantaPerUnit))
    unfold decimalExponent
    omega
  have hhigh : decimalExponent x.quanta < 39 := by
    have hsize : ((x.quanta : ℕ) : ℚ) / quantaPerUnit < (10 : ℚ) ^ (39 : ℤ) := by
      have hquanta : (x.quanta : ℚ) < 2 ^ 24 * 2 ^ 253 := by exact_mod_cast quanta_lt hfinite
      have hunit : (quantaPerUnit : ℚ) = 2 ^ 149 := by
        have : quantaPerUnit = 2 ^ 149 := by decide
        exact_mod_cast this
      rw [hunit, div_lt_iff₀ (by positivity)]
      refine hquanta.trans ?_
      norm_num
    have h := (decimalExponent_bounds (quanta_pos hzero)).1.trans_lt hsize
    exact (zpow_lt_zpow_iff_right₀ one_lt_ten).mp h
  obtain ⟨n, -, hdigits⟩ := exists_sixDigits_eq x.quanta
  rw [hdigits, SixDigits.ofRounded]
  split
  · show -45 ≤ decimalExponent x.quanta + 1 ∧ decimalExponent x.quanta + 1 ≤ 39
    omega
  · show -45 ≤ decimalExponent x.quanta ∧ decimalExponent x.quanta ≤ 39
    omega

end Single

end ArrayMachine
