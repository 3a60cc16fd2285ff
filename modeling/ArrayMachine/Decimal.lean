/-!
# Decimal digits

Numbers as lists of ASCII digits, most significant first. `digits` writes a number, `ofDigits`
reads any list of digits, leading zeros included, and `ofDigits_digits` says that reading what was
written gives the number back.
-/

namespace ArrayMachine.Decimal

/-- An ASCII digit. -/
def isDigit (byte : UInt8) : Bool := 48 ≤ byte && byte ≤ 57

/-- The digit of a number below ten. -/
def digit (n : Nat) : UInt8 := UInt8.ofNat (48 + n)

/-- The number a digit stands for. -/
def digitValue (byte : UInt8) : Nat := byte.toNat - 48

/-- Ten to the `n`: what a one with `n` digits behind it stands for. -/
def place (n : Nat) : Nat := Nat.pow 10 n

/-- The decimal digits of a number, without leading zeros. -/
def digits (n : Nat) : List UInt8 :=
  if n < 10 then [digit n] else digits (n / 10) ++ [digit (n % 10)]

/-- The number that a list of digits denotes. -/
def ofDigits (ds : List UInt8) : Nat := ds.foldl (fun n d => 10 * n + digitValue d) 0

theorem digitValue_digit {n : Nat} (h : n < 10) : digitValue (digit n) = n := by
  have : (48 + n) % 256 = 48 + n := Nat.mod_eq_of_lt (by omega)
  simp only [digitValue, digit, UInt8.toNat_ofNat']
  omega

theorem isDigit_digit {n : Nat} (h : n < 10) : isDigit (digit n) = true := by
  have : (48 + n) % 256 = 48 + n := Nat.mod_eq_of_lt (by omega)
  simp only [isDigit, digit, Bool.and_eq_true, decide_eq_true_eq, UInt8.le_iff_toNat_le,
    UInt8.toNat_ofNat', UInt8.reduceToNat]
  omega

theorem ofDigits_append_singleton (ds : List UInt8) (d : UInt8) :
    ofDigits (ds ++ [d]) = 10 * ofDigits ds + digitValue d := by
  simp [ofDigits]

/-- Reading the digits of a number gives the number back. -/
theorem ofDigits_digits (n : Nat) : ofDigits (digits n) = n := by
  fun_induction digits n with
  | case1 n h => simp [ofDigits, digitValue_digit h]
  | case2 n h ih =>
    rw [ofDigits_append_singleton, ih, digitValue_digit (Nat.mod_lt _ (by decide))]
    omega

theorem digits_ne_nil (n : Nat) : digits n ≠ [] := by
  unfold digits
  split <;> simp

/-- What a number is written with are digits. -/
theorem isDigit_of_mem_digits {n : Nat} {d : UInt8} (h : d ∈ digits n) : isDigit d = true := by
  fun_induction digits n with
  | case1 n hn =>
    obtain rfl := List.mem_singleton.mp h
    exact isDigit_digit hn
  | case2 n _ ih =>
    rcases List.mem_append.mp h with h | h
    · exact ih h
    · obtain rfl := List.mem_singleton.mp h
      exact isDigit_digit (Nat.mod_lt _ (by decide))

end ArrayMachine.Decimal
