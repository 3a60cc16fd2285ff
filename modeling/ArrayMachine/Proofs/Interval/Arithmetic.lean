import Mathlib.Algebra.Group.Int.Defs
import Mathlib.Order.Bounds.Basic
import Mathlib.Order.MinMax
import ArrayMachine.Proofs.Interval.Members

/-!
# Arithmetic on intervals

Among the exact results of an operator on the members of two intervals, one is the least and one the
greatest, and both are results of ends. The interval that is answered has these two as its ends,
each brought around to a word on its own. How often it comes around is its `turn`. Results of one
turn keep their order, so they are covered. Results of two turns do not: sums and differences are
then refused as long as they are no more than there are words, and products never are.

* `isLeast_leastResult`, `isGreatest_greatestResult`: the exact results.
* `arithmetic_eq_ofEnds`: the ends of the answer.
* `arithmetic_exact`: nothing comes around.
* `arithmetic_covers`: which answers cover all results that have come around.
* `arithmetic_misses`: a sum and a product that do not.
-/

namespace ArrayMachine

variable {op : BinaryOp} {f : Int → Int → Int} {a b c : Interval} {n : Int32} {z w t x p q : Int}

/-! ## Words that come around -/

/-- How often an integer has to come around to be a word: not at all from `-2 ^ 31` to `2 ^ 31 - 1`,
once forward for the next `2 ^ 32` integers, and so on. -/
def turn (z : Int) : Int := (z + 2 ^ 31) / 2 ^ 32

theorem toInt_ofInt_eq (z : Int) : (Int32.ofInt z).toInt = z - 2 ^ 32 * turn z := by
  rw [Int32.toInt_ofInt, show Int32.size = 2 ^ 32 from rfl, Int.bmod_def]
  unfold turn
  split <;> omega

/-- The integer is a word as it stands. -/
def IsWord (z : Int) : Prop := -2 ^ 31 ≤ z ∧ z < 2 ^ 31

instance (z : Int) : Decidable (IsWord z) := inferInstanceAs (Decidable (_ ∧ _))

theorem IsWord.turn_eq (h : IsWord z) : turn z = 0 := by
  obtain ⟨hleast, hgreatest⟩ := h
  unfold turn
  omega

theorem turn_mono (h : z ≤ w) : turn z ≤ turn w := by
  unfold turn
  omega

theorem toInt_min (m n : Int32) : (min m n).toInt = min m.toInt n.toInt := by
  show (if m ≤ n then m else n).toInt = _
  split
  · rename_i h
    rw [min_eq_left (Int32.le_iff_toInt_le.mp h)]
  · rename_i h
    rw [min_eq_right (Int.le_of_not_le (mt Int32.le_iff_toInt_le.mpr h))]

theorem toInt_max (m n : Int32) : (max m n).toInt = max m.toInt n.toInt := by
  show (if m ≤ n then n else m).toInt = _
  split
  · rename_i h
    rw [max_eq_right (Int32.le_iff_toInt_le.mp h)]
  · rename_i h
    rw [max_eq_left (Int.le_of_not_le (mt Int32.le_iff_toInt_le.mpr h))]

/-- Integers of one turn keep their order, so the least of them stays the least. -/
theorem min_ofInt (hz : turn z = t) (hw : turn w = t) :
    min (Int32.ofInt z) (Int32.ofInt w) = Int32.ofInt (min z w) ∧ turn (min z w) = t := by
  have hleast : turn (min z w) = t := min_rec' (turn · = t) hz hw
  refine ⟨?_, hleast⟩
  rw [← Int32.toInt_inj, toInt_min, toInt_ofInt_eq, toInt_ofInt_eq, toInt_ofInt_eq, hz, hw, hleast]
  omega

/-- The greatest of them stays the greatest. -/
theorem max_ofInt (hz : turn z = t) (hw : turn w = t) :
    max (Int32.ofInt z) (Int32.ofInt w) = Int32.ofInt (max z w) ∧ turn (max z w) = t := by
  have hgreatest : turn (max z w) = t := max_rec' (turn · = t) hz hw
  refine ⟨?_, hgreatest⟩
  rw [← Int32.toInt_inj, toInt_max, toInt_ofInt_eq, toInt_ofInt_eq, toInt_ofInt_eq, hz, hw,
    hgreatest]
  omega

/-! ## Exact results -/

/-- The operators that intervals have, on all integers. -/
def BinaryOp.onIntegers? : BinaryOp → Option (Int → Int → Int)
  | plus => some (· + ·)
  | minus => some (· - ·)
  | times => some (· * ·)
  | _ => none

/-- On words, these operators come around. -/
theorem Element.binaryInteger_onIntegers (hop : op.onIntegers? = some f) (x y : Int32) :
    binaryInteger op x y = .ok (.integer (Int32.ofInt (f x.toInt y.toInt))) := by
  cases op <;> cases hop
  · simp only [binaryInteger, Int32.ofInt_mul, Int32.ofInt_toInt]
  · simp only [binaryInteger, Int32.ofInt_add, Int32.ofInt_toInt]
  · simp only [binaryInteger, Int32.ofInt_sub, Int32.ofInt_toInt]

namespace Interval

/-- What an operator on all integers makes of the members of two intervals. -/
def results (f : Int → Int → Int) (a b : Interval) : Set Int :=
  {z | ∃ x ∈ a, ∃ y ∈ b, f x.toInt y.toInt = z}

theorem mem_results {x y : Int32} (f : Int → Int → Int) (hx : x ∈ a) (hy : y ∈ b) :
    f x.toInt y.toInt ∈ results f a b :=
  ⟨x, hx, y, hy, rfl⟩

/-- The result of the ends that is the least one. -/
def leastResult (op : BinaryOp) (a b : Interval) : Int :=
  match op with
  | .plus => a.head.toInt + b.head.toInt
  | .minus => a.head.toInt - b.tail.toInt
  | _ =>
    min (min (min (a.head.toInt * b.head.toInt) (a.head.toInt * b.tail.toInt))
      (a.tail.toInt * b.head.toInt)) (a.tail.toInt * b.tail.toInt)

/-- The result of the ends that is the greatest one. -/
def greatestResult (op : BinaryOp) (a b : Interval) : Int :=
  match op with
  | .plus => a.tail.toInt + b.tail.toInt
  | .minus => a.tail.toInt - b.head.toInt
  | _ =>
    max (max (max (a.head.toInt * b.head.toInt) (a.head.toInt * b.tail.toInt))
      (a.tail.toInt * b.head.toInt)) (a.tail.toInt * b.tail.toInt)

/-- Between two numbers, a product lies between theirs, whichever is the less. -/
theorem mul_between (hp : p ≤ x) (hq : x ≤ q) (y : Int) :
    min (p * y) (q * y) ≤ x * y ∧ x * y ≤ max (p * y) (q * y) := by
  rcases Int.le_total 0 y with hy | hy
  · exact ⟨(min_le_left _ _).trans (Int.mul_le_mul_of_nonneg_right hp hy),
      (Int.mul_le_mul_of_nonneg_right hq hy).trans (le_max_right _ _)⟩
  · exact ⟨(min_le_right _ _).trans (Int.mul_le_mul_of_nonpos_right hq hy),
      (Int.mul_le_mul_of_nonpos_right hp hy).trans (le_max_left _ _)⟩

/-- **A product of members** lies between those of the ends. -/
theorem product_between {m n : Int32} (hm : m ∈ a) (hn : n ∈ b) :
    leastResult .times a b ≤ m.toInt * n.toInt ∧ m.toInt * n.toInt ≤ greatestResult .times a b := by
  obtain ⟨hhead, htail⟩ := mem_iff.mp hm
  obtain ⟨hhead', htail'⟩ := mem_iff.mp hn
  have hleft := mul_between hhead htail n.toInt
  have hhead := mul_between hhead' htail' a.head.toInt
  have htail := mul_between hhead' htail' a.tail.toInt
  simp only [Int.mul_comm n.toInt, Int.mul_comm b.head.toInt, Int.mul_comm b.tail.toInt]
    at hhead htail
  simp only [leastResult, greatestResult]
  omega

/-- **The least exact result** is one of the ends. -/
theorem isLeast_leastResult (hop : op.onIntegers? = some f) (a b : Interval) :
    IsLeast (results f a b) (leastResult op a b) := by
  have corner {m n : Int32} (hm : m ∈ a) (hn : n ∈ b) := mem_results f hm hn
  cases op <;> cases hop
  case plus =>
    refine ⟨corner a.head_mem b.head_mem, ?_⟩
    rintro _ ⟨m, hm, n, hn, rfl⟩
    exact Int.add_le_add (mem_iff.mp hm).1 (mem_iff.mp hn).1
  case minus =>
    refine ⟨corner a.head_mem b.tail_mem, ?_⟩
    rintro _ ⟨m, hm, n, hn, rfl⟩
    exact Int.sub_le_sub (mem_iff.mp hm).1 (mem_iff.mp hn).2
  case times =>
    refine ⟨min_rec' _ (min_rec' _ (min_rec' _ (corner a.head_mem b.head_mem)
      (corner a.head_mem b.tail_mem)) (corner a.tail_mem b.head_mem))
      (corner a.tail_mem b.tail_mem), ?_⟩
    rintro _ ⟨m, hm, n, hn, rfl⟩
    exact (product_between hm hn).1

/-- **The greatest exact result** is one of the ends. -/
theorem isGreatest_greatestResult (hop : op.onIntegers? = some f) (a b : Interval) :
    IsGreatest (results f a b) (greatestResult op a b) := by
  have corner {m n : Int32} (hm : m ∈ a) (hn : n ∈ b) := mem_results f hm hn
  cases op <;> cases hop
  case plus =>
    refine ⟨corner a.tail_mem b.tail_mem, ?_⟩
    rintro _ ⟨m, hm, n, hn, rfl⟩
    exact Int.add_le_add (mem_iff.mp hm).2 (mem_iff.mp hn).2
  case minus =>
    refine ⟨corner a.tail_mem b.head_mem, ?_⟩
    rintro _ ⟨m, hm, n, hn, rfl⟩
    exact Int.sub_le_sub (mem_iff.mp hm).2 (mem_iff.mp hn).1
  case times =>
    refine ⟨max_rec' _ (max_rec' _ (max_rec' _ (corner a.head_mem b.head_mem)
      (corner a.head_mem b.tail_mem)) (corner a.tail_mem b.head_mem))
      (corner a.tail_mem b.tail_mem), ?_⟩
    rintro _ ⟨m, hm, n, hn, rfl⟩
    exact (product_between hm hn).2

theorem leastResult_le (hop : op.onIntegers? = some f) (a b : Interval) :
    leastResult op a b ≤ greatestResult op a b :=
  (isGreatest_greatestResult hop a b).2 (isLeast_leastResult hop a b).1

/-! ## The ends of the answer -/

/-- If the least and the greatest result are of one turn, so are all others. -/
theorem turn_of_mem_results (hop : op.onIntegers? = some f)
    (hturn : turn (leastResult op a b) = turn (greatestResult op a b)) (hz : z ∈ results f a b) :
    turn z = turn (leastResult op a b) := by
  have hleast := turn_mono ((isLeast_leastResult hop a b).2 hz)
  have hgreatest := turn_mono ((isGreatest_greatestResult hop a b).2 hz)
  omega

/-- The product of words is the product that has come around. -/
theorem mul_eq_ofInt (m n : Int32) : m * n = Int32.ofInt (m.toInt * n.toInt) := by
  rw [Int32.ofInt_mul, Int32.ofInt_toInt, Int32.ofInt_toInt]

/-- **The ends of the answer** are the least and the greatest exact result, come around. Products of
ends only do so together on one turn. -/
theorem arithmetic_eq_ofEnds (hop : op.onIntegers? = some f)
    (h : op ≠ .times ∨ turn (leastResult op a b) = turn (greatestResult op a b)) :
    a.arithmetic op b =
      ofEnds (Int32.ofInt (leastResult op a b)) (Int32.ofInt (greatestResult op a b)) := by
  cases op <;> cases hop
  case plus =>
    simp only [leastResult, greatestResult, Int32.ofInt_add, Int32.ofInt_toInt]
    rfl
  case minus =>
    simp only [leastResult, greatestResult, Int32.ofInt_sub, Int32.ofInt_toInt]
    rfl
  case times =>
    have hturn := h.resolve_left (fun hne => hne rfl)
    have corner {m n : Int32} (hm : m ∈ a) (hn : n ∈ b) :=
      turn_of_mem_results (f := (· * ·)) rfl hturn (mem_results _ hm hn)
    obtain ⟨hmin, hmin'⟩ := min_ofInt (corner a.head_mem b.head_mem) (corner a.head_mem b.tail_mem)
    obtain ⟨hmin₂, hmin₂'⟩ := min_ofInt hmin' (corner a.tail_mem b.head_mem)
    obtain ⟨hmin₃, -⟩ := min_ofInt hmin₂' (corner a.tail_mem b.tail_mem)
    obtain ⟨hmax, hmax'⟩ := max_ofInt (corner a.head_mem b.head_mem) (corner a.head_mem b.tail_mem)
    obtain ⟨hmax₂, hmax₂'⟩ := max_ofInt hmax' (corner a.tail_mem b.head_mem)
    obtain ⟨hmax₃, -⟩ := max_ofInt hmax₂' (corner a.tail_mem b.tail_mem)
    show ofEnds
      (min (min (min (a.head * b.head) (a.head * b.tail)) (a.tail * b.head)) (a.tail * b.tail))
      (max (max (max (a.head * b.head) (a.head * b.tail)) (a.tail * b.head)) (a.tail * b.tail)) = _
    simp only [mul_eq_ofInt]
    rw [hmin, hmin₂, hmin₃, hmax, hmax₂, hmax₃]
    rfl

/-- Where they are of one turn, they are in order. -/
theorem exists_arithmetic (hop : op.onIntegers? = some f)
    (hturn : turn (leastResult op a b) = turn (greatestResult op a b)) :
    ∃ c, a.arithmetic op b = .ok c ∧ c.head = Int32.ofInt (leastResult op a b) ∧
      c.tail = Int32.ofInt (greatestResult op a b) := by
  have horder : Int32.ofInt (leastResult op a b) ≤ Int32.ofInt (greatestResult op a b) := by
    have hle := leastResult_le hop a b
    rw [Int32.le_iff_toInt_le, toInt_ofInt_eq, toInt_ofInt_eq, hturn]
    omega
  refine ⟨⟨_, _, horder⟩, ?_, rfl, rfl⟩
  rw [arithmetic_eq_ofEnds hop (.inr hturn)]
  exact ofEnds_eq_ok_iff.mpr ⟨rfl, rfl⟩

/-! ## Nothing comes around -/

/-- A minus turns the members around. -/
theorem exists_unary_minus (hhead : IsWord (-a.head.toInt)) (htail : IsWord (-a.tail.toInt)) :
    ∃ c, a.unary .minus = .ok c ∧ ∀ n : Int32, n ∈ c ↔ ∃ m ∈ a, n.toInt = -m.toInt := by
  have negated {m : Int32} (hm : IsWord (-m.toInt)) : (-m).toInt = -m.toInt := by
    have hword : -m = Int32.ofInt (-m.toInt) := by rw [Int32.ofInt_neg, Int32.ofInt_toInt]
    rw [hword, toInt_ofInt_eq, hm.turn_eq]
    omega
  have hends := (mem_iff.mp a.head_mem).2
  have horder : -a.tail ≤ -a.head := by
    rw [Int32.le_iff_toInt_le, negated hhead, negated htail]
    omega
  refine ⟨⟨-a.tail, -a.head, horder⟩, ofEnds_eq_ok_iff.mpr ⟨rfl, rfl⟩, fun n => ?_⟩
  have hmem : n ∈ (⟨-a.tail, -a.head, horder⟩ : Interval) ↔
      -a.tail.toInt ≤ n.toInt ∧ n.toInt ≤ -a.head.toInt := by
    rw [mem_iff, negated hhead, negated htail]
  rw [hmem]
  constructor
  · rintro ⟨hleast, hgreatest⟩
    obtain ⟨m, hm, hvalue⟩ := exists_mem (i := a) (z := -n.toInt) (by omega) (by omega)
    exact ⟨m, hm, by omega⟩
  · rintro ⟨m, hm, hvalue⟩
    obtain ⟨hhead, htail⟩ := mem_iff.mp hm
    omega

/-- **Where nothing comes around, arithmetic is exact**: the ends of the answer are the least and
the greatest of all results, and a minus has the negated members and no others. -/
theorem arithmetic_exact (hop : op.onIntegers? = some f) (a b : Interval) :
    ((∀ z ∈ results f a b, IsWord z) → ∃ c, a.arithmetic op b = .ok c ∧
      IsLeast (results f a b) c.head.toInt ∧ IsGreatest (results f a b) c.tail.toInt) ∧
    (IsWord (-a.head.toInt) → IsWord (-a.tail.toInt) →
      ∃ c, a.unary .minus = .ok c ∧ ∀ n : Int32, n ∈ c ↔ ∃ m ∈ a, n.toInt = -m.toInt) := by
  refine ⟨fun hwords => ?_, exists_unary_minus⟩
  have hleast := isLeast_leastResult hop a b
  have hgreatest := isGreatest_greatestResult hop a b
  have hturn := (hwords _ hleast.1).turn_eq
  have hturn' := (hwords _ hgreatest.1).turn_eq
  obtain ⟨c, hc, hhead, htail⟩ := exists_arithmetic hop (hturn.trans hturn'.symm)
  have hlow : c.head.toInt = leastResult op a b := by
    rw [hhead, toInt_ofInt_eq, hturn]
    omega
  have hhigh : c.tail.toInt = greatestResult op a b := by
    rw [htail, toInt_ofInt_eq, hturn']
    omega
  exact ⟨c, hc, hlow ▸ hleast, hhigh ▸ hgreatest⟩

/-- A product up to the limit of the integers, and the widest interval that a minus turns around. -/
theorem arithmetic_exact_limit :
    let a : Interval := ⟨-2, 1073741823, by decide⟩
    let b : Interval := ⟨-1, 2, by decide⟩
    let i : Interval := ⟨-2147483647, Int32.maxValue, by decide⟩
    (∀ z ∈ results (· * ·) a b, IsWord z) ∧ IsWord (-i.head.toInt) ∧ IsWord (-i.tail.toInt) ∧
      (∃ c, a.arithmetic .times b = .ok c ∧ IsLeast (results (· * ·) a b) c.head.toInt ∧
        IsGreatest (results (· * ·) a b) c.tail.toInt ∧ c.tail.toInt = 2147483646) ∧
      ∃ c, i.unary .minus = .ok c ∧ ∀ n : Int32, n ∈ c ↔ ∃ m ∈ i, n.toInt = -m.toInt := by
  intro a b i
  have hleast : leastResult .times a b = -1073741823 := by decide
  have hgreatest : greatestResult .times a b = 2147483646 := by decide
  have hwords : ∀ z ∈ results (· * ·) a b, IsWord z := by
    rintro _ ⟨m, hm, n, hn, rfl⟩
    have hbetween := product_between hm hn
    show -2 ^ 31 ≤ m.toInt * n.toInt ∧ m.toInt * n.toInt < 2 ^ 31
    omega
  have hhead : IsWord (-i.head.toInt) := by decide
  have htail : IsWord (-i.tail.toInt) := by decide
  have htimes : BinaryOp.onIntegers? .times = some (· * ·) := rfl
  obtain ⟨hproduct, -⟩ := arithmetic_exact htimes a b
  obtain ⟨-, hminus⟩ := arithmetic_exact htimes i i
  obtain ⟨c, hc, hlow, hhigh⟩ := hproduct hwords
  have hends := hhigh.unique (isGreatest_greatestResult htimes a b)
  exact ⟨hwords, hhead, htail, ⟨c, hc, hlow, hhigh, hends.trans hgreatest⟩, hminus hhead htail⟩

/-! ## What comes around -/

/-- Whatever the operator makes of members, come around, is a member of the answer. -/
def Covers (c : Interval) (op : BinaryOp) (a b : Interval) : Prop :=
  ∀ x ∈ a, ∀ y ∈ b, ∃ n ∈ c, Element.binaryInteger op x y = .ok (.integer n)

theorem covers_iff (hop : op.onIntegers? = some f) :
    c.Covers op a b ↔ ∀ z ∈ results f a b, Int32.ofInt z ∈ c := by
  constructor
  · rintro h _ ⟨x, hx, y, hy, rfl⟩
    obtain ⟨n, hn, hresult⟩ := h x hx y hy
    rw [Element.binaryInteger_onIntegers hop] at hresult
    obtain rfl := Element.integer.inj (Except.ok.inj hresult)
    exact hn
  · intro h x hx y hy
    exact ⟨_, h _ (mem_results f hx hy), Element.binaryInteger_onIntegers hop x y⟩

/-- **Results of one turn** are covered. -/
theorem exists_covers (hop : op.onIntegers? = some f)
    (hturn : turn (leastResult op a b) = turn (greatestResult op a b)) :
    ∃ c, a.arithmetic op b = .ok c ∧ c.Covers op a b := by
  obtain ⟨c, hc, hhead, htail⟩ := exists_arithmetic hop hturn
  refine ⟨c, hc, (covers_iff hop).mpr fun z hz => ?_⟩
  have hleast := (isLeast_leastResult hop a b).2 hz
  have hgreatest := (isGreatest_greatestResult hop a b).2 hz
  rw [mem_iff, hhead, htail, toInt_ofInt_eq, toInt_ofInt_eq, toInt_ofInt_eq, ← hturn,
    turn_of_mem_results hop hturn hz]
  omega

/-! ## Sums and differences -/

/-- There is one sum less than both intervals have members. -/
theorem width_results (hop : op.onIntegers? = some f) (hne : op ≠ .times) (a b : Interval) :
    greatestResult op a b - leastResult op a b + 2 = a.length + b.length := by
  have hlength := a.length_eq
  have hlength' := b.length_eq
  cases op <;> cases hop
  case times => exact absurd rfl hne
  all_goals
    simp only [leastResult, greatestResult]
    omega

/-- Every integer between the least and the greatest one is a sum, or a difference. -/
theorem mem_results_of_between (hop : op.onIntegers? = some f) (hne : op ≠ .times)
    (hleast : leastResult op a b ≤ z) (hgreatest : z ≤ greatestResult op a b) :
    z ∈ results f a b := by
  have hends := (mem_iff.mp a.head_mem).2
  have hends' := (mem_iff.mp b.head_mem).2
  cases op <;> cases hop
  case times => exact absurd rfl hne
  case plus =>
    simp only [leastResult, greatestResult] at hleast hgreatest
    -- the first operand takes as much of the sum as it can
    obtain ⟨m, hm, hfirst⟩ := exists_mem (i := a) (z := min a.tail.toInt (z - b.head.toInt))
      (by omega) (by omega)
    obtain ⟨n, hn, hsecond⟩ := exists_mem (i := b) (z := z - m.toInt) (by omega) (by omega)
    refine ⟨m, hm, n, hn, ?_⟩
    show m.toInt + n.toInt = z
    omega
  case minus =>
    simp only [leastResult, greatestResult] at hleast hgreatest
    obtain ⟨n, hn, hsecond⟩ := exists_mem (i := b) (z := min b.tail.toInt (a.tail.toInt - z))
      (by omega) (by omega)
    obtain ⟨m, hm, hfirst⟩ := exists_mem (i := a) (z := z + n.toInt) (by omega) (by omega)
    refine ⟨m, hm, n, hn, ?_⟩
    show m.toInt - n.toInt = z
    omega

/-- An interval that lacks a word lacks one of any `2 ^ 32` integers in a row, come around. -/
theorem exists_missed (hwidth : c.tail.toInt - c.head.toInt < 2 ^ 32 - 1) (p : Int) :
    ∃ z, p ≤ z ∧ z < p + 2 ^ 32 ∧ Int32.ofInt z ∉ c := by
  obtain ⟨m, hword, hoff⟩ : ∃ m, IsWord m ∧ (m < c.head.toInt ∨ c.tail.toInt < m) := by
    have hleast := c.head.le_toInt
    have hgreatest := c.tail.toInt_lt
    have hends := (mem_iff.mp c.head_mem).2
    by_cases hlast : c.tail.toInt = 2 ^ 31 - 1
    · exact ⟨c.head.toInt - 1, ⟨by omega, by omega⟩, .inl (by omega)⟩
    · exact ⟨c.tail.toInt + 1, ⟨by omega, by omega⟩, .inr (by omega)⟩
  have hvalue : (Int32.ofInt (p + (m - p) % 2 ^ 32)).toInt = m := by
    obtain ⟨hleast, hgreatest⟩ := hword
    rw [toInt_ofInt_eq]
    unfold turn
    omega
  refine ⟨p + (m - p) % 2 ^ 32, by omega, by omega, fun hmem => ?_⟩
  rw [mem_iff, hvalue] at hmem
  omega

/-- The least and the greatest sum are of one turn if they are in order after they have come around,
and there are no more sums than words. -/
theorem turn_eq_of_arithmetic (hop : op.onIntegers? = some f) (hne : op ≠ .times)
    (h : a.arithmetic op b = .ok c) (hlength : a.length + b.length ≤ 2 ^ 32 + 1) :
    turn (leastResult op a b) = turn (greatestResult op a b) := by
  have hwidth := width_results hop hne a b
  rw [arithmetic_eq_ofEnds hop (.inl hne)] at h
  obtain ⟨hhead, htail⟩ := ofEnds_eq_ok_iff.mp h
  have hends := (mem_iff.mp c.head_mem).2
  rw [hhead, htail, toInt_ofInt_eq, toInt_ofInt_eq] at hends
  have hturn := turn_mono (leastResult_le hop a b)
  omega

/-- **A sum or a difference of intervals covers** all results if there are no more than words. -/
theorem covers_iff_length (hop : op.onIntegers? = some f) (hne : op ≠ .times)
    (h : a.arithmetic op b = .ok c) :
    c.Covers op a b ↔ a.length + b.length ≤ 2 ^ 32 + 1 := by
  constructor
  · intro hcovers
    have hwidth := width_results hop hne a b
    have hlength := a.length_le
    have hlength' := b.length_le
    rw [arithmetic_eq_ofEnds hop (.inl hne)] at h
    obtain ⟨hhead, htail⟩ := ofEnds_eq_ok_iff.mp h
    by_contra hmany
    -- the results are too many for one turn, so the ends of the answer are closer together
    have hnarrow : c.tail.toInt - c.head.toInt < 2 ^ 32 - 1 := by
      rw [hhead, htail, toInt_ofInt_eq, toInt_ofInt_eq]
      unfold turn
      omega
    obtain ⟨z, hleast, hgreatest, hmissed⟩ := exists_missed hnarrow (leastResult op a b)
    exact hmissed ((covers_iff hop).mp hcovers z
      (mem_results_of_between hop hne hleast (by omega)))
  · intro hlength
    obtain ⟨c', hc', hcovers⟩ := exists_covers hop (turn_eq_of_arithmetic hop hne h hlength)
    obtain rfl := Except.ok.inj (h.symm.trans hc')
    exact hcovers

/-! ## Products -/

/-- The least and the greatest of four words enclose all of them. -/
theorem exists_enclosing (p q r s : Int32) :
    ∃ c, ofEnds (min (min (min p q) r) s) (max (max (max p q) r) s) = .ok c ∧
      p ∈ c ∧ q ∈ c ∧ r ∈ c ∧ s ∈ c := by
  have horder : min (min (min p q) r) s ≤ max (max (max p q) r) s := by
    rw [Int32.le_iff_toInt_le]
    simp only [toInt_min, toInt_max]
    omega
  refine ⟨⟨_, _, horder⟩, ofEnds_eq_ok_iff.mpr ⟨rfl, rfl⟩, ?_⟩
  simp only [mem_iff, toInt_min, toInt_max]
  omega

/-- **What arithmetic covers.** Results of one turn are covered. A sum or a difference covers all
results if and only if there are no more of them than words, and then it is refused if they are not
of one turn. A product is never refused and has the products of the ends, which need not enclose the
others once these are not of one turn. -/
theorem arithmetic_covers (hop : op.onIntegers? = some f) (a b : Interval) :
    ((∀ z ∈ results f a b, ∀ w ∈ results f a b, turn z = turn w) →
      ∃ c, a.arithmetic op b = .ok c ∧ c.Covers op a b) ∧
    (op ≠ .times →
      (∀ c, a.arithmetic op b = .ok c →
        (c.Covers op a b ↔ a.length + b.length ≤ 2 ^ 32 + 1)) ∧
      ((∃ z ∈ results f a b, ∃ w ∈ results f a b, turn z ≠ turn w) →
        a.length + b.length ≤ 2 ^ 32 + 1 →
        ∃ head tail, a.arithmetic op b = .error (.invalidInterval head tail))) ∧
    (op = .times → ∃ c, a.arithmetic op b = .ok c ∧
      ∀ x ∈ [a.head, a.tail], ∀ y ∈ [b.head, b.tail], x * y ∈ c) := by
  refine ⟨fun hturns => ?_, fun hne => ⟨fun c hc => covers_iff_length hop hne hc, ?_⟩, ?_⟩
  · exact exists_covers hop (hturns _ (isLeast_leastResult hop a b).1 _
      (isGreatest_greatestResult hop a b).1)
  · rintro ⟨z, hz, w, hw, hturns⟩ hlength
    cases hc : a.arithmetic op b with
    | ok c =>
      have hturn := turn_eq_of_arithmetic hop hne hc hlength
      exact absurd ((turn_of_mem_results hop hturn hz).trans
        (turn_of_mem_results hop hturn hw).symm) hturns
    | error fault =>
      rw [arithmetic_eq_ofEnds hop (.inl hne)] at hc
      exact ⟨_, _, congrArg Except.error (fault_of_ofEnds hc)⟩
  · rintro rfl
    obtain ⟨c, hc, hcorners⟩ := exists_enclosing (a.head * b.head) (a.head * b.tail)
      (a.tail * b.head) (a.tail * b.tail)
    exact ⟨c, hc, by simpa [and_assoc] using hcorners⟩

/-- Sums that have all come around are covered, and those of which only some have are refused. The
differences of all words from two are more than there are words, and a product of ends that comes
around is still in the answer. -/
theorem arithmetic_covers_around :
    let high : Interval := ⟨2147483640, Int32.maxValue, by decide⟩
    let far : Interval := ⟨10, 12, by decide⟩
    let near : Interval := ⟨0, 1, by decide⟩
    let all : Interval := ⟨Int32.minValue, Int32.maxValue, by decide⟩
    BinaryOp.onIntegers? .plus = some (· + ·) ∧
      (∃ c, high.arithmetic .plus far = .ok c ∧ c.Covers .plus high far) ∧
      (∃ head tail, high.arithmetic .plus near = .error (.invalidInterval head tail)) ∧
      (∀ c, all.arithmetic .minus near = .ok c → ¬c.Covers .minus all near) ∧
      ∃ c, high.arithmetic .times far = .ok c ∧ Int32.maxValue * 12 ∈ c := by
  intro high far near all
  have hleast : high.head.toInt = 2147483640 := by decide
  have hgreatest : high.tail.toInt = 2147483647 := by decide
  have hplus : BinaryOp.onIntegers? .plus = some (· + ·) := rfl
  have hminus : BinaryOp.onIntegers? .minus = some (· - ·) := rfl
  have htimes : BinaryOp.onIntegers? .times = some (· * ·) := rfl
  obtain ⟨hsums, -⟩ := arithmetic_covers hplus high far
  obtain ⟨-, hmixed, -⟩ := arithmetic_covers hplus high near
  obtain ⟨-, hmany, -⟩ := arithmetic_covers hminus all near
  obtain ⟨-, -, hproducts⟩ := arithmetic_covers htimes high far
  obtain ⟨c, hc, hcorners⟩ := hproducts rfl
  have hturns : ∀ z ∈ results (· + ·) high far, turn z = 1 := by
    rintro _ ⟨m, hm, n, hn, rfl⟩
    have hm' := mem_iff.mp hm
    have hn' := mem_iff.mp hn
    have hfar : far.head.toInt = 10 := by decide
    have hfar' : far.tail.toInt = 12 := by decide
    show turn (m.toInt + n.toInt) = 1
    unfold turn
    omega
  refine ⟨hplus, hsums fun z hz w hw => (hturns z hz).trans (hturns w hw).symm, ?_,
    fun c hc hcovers => ?_, c, hc, hcorners high.tail (by simp) far.tail (by simp)⟩
  · refine (hmixed nofun).2 ⟨_, mem_results _ high.head_mem near.head_mem, _,
      mem_results _ high.tail_mem near.tail_mem, by decide⟩ (by decide)
  · exact absurd (((hmany nofun).1 c hc).mp hcovers) (by decide)

/-- A sum and a product that are not refused. Each has a single member, and misses the result of two
members that does not even come around. -/
theorem arithmetic_misses :
    let all : Interval := ⟨Int32.minValue, Int32.maxValue, by decide⟩
    let below : Interval := ⟨-1, 0, by decide⟩
    let side : Interval := ⟨0, 65536, by decide⟩
    let greatest : Interval := ⟨Int32.maxValue, Int32.maxValue, by decide⟩
    let zero : Interval := ⟨0, 0, by decide⟩
    (all.arithmetic .plus below = .ok greatest ∧ (0 : Int32) ∈ all ∧ (0 : Int32) ∈ below ∧
      Element.binaryInteger .plus 0 0 = .ok (.integer 0) ∧ (0 : Int32) ∉ greatest ∧
      ¬greatest.Covers .plus all below) ∧
    side.arithmetic .times side = .ok zero ∧ (1 : Int32) ∈ side ∧
      Element.binaryInteger .times 1 1 = .ok (.integer 1) ∧ (1 : Int32) ∉ zero ∧
      ¬zero.Covers .times side side := by
  intro all below side greatest zero
  have missed {op : BinaryOp} {a b c : Interval} {m n : Int32} (hm : m ∈ a) (hn : n ∈ b)
      (hresult : Element.binaryInteger op m n = .ok (.integer m)) (hoff : m ∉ c) :
      ¬c.Covers op a b := by
    intro hcovers
    obtain ⟨r, hr, hresult'⟩ := hcovers m hm n hn
    obtain rfl := Element.integer.inj (Except.ok.inj (hresult.symm.trans hresult'))
    exact hoff hr
  have hall : (0 : Int32) ∈ all := by decide
  have hbelow : (0 : Int32) ∈ below := by decide
  have hside : (1 : Int32) ∈ side := by decide
  have hgreatest : (0 : Int32) ∉ greatest := by decide
  have hzero : (1 : Int32) ∉ zero := by decide
  have hsum : all.arithmetic .plus below = .ok greatest :=
    ofEnds_eq_ok_iff.mpr ⟨by decide, by decide⟩
  have hproduct : side.arithmetic .times side = .ok zero := by
    show product side side = .ok zero
    exact ofEnds_eq_ok_iff.mpr ⟨by decide, by decide⟩
  have hzeros : Element.binaryInteger .plus 0 0 = .ok (.integer 0) := rfl
  have hones : Element.binaryInteger .times 1 1 = .ok (.integer 1) := rfl
  exact ⟨⟨hsum, hall, hbelow, hzeros, hgreatest, missed hall hbelow hzeros hgreatest⟩,
    hproduct, hside, hones, hzero, missed hside hside hones hzero⟩

end Interval

end ArrayMachine
