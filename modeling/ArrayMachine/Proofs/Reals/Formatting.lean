import ArrayMachine.Proofs.Reader.RealLiterals
import ArrayMachine.Proofs.Reader.Printed
import ArrayMachine.Proofs.Reals.Rounding
import Mathlib.Data.List.DropRight
import Mathlib.Data.List.Induction

/-!
# Formatting twice

A real is formatted with an exponent, to find the exponent, and then once more: with as many
decimals as six digits leave at that exponent, or with the exponent. `format` does so step by step.
Each of the two formats rounds the exact value (`fixed`, `scientific`), so the second one might
find other digits. It does not (`roundDiv_sixDigits`), and what is printed is one rounding and its
layout.

* `SixDigits.text_eq`: the two layouts of six digits, by the place of the point.
* `trimFraction_pointed`: zeros at the end and a point without a fraction are taken off.
* `format_eq_text`: formatting twice gives the text that is printed.
-/

namespace ArrayMachine

open RealLiteral (Digits)

/-! ## Places behind the point -/

namespace Decimal

variable {decimals n : ℕ} {d : UInt8}

/-- The digits of a number, and zeros in front where there are too few to put a point before the
last `decimals` of them. -/
def spread (decimals n : ℕ) : List UInt8 :=
  List.replicate (decimals + 1 - (digits n).length) Ascii.zero ++ digits n

/-- The digits before the point. -/
def whole (decimals n : ℕ) : List UInt8 :=
  (spread decimals n).take ((spread decimals n).length - decimals)

/-- The digits behind the point. -/
def fraction (decimals n : ℕ) : List UInt8 :=
  (spread decimals n).drop ((spread decimals n).length - decimals)

theorem whole_append_fraction (decimals n : ℕ) :
    whole decimals n ++ fraction decimals n = spread decimals n :=
  List.take_append_drop _ _

theorem lt_length_spread (decimals n : ℕ) : decimals < (spread decimals n).length := by
  rw [spread, List.length_append, List.length_replicate]
  omega

theorem length_fraction (decimals n : ℕ) : (fraction decimals n).length = decimals := by
  have := lt_length_spread decimals n
  rw [fraction, List.length_drop]
  omega

theorem length_whole (decimals n : ℕ) :
    (whole decimals n).length = (spread decimals n).length - decimals := by
  rw [whole, List.length_take]
  omega

theorem whole_ne_nil (decimals n : ℕ) : whole decimals n ≠ [] := by
  have := lt_length_spread decimals n
  rw [← List.length_pos_iff, length_whole]
  omega

theorem digits_spread (decimals n : ℕ) : Digits (spread decimals n) := by
  intro d hd
  rcases List.mem_append.mp hd with hd | hd
  · rw [(List.mem_replicate.mp hd).2]
    rfl
  · exact isDigit_of_mem_digits hd

theorem digits_whole (decimals n : ℕ) : Digits (whole decimals n) :=
  fun d hd => digits_spread decimals n d (List.mem_of_mem_take hd)

theorem digits_fraction (decimals n : ℕ) : Digits (fraction decimals n) :=
  fun d hd => digits_spread decimals n d (List.mem_of_mem_drop hd)

theorem ofDigits_replicate_zero_append (k : ℕ) (ds : List UInt8) :
    ofDigits (List.replicate k Ascii.zero ++ ds) = ofDigits ds := by
  induction k with
  | zero => rfl
  | succ k ih => exact ih

/-- Zeros in front do not count. -/
theorem ofDigits_spread (decimals n : ℕ) : ofDigits (spread decimals n) = n := by
  rw [spread, ofDigits_replicate_zero_append, ofDigits_digits]

end Decimal

namespace Single

variable {x : Single} {quanta decimals n : ℕ} {six : SixDigits} {front ds : List UInt8} {b : UInt8}

/-! ## The formats -/

/-- A text with a minus in front of it if it is that of a negative number. -/
def withSign (negative : Bool) (text : List UInt8) : List UInt8 :=
  if negative then Ascii.minus :: text else text

/-- A number with a point before the last `decimals` of its digits. -/
def pointed (decimals n : ℕ) : List UInt8 :=
  if decimals = 0 then Decimal.whole decimals n
  else Decimal.whole decimals n ++ Ascii.point :: Decimal.fraction decimals n

/-- The exact value rounded to a number of decimals. -/
def fixed (decimals : ℕ) (x : Single) : List UInt8 :=
  withSign x.negative
    (pointed decimals (roundDiv (x.quanta * Decimal.place decimals) quantaPerUnit))

/-- The exact value rounded to six digits, one of them before the point, and the exponent. -/
def scientific (x : Single) : List UInt8 :=
  let six := sixDigits x.quanta
  withSign x.negative
    (pointed 5 six.digits ++ Ascii.lowerE :: integerText (Int32.ofInt six.exponent))

/-- What is before and behind the first mark. -/
def splitOnce (mark : UInt8) (text : List UInt8) : Option (List UInt8 × List UInt8) :=
  match text.dropWhile (· ≠ mark) with
  | [] => none
  | _ :: rest => some (text.takeWhile (· ≠ mark), rest)

/-- In a text with a point, the zeros at its end and then the point are taken off. -/
def trimFraction (text : List UInt8) : List UInt8 :=
  if Ascii.point ∈ text then (trimZeros text).rdropWhile (· = Ascii.point) else text

/-- A real in six significant digits: positional where the exponent allows it. -/
def format (x : Single) : List UInt8 :=
  if x.isNaN then Ascii.bytes ['n', 'a', 'n']
  else if x.isInfinite then withSign x.negative (Ascii.bytes ['i', 'n', 'f'])
  else if x.isZero then withSign x.negative [Ascii.zero]
  else
    let (mantissa, exponent) :=
      (splitOnce Ascii.lowerE x.scientific).getD (x.scientific, [Ascii.zero])
    let exponent := ((Token.integer? exponent).getD 0).toInt
    if -4 ≤ exponent ∧ exponent < 6 then trimFraction (x.fixed (5 - exponent).toNat)
    else trimFraction mantissa ++ exponentText exponent

/-! ## Trimming -/

theorem withSign_append (negative : Bool) (text rest : List UInt8) :
    withSign negative (text ++ rest) = withSign negative text ++ rest := by
  cases negative <;> rfl

/-- A sign is a minus only. -/
theorem mem_withSign {negative : Bool} {text : List UInt8} (hb : b ≠ Ascii.minus) :
    b ∈ withSign negative text ↔ b ∈ text := by
  cases negative with
  | false => exact Iff.rfl
  | true => simp [withSign, hb]

theorem withSign_withFraction (negative : Bool) (whole fraction : List UInt8) :
    withSign negative (withFraction whole fraction) =
      withFraction (withSign negative whole) fraction := by
  unfold withFraction
  split
  · rfl
  · exact withSign_append _ _ _

theorem trimZeros_eq (ds : List UInt8) : trimZeros ds = ds.rdropWhile (· = Ascii.zero) := rfl

/-- Nothing is taken off beyond a byte that is kept. -/
theorem rdropWhile_append_cons {p : UInt8 → Bool} (hb : p b = false) (front ds : List UInt8) :
    (front ++ b :: ds).rdropWhile p = front ++ b :: ds.rdropWhile p := by
  induction ds using List.reverseRecOn with
  | nil => rw [List.rdropWhile_concat_neg _ _ _ (by simp [hb]), List.rdropWhile_nil]
  | append_singleton ds d ih =>
    rw [← List.cons_append, ← List.append_assoc]
    by_cases hd : p d = true
    · rw [List.rdropWhile_concat_pos _ _ _ hd, List.rdropWhile_concat_pos _ _ _ hd, ih]
    · rw [List.rdropWhile_concat_neg _ _ _ hd, List.rdropWhile_concat_neg _ _ _ hd]
      simp

/-- A byte that a text does not have is not taken off its end. -/
theorem rdropWhile_of_notMem (h : b ∉ front) : front.rdropWhile (· = b) = front := by
  rw [List.rdropWhile_eq_self_iff]
  intro hne
  have hmem := List.getLast_mem hne
  simpa using fun heq : front.getLast hne = b => h (heq ▸ hmem)

theorem notMem_of_digits (hb : Decimal.isDigit b = false) (hds : Digits ds) : b ∉ ds := by
  intro h
  rw [hds b h] at hb
  cases hb

/-- **Trimming a fraction**: the zeros at its end, and the point if no fraction is left. -/
theorem trimFraction_append (hfront : Ascii.point ∉ front) (hds : Digits ds) :
    trimFraction (front ++ Ascii.point :: ds) = withFraction front ds := by
  have hmem : Ascii.point ∈ front ++ Ascii.point :: ds := by simp
  have hzero : decide (Ascii.point = Ascii.zero) = false := rfl
  have hkept : Ascii.point ∉ trimZeros ds := fun h =>
    notMem_of_digits rfl hds ((List.rdropWhile_prefix _ ds).subset h)
  rw [trimFraction, if_pos hmem, trimZeros_eq, rdropWhile_append_cons hzero, ← trimZeros_eq,
    withFraction]
  split
  · rename_i hnone
    rw [hnone, List.rdropWhile_concat_pos _ _ _ (by simp), rdropWhile_of_notMem hfront]
  · rename_i hne
    obtain ⟨kept, last, hlast⟩ := List.eq_nil_or_concat (trimZeros ds) |>.resolve_left hne
    rw [List.concat_eq_append] at hlast
    have hpoint : last ≠ Ascii.point := by
      rintro rfl
      exact hkept (by simp [hlast])
    rw [hlast, ← List.cons_append, ← List.append_assoc,
      List.rdropWhile_concat_neg _ _ _ (by simpa using hpoint)]

theorem withFraction_nil (ds : List UInt8) : withFraction ds [] = ds := rfl

/-- A number of decimals is trimmed as its fraction is; without decimals there is no point. -/
theorem trimFraction_pointed (negative : Bool) (decimals n : ℕ) :
    trimFraction (withSign negative (pointed decimals n)) =
      withSign negative
        (withFraction (Decimal.whole decimals n) (Decimal.fraction decimals n)) := by
  have hfront : Ascii.point ∉ withSign negative (Decimal.whole decimals n) := by
    rw [mem_withSign (by decide)]
    exact notMem_of_digits rfl (Decimal.digits_whole decimals n)
  unfold pointed
  split
  · rename_i hdecimals
    have hnone : Decimal.fraction decimals n = [] :=
      List.eq_nil_of_length_eq_zero ((Decimal.length_fraction decimals n).trans hdecimals)
    rw [trimFraction, if_neg hfront, hnone, withFraction_nil]
  · rw [withSign_append, trimFraction_append hfront (Decimal.digits_fraction decimals n),
      withSign_withFraction]

/-! ## The two layouts -/

/-- Six digits are six. -/
theorem SixDigits.IsNormal.length_digits (h : six.IsNormal) :
    (Decimal.digits six.digits).length = 6 := by
  have hlow := Decimal.place_length_digits_le (Nat.lt_of_lt_of_le (by norm_num) h.1)
  have hhigh := Decimal.lt_place_length_digits six.digits
  have hshort : Decimal.place (Decimal.digits six.digits).length < Decimal.place 7 := by
    have hseven : Decimal.place 7 = 10000000 := rfl
    have := h.2
    omega
  have hlong : Decimal.place 5 < Decimal.place (Decimal.digits six.digits).length :=
    Nat.lt_of_le_of_lt h.1 hhigh
  have hten : 1 < 10 := by norm_num
  have := (Nat.pow_lt_pow_iff_right hten).mp hshort
  have := (Nat.pow_lt_pow_iff_right hten).mp hlong
  omega

/-- Six digits have a point among them without zeros in front. -/
theorem SixDigits.IsNormal.spread_eq (h : six.IsNormal) (hdecimals : decimals ≤ 5) :
    Decimal.spread decimals six.digits = Decimal.digits six.digits := by
  have hnone : decimals + 1 - (Decimal.digits six.digits).length = 0 := by
    rw [h.length_digits]
    omega
  rw [Decimal.spread, hnone, List.replicate_zero, List.nil_append]

theorem SixDigits.IsNormal.whole_eq (h : six.IsNormal) (hdecimals : decimals ≤ 5) :
    Decimal.whole decimals six.digits = (Decimal.digits six.digits).take (6 - decimals) := by
  rw [Decimal.whole, h.spread_eq hdecimals, h.length_digits]

theorem SixDigits.IsNormal.fraction_eq (h : six.IsNormal) (hdecimals : decimals ≤ 5) :
    Decimal.fraction decimals six.digits = (Decimal.digits six.digits).drop (6 - decimals) := by
  rw [Decimal.fraction, h.spread_eq hdecimals, h.length_digits]

/-- Before six digits with more decimals there is a zero and the point. -/
theorem SixDigits.IsNormal.spread_zeros (h : six.IsNormal) (k : ℕ) :
    Decimal.whole (6 + k) six.digits = [Ascii.zero] ∧
      Decimal.fraction (6 + k) six.digits =
        List.replicate k Ascii.zero ++ Decimal.digits six.digits := by
  have hspread : Decimal.spread (6 + k) six.digits =
      Ascii.zero :: (List.replicate k Ascii.zero ++ Decimal.digits six.digits) := by
    have hzeros : 6 + k + 1 - 6 = k + 1 := by omega
    rw [Decimal.spread, h.length_digits, hzeros, List.replicate_succ, List.cons_append]
  have hfront : (Decimal.spread (6 + k) six.digits).length - (6 + k) = 1 := by
    rw [hspread, List.length_cons, List.length_append, List.length_replicate, h.length_digits]
    omega
  rw [Decimal.whole, Decimal.fraction, hfront, hspread]
  exact ⟨rfl, rfl⟩

/-- **The layout of six digits**: with as many decimals as it takes to put the point where the
exponent says, or with one digit before the point and the exponent behind. -/
theorem SixDigits.IsNormal.text_eq (h : six.IsNormal) :
    six.text =
      if -4 ≤ six.exponent ∧ six.exponent < 6 then
        withFraction (Decimal.whole (5 - six.exponent).toNat six.digits)
          (Decimal.fraction (5 - six.exponent).toNat six.digits)
      else
        withFraction (Decimal.whole 5 six.digits) (Decimal.fraction 5 six.digits) ++
          exponentText six.exponent := by
  unfold SixDigits.text
  dsimp only
  by_cases hpositive : 0 ≤ six.exponent ∧ six.exponent < 6
  · have hpositional : -4 ≤ six.exponent ∧ six.exponent < 6 := by omega
    have hdecimals : (5 - six.exponent).toNat ≤ 5 := by omega
    have hpoint : 6 - (5 - six.exponent).toNat = six.exponent.toNat + 1 := by omega
    rw [if_pos hpositive, if_pos hpositional, h.whole_eq hdecimals, h.fraction_eq hdecimals, hpoint]
  · rw [if_neg hpositive]
    by_cases hnegative : -4 ≤ six.exponent ∧ six.exponent < 0
    · have hpositional : -4 ≤ six.exponent ∧ six.exponent < 6 := by omega
      have hdecimals : (5 - six.exponent).toNat = 6 + (-six.exponent - 1).toNat := by omega
      obtain ⟨hwhole, hfraction⟩ := h.spread_zeros (-six.exponent - 1).toNat
      rw [if_pos hnegative, if_pos hpositional, hdecimals, hwhole, hfraction]
    · have hmarked : ¬ (-4 ≤ six.exponent ∧ six.exponent < 6) := by omega
      rw [if_neg hnegative, if_neg hmarked, h.whole_eq le_rfl, h.fraction_eq le_rfl]

/-! ## Both formats -/

theorem splitOnce_append {mark : UInt8} {rest : List UInt8} (hfront : mark ∉ front) :
    splitOnce mark (front ++ mark :: rest) = some (front, rest) := by
  have hkeep : ∀ b ∈ front, decide (b ≠ mark) = true := fun b hb =>
    decide_eq_true fun heq => hfront (heq ▸ hb)
  have hstop : ∀ b, (mark :: rest).head? = some b → decide (b ≠ mark) = false := by
    rintro b ⟨⟩
    simp
  rw [splitOnce, Reader.dropWhile_run hkeep hstop, Reader.takeWhile_run hkeep hstop]

theorem lowerE_notMem_pointed (decimals n : ℕ) : Ascii.lowerE ∉ pointed decimals n := by
  unfold pointed
  split
  · exact notMem_of_digits rfl (Decimal.digits_whole decimals n)
  · rw [List.mem_append, List.mem_cons]
    rintro (h | h | h)
    · exact notMem_of_digits rfl (Decimal.digits_whole decimals n) h
    · cases h
    · exact notMem_of_digits rfl (Decimal.digits_fraction decimals n) h

/-- The exponent is found in the text of the first format. -/
theorem splitOnce_scientific (x : Single) :
    splitOnce Ascii.lowerE x.scientific =
      some (withSign x.negative (pointed 5 (sixDigits x.quanta).digits),
        integerText (Int32.ofInt (sixDigits x.quanta).exponent)) := by
  unfold scientific
  rw [withSign_append]
  refine splitOnce_append ?_
  rw [mem_withSign (by decide)]
  exact lowerE_notMem_pointed _ _

theorem isFinite_of_not (hnan : ¬ x.isNaN = true) (hinfinite : ¬ x.isInfinite = true) :
    x.isFinite = true := by
  have hle : ¬ infiniteMagnitude < x.magnitude := fun h => hnan (decide_eq_true h)
  have hne : ¬ x.magnitude = infiniteMagnitude := fun h => hinfinite (decide_eq_true h)
  exact decide_eq_true (lt_of_le_of_ne (not_lt.mp hle) hne)

/-- **Formatting twice** gives one rounding to six digits, laid out by its exponent. -/
theorem format_eq_text (x : Single) : x.format = x.text := by
  have htext : x.text = if x.isNaN then Ascii.bytes ['n', 'a', 'n']
      else withSign x.negative x.sizeText := rfl
  rw [htext, format, sizeText]
  by_cases hnan : x.isNaN = true
  · rw [if_pos hnan, if_pos hnan]
  rw [if_neg hnan, if_neg hnan]
  by_cases hinfinite : x.isInfinite = true
  · rw [if_pos hinfinite, if_pos hinfinite]
  rw [if_neg hinfinite, if_neg hinfinite]
  by_cases hzero : x.isZero = true
  · rw [if_pos hzero, if_pos hzero]
  rw [if_neg hzero, if_neg hzero, splitOnce_scientific]
  have hfinite : x.isFinite = true := isFinite_of_not hnan hinfinite
  have hzero : x.isZero = false := Bool.eq_false_iff.mpr hzero
  have hnormal := (isNearest_sixDigits (quanta_pos hzero)).normal
  obtain ⟨hlow, hhigh⟩ := exponent_bounds hfinite hzero
  have hword : (Int32.ofInt (sixDigits x.quanta).exponent).toInt = (sixDigits x.quanta).exponent :=
    Int32.toInt_ofInt_of_le (by omega) (by omega)
  dsimp only [Option.getD_some]
  -- The exponent that is parsed is that of the rounded number, and the second format rounds again.
  rw [Token.integer?_integerText, Option.getD_some, hword, hnormal.text_eq]
  by_cases hpositional : -4 ≤ (sixDigits x.quanta).exponent ∧ (sixDigits x.quanta).exponent < 6
  · rw [if_pos hpositional, if_pos hpositional, fixed, roundDiv_sixDigits (by omega),
      trimFraction_pointed]
  · rw [if_neg hpositional, if_neg hpositional, trimFraction_pointed, withSign_append]

end Single

end ArrayMachine
