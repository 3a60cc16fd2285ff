import ArrayMachine.Proofs.Reals.Formatting

/-!
# The texts of reals

A finite real is printed as the six significant digits that its exact value rounds to, and what is
printed is read as exactly these digits: zeros at the end of a fraction count nothing, nor do zeros
in front. The text is a token, and has the form that the decimal exponent asks for.

* `RealLiteral.read?_layout`: a text of digits, fraction and exponent is taken apart into them.
* `RealLiteral.number_trimmed`: zeros at the end of a fraction count nothing.
* `Single.SixDigits.IsNormal.laidOut_text`: the form of a text.
* `Single.text_of_finite`: what is printed is six digits of the exact value, and is read as these.
-/

namespace ArrayMachine

open RealLiteral (Digits NoDigit)

/-! ## Reading a layout -/

namespace RealLiteral

variable {whole fraction power : List UInt8} {exponent : ℤ}

/-- The number that is written. -/
def number (literal : RealLiteral) : ℚ :=
  let size := Decimal.ofDigits (literal.whole ++ literal.fraction) *
    (10 : ℚ) ^ (literal.exponent - literal.fraction.length)
  if literal.negative then -size else size

theorem splitSign_withSign {rest : List UInt8} (negative : Bool) (hrest : NoSign rest) :
    splitSign (Single.withSign negative rest) = (negative, rest) := by
  cases negative with
  | true => rfl
  | false =>
    cases rest with
    | nil => rfl
    | cons b rest =>
      obtain ⟨hminus, hplus⟩ := hrest b rfl
      show splitSign (b :: rest) = _
      rw [splitSign, if_neg hminus, if_neg hplus]

/-- **A text of a sign, digits, a trimmed fraction and an exponent** is taken apart into them. -/
theorem read?_layout (negative : Bool) (hne : whole ≠ []) (hwhole : Digits whole)
    (hfraction : Digits fraction) (hpower : readExponent? power = some exponent)
    (hend : NoDigit power) (hpoint : power.head? ≠ some Ascii.point) :
    read? (Single.withSign negative (Single.withFraction whole fraction ++ power)) =
      some ⟨negative, whole, Single.trimZeros fraction, exponent⟩ := by
  have hkept : Digits (Single.trimZeros fraction) := fun d hd =>
    hfraction d ((List.rdropWhile_prefix _ fraction).subset hd)
  have htaken {rest : List UInt8} (hrest : NoDigit rest)
      (hsplit : splitFraction rest = (Single.trimZeros fraction, power)) :
      read? (Single.withSign negative (whole ++ rest)) =
        some ⟨negative, whole, Single.trimZeros fraction, exponent⟩ := by
    rw [read?, splitSign_withSign negative (noSign_of_digits hne hwhole rest)]
    dsimp only
    rw [List.span_eq_takeWhile_dropWhile, Reader.takeWhile_run hwhole hrest,
      Reader.dropWhile_run hwhole hrest, hsplit, hpower]
    simp [hne]
  unfold Single.withFraction
  split
  · rename_i hnone
    refine htaken hend ?_
    rw [splitFraction_of_head hpoint, hnone]
  · rw [List.append_assoc]
    refine htaken ?_ (splitFraction_point hkept hend)
    rintro b ⟨⟩
    rfl

theorem ofDigits_append_zeros (ds : List UInt8) (k : ℕ) :
    Decimal.ofDigits (ds ++ List.replicate k Ascii.zero) = Decimal.ofDigits ds * 10 ^ k := by
  induction k with
  | zero => simp
  | succ k ih =>
    have hzero : Decimal.digitValue Ascii.zero = 0 := rfl
    rw [List.replicate_succ', ← List.append_assoc, Decimal.ofDigits_append_singleton, ih, hzero]
    ring

/-- What is trimmed are zeros. -/
theorem exists_trimZeros_append (ds : List UInt8) :
    ∃ k, ds = Single.trimZeros ds ++ List.replicate k Ascii.zero := by
  have hzeros : ∀ d ∈ ds.rtakeWhile (· = Ascii.zero), d = Ascii.zero := fun d hd => by
    simpa using List.mem_rtakeWhile_imp hd
  refine ⟨(ds.rtakeWhile (· = Ascii.zero)).length, ?_⟩
  rw [← List.eq_replicate_of_mem hzeros]
  exact List.rdropWhile_append_rtakeWhile.symm

/-- **Zeros at the end of a fraction** count nothing. -/
theorem number_trimmed (negative : Bool) (whole fraction : List UInt8) (exponent : ℤ) :
    number ⟨negative, whole, Single.trimZeros fraction, exponent⟩ =
      number ⟨negative, whole, fraction, exponent⟩ := by
  obtain ⟨k, hk⟩ := exists_trimZeros_append fraction
  have hdigits : Decimal.ofDigits (whole ++ fraction) =
      Decimal.ofDigits (whole ++ Single.trimZeros fraction) * 10 ^ k := by
    rw [← ofDigits_append_zeros, List.append_assoc, ← hk]
  have hlength : (fraction.length : ℤ) = (Single.trimZeros fraction).length + k := by
    have := congrArg List.length hk
    rw [List.length_append, List.length_replicate] at this
    exact_mod_cast this
  have hplaces : (10 : ℚ) ^ (exponent - (Single.trimZeros fraction).length) =
      10 ^ k * (10 : ℚ) ^ (exponent - fraction.length) := by
    rw [← zpow_natCast, ← zpow_add₀ ten_ne_zero, hlength]
    ring_nf
  unfold number
  dsimp only
  rw [hdigits, hplaces]
  push_cast
  rw [mul_assoc]

/-- A printed exponent is read. -/
theorem readExponent?_exponentText (exponent : ℤ) :
    readExponent? (Single.exponentText exponent) = some exponent := by
  have htext : Single.exponentText exponent = Ascii.lowerE ::
      (if exponent < 0 then Ascii.minus else Ascii.plus) :: Decimal.spread 1 exponent.natAbs := rfl
  have hsplit : splitSign ((if exponent < 0 then Ascii.minus else Ascii.plus) ::
      Decimal.spread 1 exponent.natAbs) =
        (decide (exponent < 0), Decimal.spread 1 exponent.natAbs) := by
    by_cases hneg : exponent < 0
    · rw [if_pos hneg, decide_eq_true hneg]
      rfl
    · rw [if_neg hneg, decide_eq_false hneg]
      rfl
  have hdigits : (decide (Decimal.spread 1 exponent.natAbs ≠ []) &&
      (Decimal.spread 1 exponent.natAbs).all Decimal.isDigit) = true := by
    refine isNumber_iff.mpr ⟨List.ne_nil_of_length_pos ?_, Decimal.digits_spread _ _⟩
    exact Nat.lt_of_le_of_lt (Nat.zero_le 1) (Decimal.lt_length_spread _ _)
  rw [htext, readExponent?, hsplit]
  dsimp only
  rw [if_pos (by rfl), if_pos hdigits, Decimal.ofDigits_spread]
  by_cases hneg : exponent < 0
  · rw [decide_eq_true hneg, if_pos rfl, Int.ofNat_natAbs_of_nonpos (le_of_lt hneg), neg_neg]
  · rw [decide_eq_false hneg, if_neg Bool.false_ne_true, Int.natAbs_of_nonneg (not_lt.mp hneg)]

end RealLiteral

/-! ## The form of a text -/

namespace Single

variable {x : Single} {six : SixDigits} {whole fraction : List UInt8} {exponent : ℤ}

/-- Digits before the point and behind it. No zero is at the end behind the point, and there is no
point with nothing behind it. -/
inductive Trimmed (whole : List UInt8) : List UInt8 → Prop where
  | whole : Trimmed whole whole
  | fraction {ds : List UInt8} {last : UInt8} : Digits ds → Decimal.isDigit last = true →
    last ≠ Ascii.zero → Trimmed whole (whole ++ Ascii.point :: (ds ++ [last]))

/-- A number with a decimal exponent is written positionally from -4 to 5, and otherwise with one
digit before the point, a mark and the exponent, which has a sign and two digits at least. -/
inductive LaidOut (exponent : ℤ) : List UInt8 → Prop where
  | positional {whole text : List UInt8} : -4 ≤ exponent → exponent < 6 → whole ≠ [] →
    Digits whole → Trimmed whole text → LaidOut exponent text
  | marked {digit : UInt8} {text ds : List UInt8} : exponent < -4 ∨ 6 ≤ exponent →
    Decimal.isDigit digit = true → Trimmed [digit] text → 2 ≤ ds.length → Digits ds →
    LaidOut exponent (text ++ Ascii.lowerE ::
      (if exponent < 0 then Ascii.minus else Ascii.plus) :: ds)

theorem trimmed_withFraction (whole : List UInt8) (hfraction : Digits fraction) :
    Trimmed whole (withFraction whole fraction) := by
  unfold withFraction
  split
  · exact .whole
  · rename_i hne
    obtain ⟨ds, last, hlast⟩ := List.eq_nil_or_concat (trimZeros fraction) |>.resolve_left hne
    rw [List.concat_eq_append] at hlast
    have hkept : Digits (ds ++ [last]) := fun d hd =>
      hfraction d ((List.rdropWhile_prefix _ fraction).subset (hlast ▸ hd))
    have hzero : last ≠ Ascii.zero := by
      have hnot := List.rdropWhile_last_not (· = Ascii.zero) fraction hne
      simpa [← trimZeros_eq, hlast] using hnot
    rw [hlast]
    exact .fraction (fun d hd => hkept d (List.mem_append_left _ hd)) (hkept last (by simp)) hzero

theorem Trimmed.lowerE_notMem {text : List UInt8} (h : Trimmed whole text) (hwhole : Digits whole) :
    Ascii.lowerE ∉ text := by
  cases h with
  | whole => exact notMem_of_digits rfl hwhole
  | fraction hds hlast _ =>
    simp only [List.mem_append, List.mem_cons, List.not_mem_nil, or_false]
    rintro (h | h | h | h)
    · exact notMem_of_digits rfl hwhole h
    · cases h
    · exact notMem_of_digits rfl hds h
    · rw [← h] at hlast
      cases hlast

/-- The mark is in the text of a number exactly if it is not positional. -/
theorem LaidOut.lowerE_notMem_iff {text : List UInt8} (h : LaidOut exponent text) :
    Ascii.lowerE ∉ text ↔ -4 ≤ exponent ∧ exponent < 6 := by
  cases h with
  | positional hlow hhigh _ hwhole htext =>
    exact iff_of_true (htext.lowerE_notMem hwhole) ⟨hlow, hhigh⟩
  | marked hout _ _ _ _ =>
    refine iff_of_false (fun h => h (by simp)) ?_
    omega

/-- **The form of six digits** is that of their exponent. -/
theorem SixDigits.IsNormal.laidOut_text (h : six.IsNormal) : LaidOut six.exponent six.text := by
  rw [h.text_eq]
  by_cases hpositional : -4 ≤ six.exponent ∧ six.exponent < 6
  · rw [if_pos hpositional]
    exact .positional hpositional.1 hpositional.2 (Decimal.whole_ne_nil _ _)
      (Decimal.digits_whole _ _) (trimmed_withFraction _ (Decimal.digits_fraction _ _))
  · rw [if_neg hpositional]
    have hlength : (Decimal.whole 5 six.digits).length = 1 := by
      rw [h.whole_eq le_rfl, List.length_take, h.length_digits]
      rfl
    obtain ⟨digit, hdigit⟩ := List.length_eq_one_iff.mp hlength
    have hwhole := Decimal.digits_whole 5 six.digits
    rw [hdigit] at hwhole ⊢
    exact .marked (by omega) (hwhole digit List.mem_cons_self)
      (trimmed_withFraction _ (Decimal.digits_fraction _ _)) (Decimal.lt_length_spread _ _)
      (Decimal.digits_spread _ _)

/-! ## What is printed -/

/-- A number with a point before the last `decimals` of its digits. -/
theorem number_spread (negative : Bool) (decimals n : ℕ) (exponent : ℤ) :
    RealLiteral.number ⟨negative, Decimal.whole decimals n, Decimal.fraction decimals n, exponent⟩ =
      if negative then -(n * (10 : ℚ) ^ (exponent - decimals))
      else n * (10 : ℚ) ^ (exponent - decimals) := by
  unfold RealLiteral.number
  dsimp only
  rw [Decimal.whole_append_fraction, Decimal.ofDigits_spread, Decimal.length_fraction]

/-- **Six digits are read back** from their text. -/
theorem SixDigits.IsNormal.map_number_read? (h : six.IsNormal) (negative : Bool) :
    (RealLiteral.read? (withSign negative six.text)).map RealLiteral.number =
      some (if negative then -six.value else six.value) := by
  have hread {decimals : ℕ} {power : List UInt8} {exponent : ℤ}
      (hpower : RealLiteral.readExponent? power = some exponent) (hend : NoDigit power)
      (hpoint : power.head? ≠ some Ascii.point)
      (hexponent : exponent - decimals = six.exponent - 5) :
      (RealLiteral.read? (withSign negative (withFraction (Decimal.whole decimals six.digits)
        (Decimal.fraction decimals six.digits) ++ power))).map RealLiteral.number =
          some (if negative then -six.value else six.value) := by
    rw [RealLiteral.read?_layout negative (Decimal.whole_ne_nil _ _) (Decimal.digits_whole _ _)
      (Decimal.digits_fraction _ _) hpower hend hpoint, Option.map_some,
      RealLiteral.number_trimmed, number_spread, hexponent]
    rfl
  rw [h.text_eq]
  by_cases hpositional : -4 ≤ six.exponent ∧ six.exponent < 6
  · have hdecimals : (0 : ℤ) - (5 - six.exponent).toNat = six.exponent - 5 := by omega
    rw [if_pos hpositional, ← List.append_nil (withFraction _ _)]
    exact hread rfl (fun _ => nofun) nofun hdecimals
  · rw [if_neg hpositional]
    refine hread (RealLiteral.readExponent?_exponentText _) ?_ nofun rfl
    rintro b ⟨⟩
    rfl

/-- The exact value of a finite real. -/
def toRat (x : Single) : ℚ := x.units / quantaPerUnit

theorem units_eq (x : Single) : x.units = if x.negative then -(x.quanta : ℤ) else x.quanta := rfl

theorem abs_toRat (x : Single) : |x.toRat| = x.quanta / quantaPerUnit := by
  have hunits : |(x.units : ℚ)| = x.quanta := by
    rw [units_eq]
    split <;> simp
  rw [toRat, abs_div, hunits, Nat.abs_cast]

theorem toRat_neg_iff (hzero : x.isZero = false) : x.toRat < 0 ↔ x.negative = true := by
  have hquanta : (0 : ℚ) < x.quanta := by exact_mod_cast quanta_pos hzero
  have hunit : (0 : ℚ) < quantaPerUnit := by exact_mod_cast quantaPerUnit_pos
  rw [toRat, div_lt_iff₀ hunit, zero_mul, units_eq]
  cases x.negative <;> simp [quanta_pos hzero]

/-- The text of a finite real: a zero, or six digits, and the sign of either. -/
theorem text_of_isFinite (hfinite : x.isFinite = true) :
    x.text = withSign x.negative
      (if x.isZero = true then [Ascii.zero] else (sixDigits x.quanta).text) := by
  have hmagnitude : x.magnitude < infiniteMagnitude := of_decide_eq_true hfinite
  have hnan : x.isNaN = false := decide_eq_false hmagnitude.not_gt
  have hinfinite : x.isInfinite = false := decide_eq_false hmagnitude.ne
  rw [text, sizeText, hnan, hinfinite, if_neg Bool.false_ne_true, if_neg Bool.false_ne_true,
    withSign]

/-- **A finite real prints as the six significant digits of its exact value**: those that it rounds
to, which are no others, from the middle the even ones. Formatting twice gives this text. It is read
as exactly this number, is a token of the grammar of reals, and is written positionally if and only
if the decimal exponent is from -4 to 5. -/
theorem text_of_finite (hfinite : x.isFinite = true) :
    x.format = x.text ∧ RealLiteral.accepts x.text = true ∧
      (x.isZero = false → ∃ six : SixDigits,
        six.IsNearest |x.toRat| ∧ (∀ other : SixDigits, other.IsNearest |x.toRat| → other = six) ∧
        (RealLiteral.read? x.text).map RealLiteral.number =
          some (if x.toRat < 0 then -six.value else six.value) ∧
        (Ascii.lowerE ∉ x.text ↔ -4 ≤ six.exponent ∧ six.exponent < 6) ∧
        ∃ text, x.text = withSign x.negative text ∧ LaidOut six.exponent text) := by
  have htext := text_of_isFinite hfinite
  refine ⟨format_eq_text x, ?_, fun hzero => ?_⟩
  · by_cases hzero : x.isZero = true
    · rw [htext, if_pos hzero]
      cases x.negative <;> decide
    · have hnormal := (isNearest_sixDigits (quanta_pos (Bool.eq_false_iff.mpr hzero))).normal
      rw [htext, if_neg hzero]
      obtain ⟨literal, hread, -⟩ := Option.map_eq_some_iff.mp (hnormal.map_number_read? x.negative)
      rw [RealLiteral.accepts_eq, hread]
      rfl
  · have hnearest := isNearest_sixDigits (quanta_pos hzero)
    rw [← abs_toRat] at hnearest
    have hlaid := hnearest.normal.laidOut_text
    rw [htext, hzero, if_neg Bool.false_ne_true]
    refine ⟨sixDigits x.quanta, hnearest, fun other hother => hother.unique hnearest, ?_, ?_,
      (sixDigits x.quanta).text, rfl, hlaid⟩
    · rw [hnearest.normal.map_number_read?]
      simp only [toRat_neg_iff hzero]
    · rw [mem_withSign (by decide)]
      exact hlaid.lowerE_notMem_iff

/-- Half below a million is in the middle of two numbers of six digits, and rounds to the even one,
a million: six digits would do before the point, but the exponent is that of the rounded number. -/
theorem text_of_finite_million :
    let x : Single := ⟨0x497423f8⟩
    x.isFinite = true ∧ x.isZero = false ∧ x.units = 1999999 * 2 ^ 148 ∧
      x.text = Ascii.bytes ['1', 'e', '+', '0', '6'] ∧ x.format = x.text ∧
      RealLiteral.accepts x.text = true ∧ SixDigits.IsNearest |x.toRat| ⟨100000, 6⟩ := by
  intro x
  have htext : x.text = Ascii.bytes ['1', 'e', '+', '0', '6'] := by decide +kernel
  obtain ⟨hformat, haccepts, hdigits⟩ := text_of_finite (x := x) (by decide)
  obtain ⟨six, hnearest, -, hnumber, -⟩ := hdigits (by decide)
  have hread : RealLiteral.read? x.text = some ⟨false, [49], [], 6⟩ := by
    rw [htext]
    decide
  have hvalue : six.value = (SixDigits.mk 100000 6).value := by
    have hpositive : ¬ x.toRat < 0 := by
      rw [toRat_neg_iff (by decide)]
      decide
    have hone : Decimal.ofDigits [49] = 1 := by decide
    rw [hread, Option.map_some, if_neg hpositive, Option.some.injEq] at hnumber
    rw [← hnumber]
    norm_num [RealLiteral.number, SixDigits.value, hone]
  obtain rfl := hnearest.normal.value_inj ⟨le_rfl, by decide⟩ hvalue
  exact ⟨by decide, by decide, by decide +kernel, htext, hformat, haccepts, hnearest⟩

end Single

end ArrayMachine
