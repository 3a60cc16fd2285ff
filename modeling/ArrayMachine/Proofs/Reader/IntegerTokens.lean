import ArrayMachine.Proofs.Reader.Printed
import ArrayMachine.Proofs.Reader.RealLiterals
import Mathlib.Algebra.Group.Int.Defs
import Mathlib.Data.List.Induction

/-!
# The grammar of integer tokens

A token is read as an integer if it is a sign or none and then one digit or more, and if the number
that it denotes fits 32 bits. The way there is a longer one. The bytes are decoded first, a grammar
made of small parsers takes an optional sign and the digits behind it, and what it took is gone over
once more, digit by digit, in a word that must not overflow.

The accumulator moves away from zero with each digit, so once it leaves the range no later digit
brings it back, and zeros in front leave it where it is. It goes down for a negative number, so that
the least word is reached although its opposite is none (`pushDigit_signed`).

Digits and signs are characters of one byte each, and every other character has a byte that is none
of theirs, so it makes no difference whether the bytes are decoded first.

* `pushDigit_signed`, `foldlM_pushDigit`: one digit, and a run of digits.
* `whole_grammar`: the grammar takes as a whole what can be accumulated.
* `read_iff_denotes`: the tokens that are read, and the words they are read as.
-/

namespace ArrayMachine

/-! ## Parsers -/

/-- A parser takes a value from the front of a text and leaves the rest of it, or it fails. -/
abbrev Parser (α : Type) := List Char → Option (α × List Char)

namespace Parser

variable {α β : Type} {text : List Char}

/-- One of some characters. -/
def oneOf (choices : List Char) : Parser Char
  | c :: rest => if c ∈ choices then some (c, rest) else none
  | [] => none

/-- As many ASCII digits as there are, and one at least. -/
def digits : Parser (List Char) := fun text =>
  if text.takeWhile Char.isDigit = [] then none
  else some (text.takeWhile Char.isDigit, text.dropWhile Char.isDigit)

/-- What a parser takes, or nothing. -/
def optional (p : Parser α) : Parser (Option α) := fun text =>
  match p text with
  | some (a, rest) => some (some a, rest)
  | none => some (none, text)

/-- One parser behind the other. -/
def andThen (p : Parser α) (q : Parser β) : Parser (α × β) := fun text => do
  let (a, rest) ← p text
  let (b, rest) ← q rest
  return ((a, b), rest)

/-- The text that a parser takes. -/
def taken (p : Parser α) : Parser (List Char) := fun text => do
  let (_, rest) ← p text
  return (text.take (text.length - rest.length), rest)

/-- What a function that can fail makes of the value taken. -/
def mapResult (p : Parser α) (f : α → Option β) : Parser β := fun text => do
  let (a, rest) ← p text
  return (← f a, rest)

/-- The value of a text that a parser takes as a whole. -/
def whole (p : Parser α) (text : List Char) : Option α :=
  match p text with
  | some (a, []) => some a
  | _ => none

theorem digits_eq (hne : text ≠ []) (htext : ∀ c ∈ text, c.isDigit = true) :
    digits text = some (text, []) := by
  rw [digits, List.takeWhile_eq_self_iff.mpr htext, List.dropWhile_eq_nil_iff.mpr htext,
    if_neg hne]

/-- Of a text that is taken as a whole, the text is what is taken. -/
theorem whole_taken_eq_some {p : Parser α} {f : List Char → Option β} {b : β} :
    (p.taken.mapResult f).whole text = some b ↔
      (∃ a, p text = some (a, [])) ∧ f text = some b := by
  unfold whole mapResult taken
  cases hp : p text with
  | none => simp
  | some result =>
    obtain ⟨a, rest⟩ := result
    cases rest with
    | nil => cases hf : f text <;> simp [hf]
    | cons c rest =>
      cases hf : f (text.take (text.length - (c :: rest).length)) <;> simp_all

end Parser

namespace IntegerToken

/-! ## Words -/

/-- A number, if it fits 32 bits. -/
def word? (n : Int) : Option Int32 :=
  if Int32.minValue.toInt ≤ n ∧ n ≤ Int32.maxValue.toInt then some (Int32.ofInt n) else none

/-- The word with one more digit behind it, unless one of the two steps leaves the range. -/
def pushDigit (negative : Bool) (word : Int32) (c : Char) : Option Int32 :=
  if c.isDigit then do
    let shifted ← word? (10 * word.toInt)
    let d : Int := Decimal.digitValue c.toUInt8
    word? (if negative then shifted.toInt - d else shifted.toInt + d)
  else none

/-- Digits, from the first to the last. -/
def accumulate? (negative : Bool) (ds : List Char) : Option Int32 :=
  if ds = [] then none else ds.foldlM (pushDigit negative) 0

/-- A decimal number with or without a sign. -/
def parse? : List Char → Option Int32
  | c :: ds =>
    if c = '-' then accumulate? true ds
    else if c = '+' then accumulate? false ds
    else accumulate? false (c :: ds)
  | [] => none

/-- An optional sign and digits. -/
def signedDigits : Parser (Option Char × List Char) :=
  (Parser.oneOf ['+', '-']).optional.andThen Parser.digits

/-- The grammar of integers. -/
def grammar : Parser Int32 := signedDigits.taken.mapResult parse?

/-- A token is decoded and then parsed as a whole. -/
def read? (token : List UInt8) : Option Int32 := do
  let text ← token.toByteArray.utf8Decode?
  grammar.whole text.toList

variable {n : Int} {v : Int32} {negative : Bool} {c : Char} {ds text : List Char}
  {token : List UInt8}

theorem word?_eq_some_iff : word? n = some v ↔ v.toInt = n := by
  unfold word?
  constructor
  · intro h
    obtain ⟨hfits, hv⟩ := Option.ite_none_right_eq_some.mp h
    obtain rfl := Option.some.inj hv
    exact Int32.toInt_ofInt_of_le hfits.1 (Int.lt_add_one_of_le hfits.2)
  · rintro rfl
    rw [if_pos ⟨v.minValue_le_toInt, v.toInt_le⟩, Int32.ofInt_toInt]

theorem exists_word (hmin : -2 ^ 31 ≤ n) (hmax : n < 2 ^ 31) : ∃ v : Int32, v.toInt = n :=
  ⟨_, word?_eq_some_iff.mp (if_pos ⟨hmin, Int.le_of_lt_add_one hmax⟩)⟩

/-! ## Accumulating digits -/

/-- A number with a sign. -/
def signed (negative : Bool) (n : Nat) : Int := if negative then -(n : Int) else n

/-- **One digit more**: a word has it if and only if the longer number is one. -/
theorem pushDigit_signed (k : Nat) (hc : c.isDigit = true) :
    (word? (signed negative k)).bind (pushDigit negative · c) =
      word? (signed negative (10 * k + Decimal.digitValue c.toUInt8)) := by
  generalize hd : Decimal.digitValue c.toUInt8 = d
  ext v
  simp only [Option.bind_eq_some_iff, pushDigit, if_pos hc, word?_eq_some_iff, Option.bind_eq_bind,
    hd]
  constructor
  · rintro ⟨w, hw, s, hs, hv⟩
    rw [hv, hs, hw]
    cases negative <;> simp only [signed, Bool.false_eq_true, if_true, if_false] <;> omega
  · intro hv
    -- what lies between zero and a word is a word
    have hbetween (m : Nat) (hm : m ≤ 10 * k + d) : ∃ w : Int32, w.toInt = signed negative m := by
      have hmin : -2 ^ 31 ≤ v.toInt := v.minValue_le_toInt
      have hmax : v.toInt < 2 ^ 31 := v.toInt_lt
      refine exists_word ?_ ?_ <;> cases negative <;>
        simp only [signed, Bool.false_eq_true, if_true, if_false] at hv ⊢ <;> omega
    obtain ⟨w, hw⟩ := hbetween k (by omega)
    obtain ⟨s, hs⟩ := hbetween (10 * k) (by omega)
    refine ⟨w, hw, s, ?_, ?_⟩
    · rw [hs, hw]
      cases negative <;> simp only [signed, Bool.false_eq_true, if_true, if_false] <;> omega
    · rw [hv, hs]
      cases negative <;> simp only [signed, Bool.false_eq_true, if_true, if_false] <;> omega

/-- **A run of digits** comes to the number that they denote, if it is a word. -/
theorem foldlM_pushDigit (negative : Bool) (ds : List Char) :
    ds.foldlM (pushDigit negative) 0 =
      if ds.all Char.isDigit then word? (signed negative (Decimal.ofDigits (ds.map Char.toUInt8)))
      else none := by
  induction ds using List.reverseRecOn with
  | nil => cases negative <;> rfl
  | append_singleton ds c ih =>
    rw [List.foldlM_append, ih, List.all_append, List.map_append, List.map_singleton,
      Decimal.ofDigits_append_singleton]
    by_cases hds : ds.all Char.isDigit = true
    · rw [if_pos hds, hds]
      by_cases hc : c.isDigit = true
      · simpa [hc] using pushDigit_signed _ hc
      · simp [pushDigit, hc]
    · simp [hds]

theorem accumulate?_eq (negative : Bool) (ds : List Char) :
    accumulate? negative ds =
      if ds ≠ [] ∧ ds.all Char.isDigit = true then
        word? (signed negative (Decimal.ofDigits (ds.map Char.toUInt8)))
      else none := by
  by_cases hds : ds = []
  · simp [accumulate?, hds]
  · simp [accumulate?, hds, foldlM_pushDigit]

theorem accumulate?_eq_some (h : accumulate? negative ds = some v) :
    ds ≠ [] ∧ ∀ c ∈ ds, c.isDigit = true := by
  rw [accumulate?_eq] at h
  obtain ⟨⟨hne, hall⟩, -⟩ := Option.ite_none_right_eq_some.mp h
  exact ⟨hne, List.all_eq_true.mp hall⟩

/-! ## Texts that are parsed -/

/-- An optional sign and at least one digit. -/
inductive Shaped : List Char → Prop where
  | plain {ds : List Char} : ds ≠ [] → (∀ c ∈ ds, c.isDigit = true) → Shaped ds
  | signed {c : Char} {ds : List Char} : c ∈ ['+', '-'] → ds ≠ [] →
    (∀ c ∈ ds, c.isDigit = true) → Shaped (c :: ds)

theorem shaped_of_parse? (h : parse? text = some v) : Shaped text := by
  cases text with
  | nil => cases h
  | cons c ds =>
    rw [parse?] at h
    split at h
    · obtain ⟨hne, hds⟩ := accumulate?_eq_some h
      exact .signed (by simp [*]) hne hds
    · split at h
      · obtain ⟨hne, hds⟩ := accumulate?_eq_some h
        exact .signed (by simp [*]) hne hds
      · obtain ⟨hne, hds⟩ := accumulate?_eq_some h
        exact .plain hne hds

/-- Each character of such a text is a digit or a sign. -/
theorem Shaped.mem (h : Shaped text) (hc : c ∈ text) : c.isDigit = true ∨ c ∈ ['+', '-'] := by
  cases h with
  | plain _ hds => exact .inl (hds c hc)
  | signed hsign _ hds =>
    rcases List.mem_cons.mp hc with rfl | hc
    · exact .inr hsign
    · exact .inl (hds c hc)

/-- Such a text is taken as a whole. -/
theorem Shaped.signedDigits (h : Shaped text) : ∃ a, signedDigits text = some (a, []) := by
  unfold IntegerToken.signedDigits Parser.andThen Parser.optional
  cases h with
  | plain hne hds =>
    have hnone : Parser.oneOf ['+', '-'] text = none := by
      cases text with
      | nil => rfl
      | cons c ds =>
        refine if_neg fun hc => ?_
        have hdigit := hds c List.mem_cons_self
        obtain rfl | rfl := List.mem_pair.mp hc <;> cases hdigit
    exact ⟨(none, text), by simp [hnone, Parser.digits_eq hne hds]⟩
  | @signed c ds hsign hne hds =>
    have hsome : Parser.oneOf ['+', '-'] (c :: ds) = some (c, ds) := if_pos hsign
    exact ⟨(some c, ds), by simp [hsome, Parser.digits_eq hne hds]⟩

/-- **The grammar takes as a whole what can be accumulated**, and nothing else. -/
theorem whole_grammar (text : List Char) : grammar.whole text = parse? text := by
  ext v
  rw [grammar, Parser.whole_taken_eq_some]
  constructor
  · rintro ⟨-, h⟩
    exact h
  · intro h
    exact ⟨(shaped_of_parse? h).signedDigits, h⟩

/-! ## Bytes and characters -/

/-- The text is of ASCII characters. -/
def IsAscii (text : List Char) : Prop := ∀ c ∈ text, c.toNat < 128

theorem toNat_toUInt8 (hc : c.toNat < 128) : c.toUInt8.toNat = c.toNat :=
  Nat.mod_eq_of_lt (Nat.lt_trans hc (by decide))

theorem toUInt8_inj {d : Char} (hc : c.toNat < 128) (hd : d.toNat < 128) :
    c.toUInt8 = d.toUInt8 ↔ c = d := by
  constructor
  · intro h
    have hnat := congrArg UInt8.toNat h
    rw [toNat_toUInt8 hc, toNat_toUInt8 hd] at hnat
    rw [← Char.ofNat_toNat c, hnat, Char.ofNat_toNat]
  · rintro rfl
    rfl

theorem isDigit_toUInt8 (hc : c.toNat < 128) : Decimal.isDigit c.toUInt8 = c.isDigit := by
  simp only [Decimal.isDigit, Char.isDigit, UInt8.le_iff_toNat_le, toNat_toUInt8 hc,
    UInt32.le_iff_toNat_le, ge_iff_le]
  rfl

theorem Shaped.isAscii (h : Shaped text) : IsAscii text := by
  intro c hc
  rcases h.mem hc with hdigit | hsign
  · simp only [Char.isDigit, UInt32.le_iff_toNat_le, ge_iff_le, Bool.and_eq_true,
      decide_eq_true_eq] at hdigit
    exact Nat.lt_of_le_of_lt hdigit.2 (by decide)
  · obtain rfl | rfl := List.mem_pair.mp hsign <;> decide

/-- Each ASCII character is encoded by its own byte. -/
theorem IsAscii.flatMap_utf8EncodeChar (h : IsAscii text) :
    text.flatMap String.utf8EncodeChar = text.map Char.toUInt8 := by
  induction text with
  | nil => rfl
  | cons c text ih =>
    obtain ⟨hc, htext⟩ := List.forall_mem_cons.mp h
    have hsize : c.utf8Size = 1 := Char.utf8Size_eq_one_iff.mpr (Nat.le_of_lt_succ hc)
    rw [List.flatMap_cons, ih htext, String.utf8EncodeChar_eq_singleton hsize]
    rfl

/-- Bytes are decoded to the characters that they encode. -/
theorem utf8Decode?_eq_some_iff {chars : Array Char} :
    token.toByteArray.utf8Decode? = some chars ↔
      chars.toList.flatMap String.utf8EncodeChar = token := by
  constructor
  · intro h
    have hsome : token.toByteArray.utf8Decode?.isSome = true := by
      rw [h]
      rfl
    have hencode := @ByteArray.utf8Encode_get_utf8Decode? _ hsome
    simp only [h, Option.get_some] at hencode
    exact List.toByteArray_inj.mp hencode
  · rintro rfl
    exact List.utf8Decode?_utf8Encode

theorem IsAscii.accumulate?_eq (h : IsAscii ds) (negative : Bool) :
    accumulate? negative ds =
      if ds.map Char.toUInt8 ≠ [] && (ds.map Char.toUInt8).all Decimal.isDigit then
        word? (signed negative (Decimal.ofDigits (ds.map Char.toUInt8)))
      else none := by
  have hall : (ds.map Char.toUInt8).all Decimal.isDigit = ds.all Char.isDigit := by
    rw [Bool.eq_iff_iff, List.all_map, List.all_eq_true, List.all_eq_true]
    exact forall₂_congr fun c hc => by rw [Function.comp_apply, isDigit_toUInt8 (h c hc)]
  rw [IntegerToken.accumulate?_eq, hall]
  simp

/-- ASCII bytes are read as what the characters are parsed as. -/
theorem IsAscii.integer?_map (h : IsAscii text) :
    Token.integer? (text.map Char.toUInt8) = parse? text := by
  cases text with
  | nil => rfl
  | cons c ds =>
    obtain ⟨hc, hds⟩ := List.forall_mem_cons.mp h
    have hminus : c.toUInt8 = Ascii.minus ↔ c = '-' := @toUInt8_inj c '-' hc (by decide)
    have hplus : c.toUInt8 = Ascii.plus ↔ c = '+' := @toUInt8_inj c '+' hc (by decide)
    rw [parse?, List.map_cons]
    unfold Token.integer? splitSign
    simp only [hminus, hplus]
    split
    · exact (IsAscii.accumulate?_eq hds true).symm
    · split
      · exact (IsAscii.accumulate?_eq hds false).symm
      · exact (IsAscii.accumulate?_eq h false).symm

/-- Bytes below 128 are ASCII characters. -/
theorem exists_text (h : ∀ b ∈ token, b.toNat < 128) :
    ∃ text, IsAscii text ∧ text.map Char.toUInt8 = token := by
  refine ⟨token.map Char.ofUInt8, ?_, ?_⟩
  · intro c hc
    obtain ⟨b, hb, rfl⟩ := List.mem_map.mp hc
    exact h b hb
  · rw [List.map_map]
    refine (List.map_congr_left fun b hb => ?_).trans (List.map_id token)
    exact UInt8.toNat.inj (@toNat_toUInt8 (Char.ofUInt8 b) (h b hb))

/-! ## Tokens that are read -/

/-- The number that a token denotes. -/
inductive Denotes : List UInt8 → Int → Prop where
  | plain {ds : List UInt8} : ds ≠ [] → RealLiteral.Digits ds → Denotes ds (Decimal.ofDigits ds)
  | plus {ds : List UInt8} : ds ≠ [] → RealLiteral.Digits ds →
    Denotes (Ascii.plus :: ds) (Decimal.ofDigits ds)
  | minus {ds : List UInt8} : ds ≠ [] → RealLiteral.Digits ds →
    Denotes (Ascii.minus :: ds) (-(Decimal.ofDigits ds : Int))

theorem denotes_iff :
    Denotes token n ↔ (splitSign token).2 ≠ [] ∧ RealLiteral.Digits (splitSign token).2 ∧
      n = signed (splitSign token).1 (Decimal.ofDigits (splitSign token).2) := by
  constructor
  · intro h
    cases h with
    | plain hne hds =>
      obtain ⟨d, ds, rfl⟩ := List.exists_cons_of_ne_nil hne
      rw [splitSign_of_digit (hds d List.mem_cons_self)]
      exact ⟨hne, hds, rfl⟩
    | plus hne hds => exact ⟨hne, hds, rfl⟩
    | minus hne hds => exact ⟨hne, hds, rfl⟩
  · rintro ⟨hne, hds, rfl⟩
    cases token with
    | nil => exact absurd rfl hne
    | cons b rest =>
      unfold splitSign at hne hds ⊢
      by_cases hminus : b = Ascii.minus
      · simp only [if_pos hminus] at hne hds ⊢
        exact hminus ▸ .minus hne hds
      · by_cases hplus : b = Ascii.plus
        · simp only [if_neg hminus, if_pos hplus] at hne hds ⊢
          exact hplus ▸ .plus hne hds
        · simp only [if_neg hminus, if_neg hplus] at hne hds ⊢
          exact .plain hne hds

theorem Denotes.unique {m : Int} (hm : Denotes token m) (hn : Denotes token n) : m = n := by
  obtain ⟨-, -, rfl⟩ := denotes_iff.mp hm
  obtain ⟨-, -, rfl⟩ := denotes_iff.mp hn
  rfl

/-- **A token is read as the word of the number that it denotes.** -/
theorem integer?_eq_some_iff :
    Token.integer? token = some v ↔ Denotes token v.toInt := by
  have hvalue : Token.integer? token =
      if (splitSign token).2 ≠ [] ∧ (splitSign token).2.all Decimal.isDigit = true then
        word? (signed (splitSign token).1 (Decimal.ofDigits (splitSign token).2))
      else none := by
    unfold Token.integer?
    simp [signed, word?]
  rw [hvalue, denotes_iff, Option.ite_none_right_eq_some, word?_eq_some_iff, and_assoc,
    List.all_eq_true]
  rfl

theorem Denotes.byte_lt (h : Denotes token n) : ∀ b ∈ token, b.toNat < 128 := by
  have hdigits {ds : List UInt8} (hds : RealLiteral.Digits ds) : ∀ b ∈ ds, b.toNat < 128 := by
    intro b hb
    have hdigit := hds b hb
    simp only [Decimal.isDigit, Bool.and_eq_true, decide_eq_true_eq,
      UInt8.le_iff_toNat_le] at hdigit
    exact Nat.lt_of_le_of_lt hdigit.2 (by decide)
  cases h with
  | plain _ hds => exact hdigits hds
  | plus _ hds => exact List.forall_mem_cons.mpr ⟨by decide, hdigits hds⟩
  | minus _ hds => exact List.forall_mem_cons.mpr ⟨by decide, hdigits hds⟩

/-- Decoding the bytes first makes no difference. -/
theorem read?_eq_integer? (token : List UInt8) : read? token = Token.integer? token := by
  ext v
  constructor
  · intro h
    obtain ⟨chars, hchars, hparse⟩ := Option.bind_eq_some_iff.mp h
    rw [whole_grammar] at hparse
    have hascii := (shaped_of_parse? hparse).isAscii
    rw [utf8Decode?_eq_some_iff, hascii.flatMap_utf8EncodeChar] at hchars
    rw [← hchars, hascii.integer?_map, hparse]
  · intro h
    obtain ⟨text, hascii, rfl⟩ := exists_text (integer?_eq_some_iff.mp h).byte_lt
    rw [hascii.integer?_map] at h
    have hdecode : (text.map Char.toUInt8).toByteArray.utf8Decode? = some text.toArray :=
      utf8Decode?_eq_some_iff.mpr hascii.flatMap_utf8EncodeChar
    rw [read?, hdecode]
    exact (whole_grammar text).trans h

/-- **The tokens that are read as integers** are an optional sign and at least one digit, with zeros
in front or without, that denote a number of 32 bits, and they are read as that number. Bytes that
are not UTF-8, characters that are neither signs nor ASCII digits and numbers that do not fit are
refused. -/
theorem read_iff_denotes (token : List UInt8) :
    Token.integer? token = read? token ∧
      (∀ v, read? token = some v ↔
        ∃ n, Denotes token n ∧ -2 ^ 31 ≤ n ∧ n ≤ 2 ^ 31 - 1 ∧ v = Int32.ofInt n) ∧
      (¬token.toByteArray.IsValidUTF8 → read? token = none) ∧
      (∀ chars, token.toByteArray.utf8Decode? = some chars →
        (∃ c ∈ chars.toList, c.isDigit = false ∧ c ∉ ['+', '-']) → read? token = none) ∧
      (∀ n, Denotes token n → n < -2 ^ 31 ∨ 2 ^ 31 - 1 < n → read? token = none) := by
  have hread (v : Int32) : read? token = some v ↔ Denotes token v.toInt := by
    rw [read?_eq_integer?, integer?_eq_some_iff]
  refine ⟨(read?_eq_integer? token).symm, fun v => ?_, ?_, ?_, ?_⟩
  · rw [hread]
    constructor
    · intro h
      exact ⟨_, h, v.minValue_le_toInt, v.toInt_le, v.ofInt_toInt.symm⟩
    · rintro ⟨n, h, hmin, hmax, rfl⟩
      rwa [Int32.toInt_ofInt_of_le hmin (Int.lt_add_one_of_le hmax)]
  · intro hinvalid
    cases hdecode : token.toByteArray.utf8Decode? with
    | none => rw [read?, hdecode]; rfl
    | some chars =>
      exact absurd (ByteArray.isSome_utf8Decode?_iff.mp (hdecode ▸ rfl)) hinvalid
  · rintro chars hchars ⟨c, hc, hdigit, hsign⟩
    rw [read?, hchars]
    show grammar.whole chars.toList = none
    rw [whole_grammar, Option.eq_none_iff_forall_ne_some]
    intro v hv
    rcases (shaped_of_parse? hv).mem hc with h | h
    · rw [hdigit] at h
      cases h
    · exact hsign h
  · intro n hn hout
    rw [Option.eq_none_iff_forall_ne_some]
    intro v hv
    obtain rfl := hn.unique ((hread v).mp hv)
    have hmin : -2 ^ 31 ≤ v.toInt := v.minValue_le_toInt
    have hmax : v.toInt ≤ 2 ^ 31 - 1 := v.toInt_le
    omega

/-- The least word is read with zeros in front, and its opposite does not fit. -/
theorem read_iff_denotes_limits :
    let least : List UInt8 := [45, 48, 48, 50, 49, 52, 55, 52, 56, 51, 54, 52, 56]
    let opposite : List UInt8 := [43, 50, 49, 52, 55, 52, 56, 51, 54, 52, 56]
    Denotes least (-2147483648) ∧ read? least = some (-2147483648) ∧
      Denotes opposite 2147483648 ∧ read? opposite = none := by
  intro least opposite
  have hleast : Denotes least (-2147483648) := by
    have h := @Denotes.minus (least.drop 1) (by decide) (List.all_eq_true.mp rfl)
    exact (show -(Decimal.ofDigits (least.drop 1) : Int) = -2147483648 by decide) ▸ h
  have hopposite : Denotes opposite 2147483648 := by
    have h := @Denotes.plus (opposite.drop 1) (by decide) (List.all_eq_true.mp rfl)
    exact (show (Decimal.ofDigits (opposite.drop 1) : Int) = 2147483648 by decide) ▸ h
  obtain ⟨-, hread, -⟩ := read_iff_denotes least
  obtain ⟨-, -, -, -, hout⟩ := read_iff_denotes opposite
  exact ⟨hleast, (hread _).mpr ⟨_, hleast, by decide, by decide, by decide⟩, hopposite,
    hout _ hopposite (.inr (by decide))⟩

end IntegerToken

end ArrayMachine
