import ArrayMachine.Input.Token
import ArrayMachine.Proofs.Reader.Flat
import Mathlib.Data.List.TakeDrop
import Mathlib.Data.List.TakeWhile

/-!
# The grammar of real literals

Which tokens are read as reals is told in three ways. The grammar `Written` derives a literal from
its parts: a sign or none, a mantissa with at least one digit, and an exponent or none.
`RealLiteral.read?` takes a token apart from the left. The automaton `accepts` looks at one byte
after the other and keeps a phase, and a flag for whether the mantissa has a digit yet.

A point with digits in front of it and one without lead to the same phase, and only the flag tells
them apart: it keeps a lone point from being a number, and an exponent from following one.
`Progress.Sound` is what phase and flag have to do with each other after any bytes, and
`Progress.follows` tells the bytes that may come after them.

* `isSome_read?_iff`: a token is taken apart exactly if the grammar derives it.
* `follows_cons`, `any_final_run`: one step of the automaton, and a run of it.
* `accepts_iff_written`: the automaton accepts what the grammar derives, and what is read as a real.
-/

namespace ArrayMachine.RealLiteral

variable {token rest : List UInt8} {byte : UInt8}

/-! ## The grammar -/

/-- `sign = [ "+" / "-" ]` -/
inductive Sign : List UInt8 → Prop where
  | missing : Sign []
  | plus : Sign [Ascii.plus]
  | minus : Sign [Ascii.minus]

/-- `digits = *digit` -/
def Digits (ds : List UInt8) : Prop := ∀ d ∈ ds, Decimal.isDigit d = true

/-- `mantissa = 1*digit [ "." *digit ] / "." 1*digit` -/
inductive Mantissa : List UInt8 → Prop where
  | whole {ds : List UInt8} : ds ≠ [] → Digits ds → Mantissa ds
  | mixed {ds fs : List UInt8} : ds ≠ [] → Digits ds → Digits fs →
    Mantissa (ds ++ Ascii.point :: fs)
  | fraction {fs : List UInt8} : fs ≠ [] → Digits fs → Mantissa (Ascii.point :: fs)

/-- `power = [ ( "e" / "E" ) sign 1*digit ]` -/
inductive Power : List UInt8 → Prop where
  | missing : Power []
  | marked {mark : UInt8} {sign ds : List UInt8} : mark = Ascii.lowerE ∨ mark = Ascii.upperE →
    Sign sign → ds ≠ [] → Digits ds → Power (mark :: (sign ++ ds))

/-- `unsigned = mantissa power` -/
inductive Unsigned : List UInt8 → Prop where
  | mk {mantissa power : List UInt8} : Mantissa mantissa → Power power →
    Unsigned (mantissa ++ power)

/-- `literal = sign unsigned`, and nothing else. -/
inductive Written : List UInt8 → Prop where
  | mk {sign unsigned : List UInt8} : Sign sign → Unsigned unsigned → Written (sign ++ unsigned)

/-! ## Bytes in front -/

/-- The text does not begin with a sign. -/
def NoSign (rest : List UInt8) : Prop :=
  ∀ b, rest.head? = some b → b ≠ Ascii.minus ∧ b ≠ Ascii.plus

theorem noSign_of_digits {ds : List UInt8} (hne : ds ≠ []) (hds : Digits ds) (rest : List UInt8) :
    NoSign (ds ++ rest) := by
  intro b hb
  rw [List.head?_append_of_ne_nil _ hne] at hb
  have hdigit := hds b (List.mem_of_mem_head? hb)
  constructor <;> (rintro rfl; cases hdigit)

theorem noSign_point (rest : List UInt8) : NoSign (Ascii.point :: rest) := by
  rintro b ⟨⟩
  decide

/-- A sign is split off from what has none. -/
theorem splitSign_append {sign : List UInt8} (h : Sign sign) (hrest : NoSign rest) :
    (splitSign (sign ++ rest)).2 = rest := by
  cases h with
  | missing =>
    cases rest with
    | nil => rfl
    | cons b more =>
      obtain ⟨hminus, hplus⟩ := hrest b rfl
      rw [List.nil_append, splitSign, if_neg hminus, if_neg hplus]
  | plus => rfl
  | minus => rfl

/-- Something that never begins with a sign is what a sign is split off from, or is all there is. -/
theorem splitSign_iff {p : List UInt8 → Prop} (hp : ∀ rest, p rest → NoSign rest) :
    p (splitSign token).2 ↔ ∃ sign rest, Sign sign ∧ p rest ∧ token = sign ++ rest := by
  constructor
  · intro h
    obtain ⟨sign, hsign, heq⟩ : ∃ sign, Sign sign ∧ token = sign ++ (splitSign token).2 := by
      unfold splitSign
      split
      · split
        · rename_i hminus
          exact ⟨[Ascii.minus], .minus, by rw [hminus]; rfl⟩
        · split
          · rename_i hplus
            exact ⟨[Ascii.plus], .plus, by rw [hplus]; rfl⟩
          · exact ⟨[], .missing, rfl⟩
      · exact ⟨[], .missing, rfl⟩
    exact ⟨sign, _, hsign, h, heq⟩
  · rintro ⟨sign, rest, hsign, hrest, rfl⟩
    rwa [splitSign_append hsign (hp rest hrest)]

/-- The text does not begin with a digit. -/
def NoDigit (rest : List UInt8) : Prop := ∀ b, rest.head? = some b → Decimal.isDigit b = false

/-- Any text is a run of digits and what does not go on with it. -/
theorem exists_digits (rest : List UInt8) :
    ∃ ds more, Digits ds ∧ NoDigit more ∧ rest = ds ++ more := by
  refine ⟨rest.takeWhile Decimal.isDigit, rest.dropWhile Decimal.isDigit,
    fun _ => List.mem_takeWhile_imp, fun b hb => ?_, List.takeWhile_append_dropWhile.symm⟩
  have := List.head?_dropWhile_not Decimal.isDigit rest
  rwa [hb] at this

/-! ## The parts that are taken apart -/

/-- There are digits and nothing else. -/
def isNumber (ds : List UInt8) : Bool := ds ≠ [] && ds.all Decimal.isDigit

/-- The rest of a token is an exponent, or there is none. -/
def isPower (rest : List UInt8) : Bool := (readExponent? rest).isSome

/-- The rest of a token is a literal without a sign. -/
def isUnsigned (rest : List UInt8) : Bool :=
  let (fraction, power) := splitFraction (rest.dropWhile Decimal.isDigit)
  !(rest.takeWhile Decimal.isDigit = [] && fraction = []) && isPower power

theorem isSome_read? (token : List UInt8) :
    (read? token).isSome = isUnsigned (splitSign token).2 := by
  unfold read? isUnsigned isPower
  dsimp only
  rw [List.span_eq_takeWhile_dropWhile]
  split
  · rename_i h
    rw [h]
    rfl
  · rename_i h
    rw [Option.isSome_map, Bool.not_eq_true _ |>.mp h]
    rfl

theorem isNumber_iff {ds : List UInt8} : isNumber ds = true ↔ ds ≠ [] ∧ Digits ds := by
  simp [isNumber, Digits]

theorem isPower_cons (mark : UInt8) (rest : List UInt8) :
    isPower (mark :: rest) =
      ((mark = Ascii.lowerE || mark = Ascii.upperE) && isNumber (splitSign rest).2) := by
  unfold isPower readExponent? isNumber
  dsimp only
  split
  · split <;> simp_all
  · simp_all

theorem isPower_iff : isPower rest = true ↔ Power rest := by
  cases rest with
  | nil => exact ⟨fun _ => .missing, fun _ => rfl⟩
  | cons mark rest =>
    have hnumber : ∀ ds, isNumber ds = true → NoSign ds := by
      intro ds h
      obtain ⟨hne, hds⟩ := isNumber_iff.mp h
      exact List.append_nil ds ▸ noSign_of_digits hne hds []
    rw [isPower_cons, Bool.and_eq_true, Bool.or_eq_true, decide_eq_true_eq, decide_eq_true_eq,
      splitSign_iff hnumber]
    constructor
    · rintro ⟨hmark, sign, ds, hsign, hds, rfl⟩
      exact .marked hmark hsign (isNumber_iff.mp hds).1 (isNumber_iff.mp hds).2
    · intro h
      cases h with
      | marked hmark hsign hne hds => exact ⟨hmark, _, _, hsign, isNumber_iff.mpr ⟨hne, hds⟩, rfl⟩

/-- An exponent begins neither with a digit nor with a point. -/
theorem Power.head (h : Power rest) : NoDigit rest ∧ rest.head? ≠ some Ascii.point := by
  cases h with
  | missing => exact ⟨fun _ => nofun, nofun⟩
  | marked hmark =>
    refine ⟨?_, ?_⟩
    · rintro b ⟨⟩
      obtain rfl | rfl := hmark <;> rfl
    · obtain rfl | rfl := hmark <;> nofun

theorem splitFraction_point {fs : List UInt8} (hfs : Digits fs) (hrest : NoDigit rest) :
    splitFraction (Ascii.point :: (fs ++ rest)) = (fs, rest) := by
  rw [splitFraction, if_pos rfl, List.span_eq_takeWhile_dropWhile, Reader.takeWhile_run hfs hrest,
    Reader.dropWhile_run hfs hrest]

theorem splitFraction_of_head (hrest : rest.head? ≠ some Ascii.point) :
    splitFraction rest = ([], rest) := by
  cases rest with
  | nil => rfl
  | cons b more =>
    rw [splitFraction, if_neg fun h => hrest (congrArg some h)]

theorem isUnsigned_append {ds : List UInt8} (hds : Digits ds) (hrest : NoDigit rest) :
    isUnsigned (ds ++ rest) = true ↔
      (ds ≠ [] ∨ (splitFraction rest).1 ≠ []) ∧ Power (splitFraction rest).2 := by
  unfold isUnsigned
  rw [Reader.takeWhile_run hds hrest, Reader.dropWhile_run hds hrest, ← isPower_iff]
  simp [Classical.or_iff_not_imp_left]

/-- Digits without a point. -/
theorem isUnsigned_whole {ds power : List UInt8} (hds : Digits ds) (hend : NoDigit power)
    (hpoint : power.head? ≠ some Ascii.point) :
    isUnsigned (ds ++ power) = true ↔ ds ≠ [] ∧ Power power := by
  rw [isUnsigned_append hds hend, splitFraction_of_head hpoint]
  simp

/-- Digits with a point among or around them. -/
theorem isUnsigned_point {ds fs power : List UInt8} (hds : Digits ds) (hfs : Digits fs)
    (hend : NoDigit power) :
    isUnsigned (ds ++ Ascii.point :: (fs ++ power)) = true ↔
      (ds ≠ [] ∨ fs ≠ []) ∧ Power power := by
  have hdot : NoDigit (Ascii.point :: (fs ++ power)) := by
    rintro b ⟨⟩
    rfl
  rw [isUnsigned_append hds hdot, splitFraction_point hfs hend]

theorem isUnsigned_iff : isUnsigned rest = true ↔ Unsigned rest := by
  constructor
  · intro h
    -- the digits in front, and the point behind them with the digits behind the point
    obtain ⟨ds, more, hds, hmore, rfl⟩ := exists_digits rest
    by_cases hpoint : more.head? = some Ascii.point
    · obtain ⟨tail, rfl⟩ := List.head?_eq_some_iff.mp hpoint
      obtain ⟨fs, power, hfs, hend, rfl⟩ := exists_digits tail
      obtain ⟨hsome, hpower⟩ := (isUnsigned_point hds hfs hend).mp h
      rw [← List.cons_append, ← List.append_assoc]
      refine .mk ?_ hpower
      by_cases hne : ds = []
      · rw [hne]
        exact .fraction (hsome.resolve_left (absurd hne)) hfs
      · exact .mixed hne hds hfs
    · obtain ⟨hne, hpower⟩ := (isUnsigned_whole hds hmore hpoint).mp h
      exact .mk (.whole hne hds) hpower
  · rintro ⟨hmantissa, hpower⟩
    obtain ⟨hend, hpoint⟩ := hpower.head
    cases hmantissa with
    | whole hne hds => exact (isUnsigned_whole hds hend hpoint).mpr ⟨hne, hpower⟩
    | mixed hne hds hfs =>
      rw [List.append_assoc]
      exact (isUnsigned_point hds hfs hend).mpr ⟨.inl hne, hpower⟩
    | @fraction fs hne hfs =>
      have hnone : Digits [] := fun _ => nofun
      exact (isUnsigned_point hnone hfs hend).mpr ⟨.inr hne, hpower⟩

/-- **A token is taken apart exactly if the grammar derives it.** -/
theorem isSome_read?_iff : (read? token).isSome = true ↔ Written token := by
  have hunsigned : ∀ rest, Unsigned rest → NoSign rest := by
    rintro _ ⟨hmantissa, -⟩
    cases hmantissa with
    | whole hne hds => exact noSign_of_digits hne hds _
    | mixed hne hds =>
      rw [List.append_assoc]
      exact noSign_of_digits hne hds _
    | fraction => exact noSign_point _
  rw [isSome_read?, isUnsigned_iff, splitSign_iff hunsigned]
  constructor
  · rintro ⟨sign, rest, hsign, hrest, rfl⟩
    exact .mk hsign hrest
  · rintro ⟨hsign, hrest⟩
    exact ⟨_, _, hsign, hrest, rfl⟩

/-! ## The automaton -/

/-- What a byte is to the automaton. -/
inductive Symbol where
  | sign | digit | point | mark | foreign

def symbol (byte : UInt8) : Symbol :=
  if byte = Ascii.plus ∨ byte = Ascii.minus then .sign
  else if Decimal.isDigit byte then .digit
  else if byte = Ascii.point then .point
  else if byte = Ascii.lowerE ∨ byte = Ascii.upperE then .mark
  else .foreign

/-- What the last byte was part of. -/
inductive Phase where
  | start | sign | integer | dot | fraction | exponent | exponentSign | exponentDigits

/-- Where the automaton is, and whether it has seen a digit of the mantissa. -/
structure Progress where
  phase : Phase
  digits : Bool

namespace Progress

def start : Progress := ⟨.start, false⟩

/-- One byte, or no way on. -/
def step (p : Progress) (c : Symbol) : Option Progress :=
  match p.phase, c with
  | .start, .sign => some { p with phase := .sign }
  | .start, .digit | .sign, .digit | .integer, .digit => some ⟨.integer, true⟩
  | .start, .point | .sign, .point | .integer, .point => some { p with phase := .dot }
  | .dot, .digit | .fraction, .digit => some ⟨.fraction, true⟩
  | .integer, .mark | .dot, .mark | .fraction, .mark =>
    if p.digits then some { p with phase := .exponent } else none
  | .exponent, .sign => some { p with phase := .exponentSign }
  | .exponent, .digit | .exponentSign, .digit | .exponentDigits, .digit =>
    some { p with phase := .exponentDigits }
  | _, _ => none

/-- A token may end here. -/
def final (p : Progress) : Bool :=
  p.digits &&
    match p.phase with
    | .integer | .dot | .fraction | .exponentDigits => true
    | _ => false

/-- What the flag is in a phase. -/
def Sound (p : Progress) : Prop :=
  match p.phase with
  | .start | .sign => p.digits = false
  | .dot => True
  | _ => p.digits = true

/-- Whether the rest of a token may follow. -/
def follows (p : Progress) (rest : List UInt8) : Bool :=
  match p.phase with
  | .start => isUnsigned (splitSign rest).2
  | .sign => isUnsigned rest
  | .integer => isPower (splitFraction (rest.dropWhile Decimal.isDigit)).2
  | .dot => (p.digits || rest.takeWhile Decimal.isDigit ≠ []) &&
      isPower (rest.dropWhile Decimal.isDigit)
  | .fraction => isPower (rest.dropWhile Decimal.isDigit)
  | .exponent => isNumber (splitSign rest).2
  | .exponentSign => isNumber rest
  | .exponentDigits => rest.all Decimal.isDigit

/-- A step keeps phase and flag together. -/
theorem sound_step {p q : Progress} {c : Symbol} (hp : p.Sound) (h : p.step c = some q) :
    q.Sound := by
  obtain ⟨phase, digits⟩ := p
  cases phase with
  | dot => cases digits <;> cases c <;> cases h <;> rfl
  | _ => cases hp; cases c <;> cases h <;> trivial

theorem follows_nil {p : Progress} (hp : p.Sound) : p.follows [] = p.final := by
  obtain ⟨phase, digits⟩ := p
  cases phase with
  | dot => cases digits <;> rfl
  | _ => cases hp; rfl

/-! ### One byte -/

theorem follows_sign {p : Progress} (hsign : byte = Ascii.plus ∨ byte = Ascii.minus) :
    p.follows (byte :: rest) = (p.step .sign).any (·.follows rest) := by
  have hdigit : Decimal.isDigit byte = false := by
    obtain rfl | rfl := hsign <;> rfl
  have hsplit : (splitSign (byte :: rest)).2 = rest := by
    obtain rfl | rfl := hsign <;> rfl
  have hfraction : splitFraction (byte :: rest) = ([], byte :: rest) := by
    obtain rfl | rfl := hsign <;> rfl
  have hpower : isPower (byte :: rest) = false := by
    obtain rfl | rfl := hsign <;> rfl
  obtain ⟨phase, digits⟩ := p
  cases phase <;> simp [follows, step, hdigit, hsplit, isUnsigned, isNumber, hpower, hfraction]

theorem splitSign_of_not_sign (hsign : ¬ (byte = Ascii.plus ∨ byte = Ascii.minus)) :
    (splitSign (byte :: rest)).2 = byte :: rest := by
  obtain ⟨hplus, hminus⟩ := not_or.mp hsign
  rw [splitSign, if_neg hminus, if_neg hplus]

theorem follows_digit {p : Progress} (hsign : ¬ (byte = Ascii.plus ∨ byte = Ascii.minus))
    (hdigit : Decimal.isDigit byte = true) :
    p.follows (byte :: rest) = (p.step .digit).any (·.follows rest) := by
  obtain ⟨phase, digits⟩ := p
  cases phase <;> simp [follows, step, hdigit, splitSign_of_not_sign hsign, isUnsigned, isNumber]

theorem follows_point {p : Progress} (hp : p.Sound) :
    p.follows (Ascii.point :: rest) = (p.step .point).any (·.follows rest) := by
  have hdigit : Decimal.isDigit Ascii.point = false := rfl
  have hsplit : (splitSign (Ascii.point :: rest)).2 = Ascii.point :: rest := rfl
  have hfraction : splitFraction (Ascii.point :: rest) = rest.span Decimal.isDigit := rfl
  have hpower : isPower (Ascii.point :: rest) = false := rfl
  obtain ⟨phase, digits⟩ := p
  cases phase with
  | start | sign | integer =>
    cases hp
    simp [follows, step, hdigit, hsplit, isUnsigned, hfraction, List.span_eq_takeWhile_dropWhile,
      -List.takeWhile_eq_nil_iff]
  | _ => simp [follows, step, hdigit, hsplit, isNumber, hpower]

theorem follows_mark {p : Progress} (hp : p.Sound) (hdigit : Decimal.isDigit byte = false)
    (hmark : byte = Ascii.lowerE ∨ byte = Ascii.upperE) :
    p.follows (byte :: rest) = (p.step .mark).any (·.follows rest) := by
  have hsplit : (splitSign (byte :: rest)).2 = byte :: rest := by
    obtain rfl | rfl := hmark <;> rfl
  have hfraction : splitFraction (byte :: rest) = ([], byte :: rest) := by
    obtain rfl | rfl := hmark <;> rfl
  have hpower : isPower (byte :: rest) = isNumber (splitSign rest).2 := by
    rw [isPower_cons]
    obtain rfl | rfl := hmark <;> rfl
  obtain ⟨phase, digits⟩ := p
  cases phase with
  | dot => cases digits <;> simp [follows, step, hdigit, hpower]
  | _ =>
    cases hp
    simp [follows, step, hdigit, hsplit, isUnsigned, isNumber, hpower, hfraction]

theorem follows_foreign {p : Progress} (hsign : ¬ (byte = Ascii.plus ∨ byte = Ascii.minus))
    (hdigit : Decimal.isDigit byte = false) (hpoint : byte ≠ Ascii.point)
    (hmark : ¬ (byte = Ascii.lowerE ∨ byte = Ascii.upperE)) :
    p.follows (byte :: rest) = (p.step .foreign).any (·.follows rest) := by
  have hfraction : splitFraction (byte :: rest) = ([], byte :: rest) := if_neg hpoint
  have hpower : isPower (byte :: rest) = false := by
    rw [isPower_cons]
    simp [not_or.mp hmark]
  obtain ⟨phase, digits⟩ := p
  cases phase <;>
    simp [follows, step, hdigit, splitSign_of_not_sign hsign, isUnsigned, isNumber, hfraction,
      hpower]

/-- **One step**: what may follow is a byte that the automaton takes, and what may follow then. -/
theorem follows_cons {p : Progress} (hp : p.Sound) (byte : UInt8) (rest : List UInt8) :
    p.follows (byte :: rest) = (p.step (symbol byte)).any (·.follows rest) := by
  unfold symbol
  split
  · exact follows_sign ‹_›
  split
  · exact follows_digit ‹_› ‹_›
  rename_i hsign hdigit
  rw [Bool.not_eq_true] at hdigit
  split
  · rename_i hpoint
    subst hpoint
    exact follows_point hp
  split
  · exact follows_mark hp hdigit ‹_›
  · exact follows_foreign hsign hdigit ‹_› ‹_›

end Progress

/-- The automaton on a text. -/
def run (p : Progress) (text : List UInt8) : Option Progress :=
  text.foldlM (fun (q : Progress) byte => q.step (symbol byte)) p

/-- The automaton goes over the token, and ends where a token may end. -/
def accepts (token : List UInt8) : Bool := (run Progress.start token).any Progress.final

/-- **A run** ends where a token may end exactly if the text is what may follow. -/
theorem any_final_run {p : Progress} (hp : p.Sound) (rest : List UInt8) :
    (run p rest).any Progress.final = p.follows rest := by
  induction rest generalizing p with
  | nil => exact (Progress.follows_nil hp).symm
  | cons byte rest ih =>
    rw [run, List.foldlM_cons, Progress.follows_cons hp]
    cases hstep : p.step (symbol byte) with
    | none => rfl
    | some q => exact ih (Progress.sound_step hp hstep)

/-- The automaton accepts what can be taken apart. -/
theorem accepts_eq (token : List UInt8) : accepts token = (read? token).isSome := by
  have hstart : Progress.start.Sound := rfl
  exact (any_final_run hstart token).trans (isSome_read? token).symm

/-- **The automaton accepts what the grammar derives**, and nothing else: a sign or none, digits
with at most one point among or around them, and a marked exponent or none. These are the tokens
that are read as reals. -/
theorem accepts_iff_written (token : List UInt8) :
    (accepts token = true ↔ Written token) ∧ (Token.real? token).isSome = accepts token := by
  rw [accepts_eq]
  exact ⟨isSome_read?_iff, Option.isSome_map⟩

-- a point needs a digit on one side, and an exponent one of its own
example : (["7.", ".5", "-1E+2", ".", "+", ".e5", "1e", "1e2e3"].map fun text =>
    accepts (Ascii.bytes text.toList)) =
      [true, true, true, false, false, false, false, false] := by
  decide +kernel

end ArrayMachine.RealLiteral
