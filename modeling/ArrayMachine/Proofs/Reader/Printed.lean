import ArrayMachine.Proofs.Reader.Conservation
import ArrayMachine.Value.Rendering

/-!
# Reading what was printed

An integer or a boolean prints as a token of its own kind, so a row of printed scalars, with blanks
between each two, is read back scalar by scalar.

* `integer?_integerText`: reading a printed integer gives the integer, at both ends of the range too.
* `readToken_run`: the flat reader takes a token that blanks or the ends of the input set apart.
* `reads_printed`: any reader whose ring can hold the longest token reads a printed row back.
-/

namespace ArrayMachine

/-- A scalar whose printed form is a token. -/
inductive Scalar where
  | integer (n : Int32)
  | boolean (b : Bool)
deriving DecidableEq

/-- Texts in a row, with a run of blanks between each two. -/
inductive Joined : List (List UInt8) → List UInt8 → Prop where
  | none : Joined [] []
  | last (text : List UInt8) : Joined [text] text
  | cons {text next blanks bytes : List UInt8} {texts : List (List UInt8)} :
    blanks ≠ [] → (∀ b ∈ blanks, Ascii.isBlank b = true) → Joined (next :: texts) bytes →
    Joined (text :: next :: texts) (text ++ (blanks ++ bytes))

/-! ## Printed scalars are tokens -/

/-- A scalar prints as its element. -/
theorem Value.render_ofElement (e : Element) : (Value.ofElement e).render = .ok e.text := by
  have h : (Value.ofElement e).render = .ok [e.text].flatten := by
    cases e <;> rfl
  rw [h, List.flatten_singleton]

theorem splitSign_of_digit {d : UInt8} {ds : List UInt8} (h : Decimal.isDigit d = true) :
    splitSign (d :: ds) = (false, d :: ds) := by
  have hminus : d ≠ Ascii.minus := by
    rintro rfl
    cases h
  have hplus : d ≠ Ascii.plus := by
    rintro rfl
    cases h
  rw [splitSign, if_neg hminus, if_neg hplus]

/-- The sign of a printed integer, and the digits behind it. -/
theorem splitSign_integerText (n : Int32) :
    splitSign (integerText n) = (decide (n.toInt < 0), Decimal.digits n.toInt.natAbs) := by
  unfold integerText
  split
  · rename_i hneg
    rw [splitSign, if_pos rfl, decide_eq_true hneg]
  · rename_i hpos
    rw [decide_eq_false hpos]
    cases hds : Decimal.digits n.toInt.natAbs with
    | nil => exact absurd hds (Decimal.digits_ne_nil _)
    | cons d ds =>
      have hmem : d ∈ Decimal.digits n.toInt.natAbs := hds ▸ List.mem_cons_self
      exact splitSign_of_digit (Decimal.isDigit_of_mem_digits hmem)

/-- **Reading a printed integer** gives the integer. -/
theorem Token.integer?_integerText (n : Int32) : Token.integer? (integerText n) = some n := by
  have hvalue : (if decide (n.toInt < 0) = true then
      -(Decimal.ofDigits (Decimal.digits n.toInt.natAbs) : Int)
      else Decimal.ofDigits (Decimal.digits n.toInt.natAbs)) = n.toInt := by
    rw [Decimal.ofDigits_digits]
    split
    · rename_i hneg
      have := of_decide_eq_true hneg
      omega
    · rename_i hpos
      have := of_decide_eq_false (Bool.eq_false_iff.mpr hpos)
      omega
  have hdigits : (decide (Decimal.digits n.toInt.natAbs ≠ []) &&
      (Decimal.digits n.toInt.natAbs).all Decimal.isDigit) = true := by
    rw [Bool.and_eq_true, List.all_eq_true]
    exact ⟨decide_eq_true (Decimal.digits_ne_nil _), fun d => Decimal.isDigit_of_mem_digits⟩
  unfold Token.integer?
  rw [splitSign_integerText]
  dsimp only
  rw [if_pos hdigits, hvalue, if_pos ⟨n.minValue_le_toInt, n.toInt_le⟩, Int32.ofInt_toInt]

theorem Token.boolean?_text (b : Bool) : Token.boolean? (Element.boolean b).text = some b := by
  cases b <;> rfl

namespace Scalar

def element : Scalar → Element
  | integer n => .integer n
  | boolean b => .boolean b

def value (s : Scalar) : Value := Value.ofElement s.element

/-- What the scalar prints as. -/
def text (s : Scalar) : List UInt8 := s.element.text

/-- The read that asks for a scalar of this kind. -/
def request : Scalar → Request
  | integer _ => .integer
  | boolean _ => .boolean

theorem text_ne_nil (s : Scalar) : s.text ≠ [] := by
  cases s with
  | integer n =>
    show integerText n ≠ []
    unfold integerText
    split
    · simp
    · exact Decimal.digits_ne_nil _
  | boolean b => cases b <;> simp [text, element, Element.text]

/-- A printed scalar is of digits and a minus, or is one of the two letters. -/
theorem byte_of_mem_text {s : Scalar} {b : UInt8} (h : b ∈ s.text) :
    Decimal.isDigit b = true ∨ b = Ascii.minus ∨ b = Ascii.upperT ∨ b = Ascii.upperF := by
  cases s with
  | integer n =>
    change b ∈ integerText n at h
    unfold integerText at h
    split at h
    · rcases List.mem_cons.mp h with rfl | h
      · exact .inr (.inl rfl)
      · exact .inl (Decimal.isDigit_of_mem_digits h)
    · exact .inl (Decimal.isDigit_of_mem_digits h)
  | boolean c =>
    cases c with
    | true => exact .inr (.inr (.inl (List.mem_singleton.mp h)))
    | false => exact .inr (.inr (.inr (List.mem_singleton.mp h)))

/-- There is no blank in a printed scalar. -/
theorem inToken_of_mem_text {s : Scalar} {b : UInt8} (h : b ∈ s.text) :
    Flat.inToken b = true := by
  obtain hdigit | rfl | rfl | rfl := byte_of_mem_text h
  · unfold Decimal.isDigit at hdigit
    rw [Bool.and_eq_true, decide_eq_true_eq] at hdigit
    rw [Flat.inToken, Ascii.isBlank_of_digit hdigit.1]
    rfl
  all_goals rfl

end Scalar

/-! ## Reading a row of tokens -/

namespace Flat

variable {front rest : List UInt8}

/-- **A token set apart is taken**: the one behind the blanks in front, up to the next blank. -/
theorem readToken_run {α : Type} {limit : Nat} {parse : List UInt8 → Option α} (fallback : α)
    {value : α} {token : List UInt8} (hfront : ∀ b ∈ front, Ascii.isBlank b = true)
    (htoken : ∀ b ∈ token, inToken b = true) (hne : token ≠ [])
    (hrest : ∀ b, rest.head? = some b → Ascii.isBlank b = true) (hfit : token.length ≤ limit)
    (hparse : parse token = some value) :
    readToken limit parse fallback (front ++ (token ++ rest)) = ((value, .success), rest) := by
  have hahead : (front ++ (token ++ rest)).dropWhile Ascii.isBlank = token ++ rest := by
    refine Reader.dropWhile_run hfront fun b hb => ?_
    rw [List.head?_append_of_ne_nil _ hne] at hb
    simpa [inToken] using htoken b (List.mem_of_mem_head? hb)
  have hrun : (token ++ rest).takeWhile inToken = token := by
    refine Reader.takeWhile_run htoken fun b hb => ?_
    rw [inToken, hrest b hb]
    rfl
  unfold readToken
  dsimp only
  rw [hahead, hrun, if_neg (by simp [hne]), if_neg (Nat.not_lt.mpr hfit), hparse, List.drop_left]

/-- Behind the last token there are only blanks, or nothing. -/
theorem readToken_blanks {α : Type} {limit : Nat} {parse : List UInt8 → Option α} {fallback : α}
    (hfront : ∀ b ∈ front, Ascii.isBlank b = true) :
    readToken limit parse fallback front = ((fallback, .endOfInput), []) := by
  have hnone : front.dropWhile Ascii.isBlank = [] := by
    rw [← List.append_nil front, Reader.dropWhile_run hfront (by simp)]
  unfold readToken
  dsimp only
  rw [hnone, if_pos rfl]

/-- A printed scalar is read back. -/
theorem read_text {limit : Nat} {s : Scalar} (hfront : ∀ b ∈ front, Ascii.isBlank b = true)
    (hrest : ∀ b, rest.head? = some b → Ascii.isBlank b = true) (hfit : s.text.length ≤ limit) :
    read limit (front ++ (s.text ++ rest)) s.request = ((s.element, .success), rest) := by
  have htoken : ∀ b ∈ s.text, inToken b = true := fun _ => Scalar.inToken_of_mem_text
  cases s with
  | integer n =>
    have hread := readToken_run 0 hfront htoken (Scalar.text_ne_nil _) hrest hfit
      (Token.integer?_integerText n)
    simp only [read, Scalar.request, hread, Scalar.element]
  | boolean b =>
    have hread := readToken_run false hfront htoken (Scalar.text_ne_nil _) hrest hfit
      (Token.boolean?_text b)
    simp only [read, Scalar.request, hread, Scalar.element]

/-- Asking for a token at the end of the input. -/
theorem read_blanks {limit : Nat} {request : Request} (hrequest : request ≠ .character)
    (hfront : ∀ b ∈ front, Ascii.isBlank b = true) :
    read limit front request = ((request.fallback, .endOfInput), []) := by
  cases request with
  | integer | boolean | real => simp only [read, readToken_blanks hfront, Request.fallback]
  | character => exact absurd rfl hrequest

/-- A printed row is read back, scalar by scalar, and then the input ends. -/
theorem reads_joined {limit : Nat} {scalars : List Scalar} {bytes : List UInt8} {request : Request}
    (hfront : ∀ b ∈ front, Ascii.isBlank b = true) (hjoined : Joined (scalars.map Scalar.text) bytes)
    (hfit : ∀ s ∈ scalars, s.text.length ≤ limit) (hrequest : request ≠ .character) :
    reads limit (front ++ bytes) (scalars.map Scalar.request ++ [request]) =
      scalars.map (fun s => (s.element, .success)) ++ [(request.fallback, .endOfInput)] := by
  induction scalars generalizing front bytes with
  | nil =>
    cases hjoined
    simp only [List.map_nil, List.nil_append, List.append_nil, reads, read_blanks hrequest hfront]
  | cons s scalars ih =>
    obtain ⟨hs, hrest⟩ := List.forall_mem_cons.mp hfit
    -- behind the text of `s` the input ends, or there is a run of blanks and the rest of the row
    obtain ⟨blanks, more, hbytes, hblanks, hhead, hmore⟩ : ∃ blanks more,
        bytes = s.text ++ (blanks ++ more) ∧ (∀ b ∈ blanks, Ascii.isBlank b = true) ∧
          (∀ b, (blanks ++ more).head? = some b → Ascii.isBlank b = true) ∧
          Joined (scalars.map Scalar.text) more := by
      rw [List.map_cons] at hjoined
      generalize htexts : scalars.map Scalar.text = texts at hjoined
      cases hjoined with
      | last => exact ⟨[], [], by simp, by simp, by simp, .none⟩
      | @cons _ _ blanks more _ hne hblanks hmore =>
        refine ⟨blanks, more, rfl, hblanks, fun b hb => ?_, hmore⟩
        rw [List.head?_append_of_ne_nil _ hne] at hb
        exact hblanks b (List.mem_of_mem_head? hb)
    rw [List.map_cons, List.cons_append, reads, hbytes, read_text hfront hhead hs]
    dsimp only
    rw [ih hblanks hmore hrest]
    rfl

end Flat

namespace Reader

/-- **Reading what was printed.** The texts of integers and booleans, in a row with blanks between
each two, are read back as the same integers and booleans, each with success, however the script
cuts the bytes, as long as the ring can hold the longest text; then the input ends. -/
theorem reads_printed {scalars : List Scalar} {source : Source} {capacity : Nat} {request : Request}
    (hsource : source.Steady) (hjoined : Joined (scalars.map Scalar.text) source.contents)
    (hfit : ∀ s ∈ scalars, s.text.length ≤ max capacity 2) (hrequest : request ≠ .character) :
    (∀ s ∈ scalars, s.value.render = .ok s.text) ∧
      (ofSource source capacity).reads (scalars.map Scalar.request ++ [request]) =
        scalars.map (fun s => (s.element, .success)) ++ [(request.fallback, .endOfInput)] := by
  refine ⟨fun s _ => Value.render_ofElement s.element, ?_⟩
  have hrow : (ofSource source capacity).onward (ofSource source capacity).start =
      [] ++ source.contents := rfl
  rw [reads_of_ready (ready_ofSource hsource capacity), hrow, capacity_ofSource]
  exact Flat.reads_joined (by simp) hjoined hfit hrequest

/-- The least integer fills a ring of eleven cells, and the script cuts it in two. -/
theorem reads_printed_least :
    let scalars : List Scalar := [.integer (-2147483648), .boolean true, .integer 7]
    let source : Source := [.bytes [45, 50, 49, 52, 55, 52], .interruption,
      .bytes [56, 51, 54, 52, 56, 32, 10], .bytes [84, 9, 9, 55]]
    source.Steady ∧ Joined (scalars.map Scalar.text) source.contents ∧
      (∀ s ∈ scalars, s.text.length ≤ max 11 2) ∧
      (Value.integer (-2147483648)).render =
        .ok [45, 50, 49, 52, 55, 52, 56, 51, 54, 52, 56] ∧
      (ofSource source 11).reads [.integer, .boolean, .integer, .real] =
        [(.integer (-2147483648), .success), (.boolean true, .success), (.integer 7, .success),
          (.real (Single.zero false), .endOfInput)] := by
  intro scalars source
  have hleast : (Scalar.integer (-2147483648)).text =
      [45, 50, 49, 52, 55, 52, 56, 51, 54, 52, 56] := by
    decide +kernel
  have htexts : scalars.map Scalar.text =
      [[45, 50, 49, 52, 55, 52, 56, 51, 54, 52, 56], [84], [55]] := by
    decide +kernel
  have hjoined : Joined (scalars.map Scalar.text) source.contents := by
    have hrest : Joined [[84], [55]] [84, 9, 9, 55] :=
      @Joined.cons [84] [55] [9, 9] [55] [] (by decide) (List.all_eq_true.mp rfl) (.last [55])
    rw [htexts]
    exact @Joined.cons _ _ [32, 10] _ _ (by decide) (List.all_eq_true.mp rfl) hrest
  have hfit : ∀ s ∈ scalars, s.text.length ≤ max 11 2 := by
    decide +kernel
  obtain ⟨hrender, hreads⟩ :=
    @reads_printed scalars source 11 .real (by decide) hjoined hfit (by decide)
  refine ⟨by decide, hjoined, hfit, ?_, hreads⟩
  rw [← hleast]
  exact hrender _ List.mem_cons_self

end Reader

end ArrayMachine
