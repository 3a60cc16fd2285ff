import ArrayMachine.Proofs.Conversion.Places
import ArrayMachine.Proofs.Operators.Pointwise

/-!
# What operators make of their operands

Before a binary operator applies, each operand is looked at on its own: a stream is refused, a literal
is promoted, and an interval may come to stand for the vector of its members. Then the two of them
are: a null or identity array takes the kind of the other. None of this depends on the operator, and
a fault on the way is the same whichever operand comes first.

* `WellFormed.operand_cases`: an operand, or the sort of fault it is refused with.
* `WellFormed.exists_asInterval`: whether it stands for an interval can always be told.
* `withoutSentinels_comm`, `withoutSentinels_eq_ok`: null and identity arrays beside another operand.
* `WellFormed.isOperand`: what is left is stored, or the empty array.
-/

namespace ArrayMachine

variable {kind : Kind} {e : Element} {es : List Element} {fault : Fault}

theorem Element.fault_of_promote (h : e.promote kind = .error fault) :
    fault = cannotPromote e.kind kind := by
  cases kind <;> cases e <;> cases h <;> rfl

/-- Elements are only refused for their kinds. -/
theorem Buffer.fault_of_ofElements (hk : kind ≠ .null) (h : ofElements kind es = .error fault) :
    ∃ text, fault = .typeMismatch text := by
  by_cases hbasic : kind.isBasic = true
  · rw [ofElements_eq_promote hbasic] at h
    cases hes : es.mapM (Element.promote kind) with
    | ok fs =>
      obtain ⟨b, hb, rfl⟩ := exists_ofElements hbasic hes
      obtain rfl := kind_of_ofElements hb
      rw [hes] at h
      cases h.symm.trans (ofElements_elements b)
    | error first =>
      rw [hes] at h
      obtain rfl := Except.error.inj h
      obtain ⟨i, hi, hfault, -⟩ := Result.exists_of_mapM_error hes
      exact ⟨_, Element.fault_of_promote hfault⟩
  · cases kind <;> first | exact absurd rfl hbasic | exact absurd rfl hk | skip
    all_goals exact ⟨_, (Except.error.inj h).symm⟩

namespace Value

variable {a b u v w : Value} {s t : Shape} {x y : Buffer} {k : Kind}

/-! ## The elements that a value has -/

/-- The length of an array is the size of its shape. -/
theorem WellFormed.length_eq (hv : v.WellFormed) (hs : v.shape? = some s) :
    v.length = .ok s.size := by
  cases hv with
  | interval _ _ | tuple _ _ | input | output => cases hs
  | _ =>
    obtain rfl := Option.some.inj hs
    rfl

/-- A well-formed value has an element at each position within its length. -/
theorem WellFormed.exists_element {n pos : Nat} (hv : v.WellFormed) (hlength : v.length = .ok n)
    (hpos : pos < n) : ∃ e, v.element pos = .ok e := by
  cases hv with
  | input | output | tuple _ _ => cases hlength
  | @empty shape hempty =>
    obtain rfl : shape.size = n := Except.ok.inj hlength
    rw [Shape.size_of_isEmptyArray hempty] at hpos
    cases hpos
  | @sentinel shape hsentinel _ =>
    obtain rfl : shape.size = n := Except.ok.inj hlength
    obtain ⟨e, he, -⟩ := exists_element_sentinel hsentinel hpos
    exact ⟨e, he⟩
  | @stored shape b hfits _ =>
    obtain rfl : shape.size = n := Except.ok.inj hlength
    rw [← hfits.size, ← Buffer.length_elements] at hpos
    exact ⟨_, element_stored_of_lt hfits hpos⟩
  | @mixed shape elements _ _ hsize =>
    obtain rfl : shape.size = n := Except.ok.inj hlength
    rw [hsize] at hpos
    exact ⟨_, element_mixed hsize hpos⟩
  | interval kind i =>
    obtain rfl : i.length = n := Except.ok.inj hlength
    exact ⟨_, element_interval hpos⟩

/-- As many elements as its length says. -/
theorem WellFormed.exists_elements {n : Nat} (hv : v.WellFormed) (hlength : v.length = .ok n) :
    ∃ es, v.elements = .ok es ∧ es.length = n := by
  obtain ⟨es, hes⟩ : ∃ es, (List.range n).mapM v.element = .ok es :=
    Result.exists_mapM_eq_ok fun pos hpos => hv.exists_element hlength (List.mem_range.mp hpos)
  refine ⟨es, ?_, by rw [Result.length_of_mapM hes, List.length_range]⟩
  unfold elements
  rw [hlength]
  exact hes

/-! ## One operand -/

/-- A literal whose elements do not meet is refused for their kinds. -/
theorem fault_of_promoteMixed (hv : v.WellFormed) (h : v.promoteMixed = .error fault) :
    ∃ text, fault = .typeMismatch text := by
  cases hv with
  | @mixed shape elements _ _ _ =>
    simp only [promoteMixed, shape?, ValueType.shape?] at h
    split at h
    · exact ⟨_, (Except.error.inj h).symm⟩
    · rename_i kind _
      split at h
      · cases h
      · rename_i hsentinel
        refine Buffer.fault_of_ofElements ?_ (Result.map_eq_error_iff.mp h)
        rintro rfl
        exact hsentinel rfl
  | _ => cases h

/-- The value is no operand, whatever the operator. -/
def Refused (v : Value) : Prop := ∀ role, ∃ text, v.operand role = .error (.typeMismatch text)

/-- **An operand** is what promotion leaves of the value, or is refused for its type, under whatever
operator. -/
theorem WellFormed.operand_cases (hv : v.WellFormed) :
    (∃ x, v.promoteMixed = .ok x ∧ ∀ role, v.operand role = .ok x) ∨ v.Refused := by
  have hpromoted (htype : ∀ role, v.operand role = v.promoteMixed) :
      (∃ x, v.promoteMixed = .ok x ∧ ∀ role, v.operand role = .ok x) ∨ v.Refused := by
    cases hx : v.promoteMixed with
    | ok x => exact .inl ⟨x, rfl, fun role => (htype role).trans hx⟩
    | error fault =>
      obtain ⟨text, rfl⟩ := fault_of_promoteMixed hv hx
      exact .inr fun role => ⟨text, (htype role).trans hx⟩
  cases hv with
  | input => exact .inr fun role => ⟨_, rfl⟩
  | output => exact .inr fun role => ⟨_, rfl⟩
  | _ => exact hpromoted fun role => rfl

/-- An operand is a tuple, or an array as soon as it is widened. -/
theorem WellFormed.shape?_of_operand {role : String} {x : Value} (hv : v.WellFormed)
    (h : v.operand role = .ok x) : x.type.isTuple = true ∨ ∃ s, x.widened.shape? = some s := by
  cases hv with
  | input => cases h
  | output => cases h
  | @mixed shape elements _ _ _ =>
    have hpromoted : Value.promoteMixed ⟨.array shape, .mixed elements⟩ = .ok x := h
    rcases promoteMixed_eq_ok hpromoted with
      ⟨hmixed, -⟩ | ⟨shape, elements, kind, -, -, ⟨-, rfl⟩ | ⟨b, -, rfl⟩⟩
    · cases hmixed
    · exact .inr ⟨_, rfl⟩
    · exact .inr ⟨_, rfl⟩
  | tuple _ _ =>
    obtain rfl := Except.ok.inj h
    exact .inl rfl
  | _ =>
    obtain rfl := Except.ok.inj h
    exact .inr ⟨_, rfl⟩

/-- One operand that is refused is enough. -/
theorem binary_of_refused (ha : a.WellFormed) (hb : b.WellFormed) (h : a.Refused ∨ b.Refused)
    (op : BinaryOp) : ∃ text, binary op a b = .error (.typeMismatch text) := by
  unfold binary
  rcases ha.operand_cases with ⟨x, -, hx⟩ | hrefused
  · rcases hb.operand_cases with ⟨y, -, hy⟩ | hrefused
    · rcases h with h | h
      · obtain ⟨text, h⟩ := h ""
        cases (hx "").symm.trans h
      · obtain ⟨text, h⟩ := h ""
        cases (hy "").symm.trans h
    · obtain ⟨text, hrefused⟩ := hrefused s!"`{op.symbol}`"
      rw [hx, hrefused]
      exact ⟨text, rfl⟩
  · obtain ⟨text, hrefused⟩ := hrefused s!"`{op.symbol}`"
    rw [hrefused]
    exact ⟨text, rfl⟩

/-- Operands that are not both tuples. -/
theorem binary_of_operands {x y : Value} (hx : ∀ role, a.operand role = .ok x)
    (hy : ∀ role, b.operand role = .ok y) (hfields : a.fields? = none ∨ b.fields? = none)
    (op : BinaryOp) :
    binary op a b =
      if x.type.isTuple || y.type.isTuple then
        .error (.typeMismatch s!"cannot apply `{op.symbol}` to {x.type} and {y.type}")
      else binaryPlain op x y := by
  unfold binary
  rw [hx, hy]
  dsimp only [bind, Except.bind]
  split
  · rcases hfields with h | h <;> cases h
  · rfl

/-- A scalar is the integer that its element is promoted to. -/
theorem scalarInteger_eq_ok {k : Int32} (hrank : v.rank? = some .scalar)
    (he : v.element 0 = .ok e) (hk : e.toInteger = .ok k) (role : String) :
    v.scalarInteger role = .ok k := by
  unfold scalarInteger
  rw [hrank, he]
  simp only [bind, Except.bind, hk, ne_eq, not_true_eq_false, if_false]

/-- The element of a scalar that is an integer, a null or an identity is promoted to an integer. -/
theorem WellFormed.exists_toInteger (hv : v.WellFormed) (hrank : v.rank? = some .scalar)
    (hkind : v.kind? = some .integer ∨ v.isSentinel = true) :
    ∃ e k, v.element 0 = .ok e ∧ e.toInteger = .ok k := by
  cases hv with
  | @empty shape hempty =>
    have hscalar : shape.rank = .scalar := Option.some.inj hrank
    have hnone : shape.rank = .unspecified := of_decide_eq_true hempty
    cases hscalar.symm.trans hnone
  | @sentinel shape hsentinel _ =>
    have hpos : 0 < shape.size := by
      rw [Shape.size_of_scalar (Option.some.inj hrank)]
      exact Nat.one_pos
    rcases Kind.isSentinel_iff.mp hsentinel with hnull | hidentity
    · exact ⟨.null, 0, element_null hnull hpos, rfl⟩
    · exact ⟨.identity, 1, element_identity hidentity hpos, rfl⟩
  | @stored shape b hfits _ =>
    rw [isSentinel_stored hfits] at hkind
    have hinteger : b.kind = .integer :=
      hfits.kind.trans (Option.some.inj (hkind.resolve_right Bool.false_ne_true))
    have hpos : 0 < b.elements.length := by
      rw [Buffer.length_elements, hfits.size, Shape.size_of_scalar (Option.some.inj hrank)]
      exact Nat.one_pos
    have hfirst : b.elements[0].kind = .integer :=
      (Buffer.kind_of_mem_elements (List.getElem_mem hpos)).trans hinteger
    obtain ⟨k, hk⟩ : ∃ k, b.elements[0].toInteger = .ok k := by
      cases hread : b.elements[0] with
      | integer n => exact ⟨n, rfl⟩
      | _ =>
        rw [hread] at hfirst
        cases hfirst
    exact ⟨_, k, element_stored_of_lt hfits hpos, hk⟩
  | mixed hmixed _ _ =>
    rw [isSentinel_eq rfl, hmixed] at hkind
    rcases hkind with hkind | hkind
    · cases hmixed.symm.trans (Option.some.inj hkind)
    · cases hkind
  | _ => cases hrank

/-- An integer, null or identity scalar stands for the interval of its integer alone. -/
theorem asInterval?_of_scalar {k : Int32} (hv : v.interval? = none)
    (hrank : v.rank? = some .scalar) (hkind : v.kind? = some .integer ∨ v.isSentinel = true)
    (he : v.element 0 = .ok e) (hk : e.toInteger = .ok k) :
    v.asInterval? = .ok (some ⟨k, k, Int32.le_refl k⟩) := by
  have hlike : (decide (v.rank? = some .scalar) &&
      (decide (v.kind? = some .integer) || v.isSentinel)) = true := by
    simpa only [Bool.and_eq_true, decide_eq_true_eq, Bool.or_eq_true] using ⟨hrank, hkind⟩
  unfold asInterval?
  rw [hv]
  dsimp only
  rw [if_pos hlike, scalarInteger_eq_ok hrank he hk]
  simp [Interval.ofEnds, bind, Except.bind, pure, Except.pure]

/-- Whatever else there is, it can be told that it does not. -/
theorem WellFormed.exists_asInterval (hv : v.WellFormed) : ∃ i?, v.asInterval? = .ok i? := by
  cases hinterval : v.interval? with
  | some i => exact ⟨some i, by rw [asInterval?, hinterval]⟩
  | none =>
    by_cases hlike : v.rank? = some .scalar ∧ (v.kind? = some .integer ∨ v.isSentinel = true)
    · obtain ⟨e, k, he, hk⟩ := hv.exists_toInteger hlike.1 hlike.2
      exact ⟨_, asInterval?_of_scalar hinterval hlike.1 hlike.2 he hk⟩
    · refine ⟨none, ?_⟩
      unfold asInterval?
      rw [hinterval]
      exact if_neg (by simpa using hlike)

/-- Where it is told which operands stand for intervals, the operators that intervals have are
tried, and then the operands are widened. -/
theorem withInterval_eq {i? j? : Option Interval} (hi : a.asInterval? = .ok i?)
    (hj : b.asInterval? = .ok j?) (op : BinaryOp) :
    withInterval op a b =
      (do intervals? op (← i?) (← j?)).getD (arrays op a.widened b.widened) := by
  unfold withInterval
  rw [hi, hj]
  rfl

theorem widened_of_isSome_interval? (h : v.interval?.isSome = false) : v.widened = v := by
  unfold widened
  rw [Option.not_isSome_iff_eq_none.mp (Bool.eq_false_iff.mp h)]

/-! ## Null and identity arrays beside another operand -/

/-- Null and identity arrays are filled, or refused, alike in either order. -/
theorem withoutSentinels_comm (a b : Value) :
    withoutSentinels b a = Prod.swap <$> withoutSentinels a b := by
  unfold withoutSentinels
  cases a.isSentinel <;> cases b.isSentinel
  · rfl
  · cases a.basicKind with
    | error fault => rfl
    | ok k =>
      show (b.fillSentinel k >>= _) = Prod.swap <$> (b.fillSentinel k >>= _)
      cases b.fillSentinel k <;> rfl
  · cases b.basicKind with
    | error fault => rfl
    | ok k =>
      show (a.fillSentinel k >>= _) = Prod.swap <$> (a.fillSentinel k >>= _)
      cases a.fillSentinel k <;> rfl
  · rfl

/-- What an operand becomes beside another one: a null or identity array takes the other's kind. -/
inductive Beside (u v : Value) : Value → Prop where
  | same : u.isSentinel = false → Beside u v u
  | filled {k : Kind} {w : Value} : u.isSentinel = true → v.basicKind = .ok k →
    u.fillSentinel k = .ok w → Beside u v w

theorem withoutSentinels_eq_ok {x y : Value} (h : withoutSentinels a b = .ok (x, y)) :
    Beside a b x ∧ Beside b a y := by
  unfold withoutSentinels at h
  split at h
  · cases h
  · rename_i ha hb
    obtain ⟨k, hk, h⟩ := Result.bind_eq_ok_iff.mp h
    obtain ⟨filled, hfilled, h⟩ := Result.bind_eq_ok_iff.mp h
    obtain ⟨rfl, rfl⟩ := Prod.mk.inj (Except.ok.inj h)
    exact ⟨.filled ha hk hfilled, .same hb⟩
  · rename_i ha hb
    obtain ⟨k, hk, h⟩ := Result.bind_eq_ok_iff.mp h
    obtain ⟨filled, hfilled, h⟩ := Result.bind_eq_ok_iff.mp h
    obtain ⟨rfl, rfl⟩ := Prod.mk.inj (Except.ok.inj h)
    exact ⟨.same ha, .filled hb hk hfilled⟩
  · rename_i ha hb
    obtain ⟨rfl, rfl⟩ := Prod.mk.inj (Except.ok.inj h)
    exact ⟨.same ha, .same hb⟩

/-- **An operand beside another one** is neither null nor identity, and has the dimensions it had. -/
theorem Beside.ready {x : Value} (h : Beside u v x) (hu : u.WellFormed)
    (hmixed : u.isMixed = false) (hshape : u.shape? = some s) :
    x.WellFormed ∧ x.isMixed = false ∧ x.isSentinel = false ∧
      ∃ t, x.shape? = some t ∧ t.dims = s.dims := by
  cases h with
  | same hsentinel => exact ⟨hu, hmixed, hsentinel, s, hshape, rfl⟩
  | filled _ _ hfilled =>
    have hx := hu.fillSentinel hfilled
    obtain ⟨shape, e, c, rfl, -, hc, rfl⟩ := fillSentinel_eq_ok hfilled
    obtain rfl : shape = s := Option.some.inj hshape
    exact ⟨hx, rfl, isSentinel_stored (Shape.fits_filled hc), _, rfl, rfl⟩

theorem isEmptyArray_eq (h : v.shape? = some s) : v.isEmptyArray = s.isEmptyArray := by
  simp [isEmptyArray, h]

theorem WellFormed.isOperand_stored (hv : (Value.stored s x).WellFormed)
    (hempty : s.isEmptyArray = false) : s.IsOperand x := by
  cases hv with
  | stored hfits hknown => exact ⟨hfits, hknown, hempty⟩

/-- Such an operand is stored, unless it is the empty array. -/
theorem WellFormed.isOperand (hv : v.WellFormed) (hshape : v.shape? = some s)
    (hempty : v.isEmptyArray = false) (hsentinel : v.isSentinel = false)
    (hmixed : v.isMixed = false) : ∃ x, s.IsOperand x ∧ v = Value.stored s x := by
  rw [isEmptyArray_eq hshape] at hempty
  obtain ⟨x, rfl⟩ := hv.eq_stored hshape hempty hsentinel hmixed
  exact ⟨x, hv.isOperand_stored hempty, rfl⟩

/-- Of two arrays, null and identity ones are filled, and then empty ones are dealt with. -/
theorem arrays_eq (hs : a.shape? = some s) (ht : b.shape? = some t) (op : BinaryOp) :
    arrays op a b = withoutSentinels a b >>= fun pair =>
      if pair.1.isEmptyArray || pair.2.isEmptyArray then
        if op = .concat then concatEmpty (if pair.1.isEmptyArray then pair.2 else pair.1)
        else .error (.invalidOperandKind s!"`{op.symbol}` applied to an empty array")
      else arraysOfKinds op pair.1 pair.2 := by
  unfold arrays arrayShape
  rw [hs, ht]
  rfl

end Value

end ArrayMachine
