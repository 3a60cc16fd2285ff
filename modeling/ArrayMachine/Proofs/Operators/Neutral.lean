import ArrayMachine.Proofs.Conversion.Acceptance
import ArrayMachine.Proofs.Operators.Equality
import ArrayMachine.Proofs.Operators.Power

/-!
# Null and identity are neutral

A null or identity array stores nothing. Beside another array it is filled with the zeros or ones of
that one's kind, and a scalar serves every position. So there is one element that meets all those of
the other array, and where it changes none of them, the other array is the answer: it has the
extents and the kind that are asked of an answer, whichever side it stands on.

* `Shape.IsSentinelFor.exists_filled`: what a null or identity array is filled with.
* `Shape.IsFilledFor.pairAt_right`, `pairAt_left`: the pairs with a single element.
* `binary_eq_stored_right`, `binary_eq_stored_left`: an array beside a single element.
* `binary_sentinel_right`, `binary_sentinel_left`: an element that changes nothing.
* `neutral_elements`: the neutral elements of integer and of boolean arrays.
-/

namespace ArrayMachine

variable {op : BinaryOp} {s t u s' t' : Shape} {x y b c : Buffer} {e r : Element} {k : Kind}
  {pos : Nat} {v n w : Value}

/-! ## Elements that change nothing -/

namespace Element

/-- As the second operand the element changes none of its kind. -/
def IsNeutralRight (op : BinaryOp) (r : Element) : Prop :=
  ∀ e : Element, e.kind = r.kind → binary op e r = .ok e

/-- As the first operand the element changes none of its kind. -/
def IsNeutralLeft (op : BinaryOp) (r : Element) : Prop :=
  ∀ e : Element, e.kind = r.kind → binary op r e = .ok e

theorem isNeutralRight_integer {m : Int32}
    (h : ∀ n, binaryInteger op n m = .ok (.integer n)) : IsNeutralRight op (.integer m)
  | .integer n, _ => h n

theorem isNeutralLeft_integer {m : Int32}
    (h : ∀ n, binaryInteger op m n = .ok (.integer n)) : IsNeutralLeft op (.integer m)
  | .integer n, _ => h n

theorem isNeutralRight_boolean {c : Bool}
    (h : ∀ d, binaryBoolean op d c = .ok (.boolean d)) : IsNeutralRight op (.boolean c)
  | .boolean d, _ => h d

theorem isNeutralLeft_boolean {c : Bool}
    (h : ∀ d, binaryBoolean op c d = .ok (.boolean d)) : IsNeutralLeft op (.boolean c)
  | .boolean d, _ => h d

/-- The power of one. -/
theorem integerPower_one (base : Int32) : integerPower base 1 = .ok base := by
  have hpower : wrappingPower base (1 : Int32).toInt.toNat = base := by
    rw [wrappingPower_eq]
    show base ^ 1 = base
    rw [Int32.pow_succ, Int32.pow_zero, Int32.one_mul]
  unfold integerPower
  rw [if_neg (by decide), hpower]

theorem zero_neutral :
    IsNeutralRight .plus (integer 0) ∧ IsNeutralLeft .plus (integer 0) ∧
      IsNeutralRight .minus (integer 0) :=
  ⟨isNeutralRight_integer fun n => congrArg (Except.ok ∘ integer) n.add_zero,
    isNeutralLeft_integer fun n => congrArg (Except.ok ∘ integer) n.zero_add,
    isNeutralRight_integer fun n => congrArg (Except.ok ∘ integer) n.sub_zero⟩

/-- Quotients and powers do not wrap around where the second operand is one. -/
theorem one_neutral :
    IsNeutralRight .times (integer 1) ∧ IsNeutralLeft .times (integer 1) ∧
      IsNeutralRight .divide (integer 1) ∧ IsNeutralRight .power (integer 1) := by
  refine ⟨isNeutralRight_integer fun n => congrArg (Except.ok ∘ integer) n.mul_one,
    isNeutralLeft_integer fun n => congrArg (Except.ok ∘ integer) n.one_mul,
    isNeutralRight_integer fun n => ?_,
    isNeutralRight_integer fun n => congrArg (integer <$> ·) (integerPower_one n)⟩
  have hone : (1 : Int32) ≠ 0 := by decide
  simp only [binaryInteger, if_neg hone, Int32.div_one]

theorem false_neutral :
    IsNeutralRight .or (boolean false) ∧ IsNeutralLeft .or (boolean false) ∧
      IsNeutralRight .xor (boolean false) ∧ IsNeutralLeft .xor (boolean false) :=
  ⟨isNeutralRight_boolean fun c => congrArg (Except.ok ∘ boolean) c.or_false,
    isNeutralLeft_boolean fun c => congrArg (Except.ok ∘ boolean) c.false_or,
    isNeutralRight_boolean fun c => congrArg (Except.ok ∘ boolean) c.xor_false,
    isNeutralLeft_boolean fun c => congrArg (Except.ok ∘ boolean) c.false_xor⟩

theorem true_neutral :
    IsNeutralRight .and (boolean true) ∧ IsNeutralLeft .and (boolean true) :=
  ⟨isNeutralRight_boolean fun c => congrArg (Except.ok ∘ boolean) c.and_true,
    isNeutralLeft_boolean fun c => congrArg (Except.ok ∘ boolean) c.true_and⟩

end Element

/-! ## Filled arrays -/

theorem Kind.common?_self (hk : k.isBasic = true) : k.common? k = some k := by
  cases k <;> first | rfl | cases hk

/-- A null or identity array that is a scalar or has the extents of the other array. -/
structure Shape.IsSentinelFor (t s : Shape) : Prop where
  sentinel : t.element.isSentinel = true
  known : t.hasOpenExtent = false
  extents : t.rank = .scalar ∨ t.dims = s.dims

/-- A scalar, or an array of the extents of the other one, that has its kind and holds nothing but
one element. -/
structure Shape.IsFilledFor (u s : Shape) (b : Buffer) (r : Element) : Prop where
  operand : u.IsOperand b
  element : u.element = s.element
  extents : u.rank = .scalar ∨ u.dims = s.dims
  elements : b.elements = List.replicate u.size r
  kind : r.kind = s.element

namespace Shape

/-- **A null or identity array** is filled with the element that its own one is promoted to. -/
theorem IsSentinelFor.exists_filled (h : t.IsSentinelFor s) (hx : s.IsOperand x)
    (he : e.kind = t.element) (hr : e.promote s.element = .ok r) :
    ∃ u b, u.IsFilledFor s b r ∧
      (Value.sentinel t).fillSentinel s.element = .ok (Value.stored u b) := by
  obtain ⟨b, hfits, hall, hfill⟩ := Value.exists_filled_elements he h.sentinel hr hx.isBasic
  have hnonempty : (t.withElement s.element).isEmptyArray = false := by
    rcases h.extents with hrank | hdims
    · exact isEmptyArray_of_scalar hrank
    · exact (isEmptyArray_congr hdims).trans hx.nonempty
  exact ⟨t.withElement s.element, b, ⟨⟨hfits, h.known, hnonempty⟩, rfl, h.extents, hall,
    Element.kind_of_promote hr⟩, hfill⟩

namespace IsFilledFor

variable (h : u.IsFilledFor s b r)
include h

theorem meet (hx : s.IsOperand x) : s.element.common? u.element = some s.element := by
  rw [h.element]
  exact Kind.common?_self hx.isBasic

theorem conforms : s.Conforms u := by
  rcases h.extents with hrank | hdims
  · exact .inr (.inl hrank)
  · exact .inr (.inr (extents_congr hdims.symm))

/-- An answer has the shape of the other array. -/
theorem spread_eq (hx : s.IsOperand x) (htext : s.isString = false) :
    s.spread u s.element = s := by
  have hextents : (if s.rank = .scalar then u.extents else s.extents) = s.extents := by
    split
    · rename_i hrank
      have hdims : u.dims = s.dims :=
        h.extents.elim (fun hu => (dims_of_scalar hu).trans (dims_of_scalar hrank).symm) id
      exact extents_congr hdims
    · rfl
  unfold spread
  rw [hextents, ← htext]
  exact ofExtents_extents hx.nonempty

/-- Its element is there for every position of the other array. -/
theorem supplyAs_eq (hpos : pos < s.size) :
    (Value.stored u b).supplyAs s.element ((Value.stored u b).rank? = some .scalar) pos =
      .ok r := by
  have hlt : (if u.rank = .scalar then 0 else pos) < b.elements.length := by
    rw [h.elements, List.length_replicate]
    split
    · rename_i hrank
      exact size_of_scalar hrank ▸ Nat.one_pos
    · rename_i hrank
      exact size_congr (h.extents.resolve_left hrank) ▸ hpos
  have hsole : b.elements[if u.rank = .scalar then 0 else pos] = r := by
    simp only [h.elements, List.getElem_replicate]
  unfold Value.supplyAs Value.supply
  show ((Value.stored u b).element (if decide (some u.rank = some .scalar) = true then 0 else pos)
    >>= _) = _
  simp only [Option.some.injEq, decide_eq_true_eq]
  rw [Value.element_stored_of_lt h.operand.fits hlt, hsole]
  exact Element.promote_of_kind h.kind

/-- For these positions it supplies nothing but copies. -/
theorem supplies (hc : c.kind = s.element) (hcopies : c.elements = List.replicate s.size r) :
    (Value.stored u b).Supplies s.element s.size c := by
  have hlength : c.elements.length = s.size := by rw [hcopies, List.length_replicate]
  refine ⟨hc, ?_⟩
  rw [← hlength]
  refine Result.mapM_range_eq_ok fun pos hpos => ?_
  rw [h.supplyAs_eq (hlength ▸ hpos)]
  simp only [hcopies, List.getElem_replicate]

theorem kind_getElem (hx : s.IsOperand x) (hpos : pos < x.elements.length) :
    x.elements[pos].kind = r.kind := by
  rw [Buffer.kind_of_mem_elements (List.getElem_mem hpos), hx.fits.kind, h.kind]

/-- **A pair** has the element of the other array on the one side. -/
theorem pairAt_right (hx : s.IsOperand x) (hpos : pos < x.elements.length) :
    Value.pairAt op s.element (Value.stored s x) (Value.stored u b) pos =
      Element.binary op x.elements[pos] r := by
  have hpos' : pos < s.size := by rwa [← hx.fits.size, ← Buffer.length_elements]
  unfold Value.pairAt
  rw [Value.supplyAs_stored hx.fits rfl hpos, h.supplyAs_eq hpos']
  rfl

/-- A pair has the element of the other array on the other side. -/
theorem pairAt_left (hx : s.IsOperand x) (hpos : pos < x.elements.length) :
    Value.pairAt op s.element (Value.stored u b) (Value.stored s x) pos =
      Element.binary op r x.elements[pos] := by
  have hpos' : pos < s.size := by rwa [← hx.fits.size, ← Buffer.length_elements]
  unfold Value.pairAt
  rw [Value.supplyAs_stored hx.fits rfl hpos, h.supplyAs_eq hpos']
  rfl

end IsFilledFor

end Shape

namespace Value

/-! ## Beside another array -/

theorem withoutSentinels_right (hx : s.IsOperand x) (hsentinel : t.element.isSentinel = true)
    (hfill : (sentinel t).fillSentinel s.element = .ok w) :
    withoutSentinels (stored s x) (sentinel t) = .ok (stored s x, w) := by
  unfold withoutSentinels
  rw [isSentinel_stored hx.fits, show (sentinel t).isSentinel = true from hsentinel]
  show ((stored s x).basicKind >>= _) = _
  rw [basicKind_stored hx]
  show ((sentinel t).fillSentinel s.element >>= _) = _
  rw [hfill]
  rfl

theorem withoutSentinels_left (hx : s.IsOperand x) (hsentinel : t.element.isSentinel = true)
    (hfill : (sentinel t).fillSentinel s.element = .ok w) :
    withoutSentinels (sentinel t) (stored s x) = .ok (w, stored s x) := by
  rw [withoutSentinels_comm, withoutSentinels_right hx hsentinel hfill]
  rfl

/-- **Arrays that are stored** once null and identity ones are filled are treated as what is stored.
-/
theorem binary_of_ready (hplain : binary op v n = binaryPlain op v n) (hv : v.interval? = none)
    (hn : n.interval? = none) (hs : v.shape? = some s) (ht : n.shape? = some t)
    (hready : withoutSentinels v n = .ok (stored s' x, stored t' y)) (hx : s'.IsOperand x)
    (hy : t'.IsOperand y) (hrange : op ≠ .range) (hstep : op ≠ .step) :
    binary op v n = binary op (stored s' x) (stored t' y) := by
  rw [hplain, binaryPlain_eq_arrays hv hn hrange hstep, arrays_eq hs ht, hready,
    binary_stored hx hy hrange hstep]
  show (if s'.isEmptyArray || t'.isEmptyArray then _ else arraysOfKinds op _ _) = _
  rw [hx.nonempty, hy.nonempty]
  rfl

/-- A null or identity array acts as what it is filled with. -/
theorem binary_filled_right (hx : s.IsOperand x) (hsentinel : t.element.isSentinel = true)
    (hb : u.IsOperand b) (hfill : (sentinel t).fillSentinel s.element = .ok (stored u b))
    (hrange : op ≠ .range) (hstep : op ≠ .step) :
    binary op (stored s x) (sentinel t) = binary op (stored s x) (stored u b) := by
  refine binary_of_ready ?_ rfl rfl rfl rfl (withoutSentinels_right hx hsentinel hfill) hx hb
    hrange hstep
  unfold binary
  rfl

/-- A null or identity array also acts so on the other side. -/
theorem binary_filled_left (hx : s.IsOperand x) (hsentinel : t.element.isSentinel = true)
    (hb : u.IsOperand b) (hfill : (sentinel t).fillSentinel s.element = .ok (stored u b))
    (hrange : op ≠ .range) (hstep : op ≠ .step) :
    binary op (sentinel t) (stored s x) = binary op (stored u b) (stored s x) := by
  refine binary_of_ready ?_ rfl rfl rfl rfl (withoutSentinels_left hx hsentinel hfill) hb hx
    hrange hstep
  unfold binary
  rfl

section Filled

variable (hx : s.IsOperand x) (htext : s.isString = false) (hu : u.IsFilledFor s b r)
  (hop : op.isPointwise = true) (hkind : op.resultKind? s.element = some s.element)
include hx htext hu hop hkind

/-- **Beside one element**, an array has what the operator makes of each of its own with it. -/
theorem binary_eq_stored_right (hc : s.Fits c)
    (hresults : ∀ pos (hpos : pos < x.elements.length) (hpos' : pos < c.elements.length),
      Element.binary op x.elements[pos] r = .ok c.elements[pos]) :
    binary op (stored s x) (stored u b) = .ok (stored s c) := by
  have hspread : s.spread u s.element = s := hu.spread_eq hx htext
  have hsize : x.elements.length = c.elements.length := by
    rw [Buffer.length_elements, Buffer.length_elements, hx.fits.size, hc.size]
  have hpairs (pos : Nat) (hpos : pos < c.elements.length) :
      pairAt op s.element (stored s x) (stored u b) pos = .ok c.elements[pos] :=
    (hu.pairAt_right hx (hsize ▸ hpos)).trans (hresults pos (hsize ▸ hpos) hpos)
  rw [binary_eq_stored hx hu.operand hop (hu.meet hx) hkind hu.conforms (hspread.symm ▸ hc) hpairs,
    hspread]

/-- The element may also be the first operand. -/
theorem binary_eq_stored_left (hc : s.Fits c)
    (hresults : ∀ pos (hpos : pos < x.elements.length) (hpos' : pos < c.elements.length),
      Element.binary op r x.elements[pos] = .ok c.elements[pos]) :
    binary op (stored u b) (stored s x) = .ok (stored s c) := by
  have hconforms : u.Conforms s := hu.conforms.symm
  have hspread : u.spread s s.element = s :=
    (Shape.spread_comm hconforms s.element).trans (hu.spread_eq hx htext)
  have hmeet : u.element.common? s.element = some s.element :=
    (Kind.common?_comm u.element s.element).trans (hu.meet hx)
  have hsize : x.elements.length = c.elements.length := by
    rw [Buffer.length_elements, Buffer.length_elements, hx.fits.size, hc.size]
  have hpairs (pos : Nat) (hpos : pos < c.elements.length) :
      pairAt op s.element (stored u b) (stored s x) pos = .ok c.elements[pos] :=
    (hu.pairAt_left hx (hsize ▸ hpos)).trans (hresults pos (hsize ▸ hpos) hpos)
  rw [binary_eq_stored hu.operand hx hop hmeet hkind hconforms (hspread.symm ▸ hc) hpairs, hspread]

end Filled

section Neutral

variable (hx : s.IsOperand x) (htext : s.isString = false) (ht : t.IsSentinelFor s)
  (he : e.kind = t.element) (hr : e.promote s.element = .ok r) (hop : op.isPointwise = true)
  (hkind : op.resultKind? s.element = some s.element)
include hx htext ht he hr hop hkind

/-- **A null or identity array on the right** leaves the other one as it is where its element
changes nothing. -/
theorem binary_sentinel_right (hneutral : r.IsNeutralRight op) :
    binary op (stored s x) (sentinel t) = .ok (stored s x) := by
  obtain ⟨u, b, hu, hfill⟩ := ht.exists_filled hx he hr
  rw [binary_filled_right hx ht.sentinel hu.operand hfill (BinaryOp.ne_range_of_pointwise hop)
    (BinaryOp.ne_step_of_pointwise hop)]
  exact binary_eq_stored_right hx htext hu hop hkind hx.fits fun pos hpos _ =>
    hneutral _ (hu.kind_getElem hx hpos)

/-- **A null or identity array on the left** leaves the other one as it is where its element changes
nothing. -/
theorem binary_sentinel_left (hneutral : r.IsNeutralLeft op) :
    binary op (sentinel t) (stored s x) = .ok (stored s x) := by
  obtain ⟨u, b, hu, hfill⟩ := ht.exists_filled hx he hr
  rw [binary_filled_left hx ht.sentinel hu.operand hfill (BinaryOp.ne_range_of_pointwise hop)
    (BinaryOp.ne_step_of_pointwise hop)]
  exact binary_eq_stored_left hx htext hu hop hkind hx.fits fun pos hpos _ =>
    hneutral _ (hu.kind_getElem hx hpos)

end Neutral

/-! ## Integers and booleans -/

/-- A null or identity array beside one of a kind that its element is promoted to. -/
theorem sentinel_beside (hv : v.WellFormed) (hs : v.shape? = some s)
    (harray : s.isEmptyArray = false) (htext : s.isString = false) (hn : n.WellFormed)
    (ht : n.shape? = some t) (hfit : t.rank = .scalar ∨ t.dims = s.dims) (e : Element)
    (he : t.element = e.kind) (hsentinel : e.kind.isSentinel = true) (hk : s.element = k)
    (hr : e.promote k = .ok r) (op : BinaryOp) (hop : op.isPointwise = true)
    (hkind : op.resultKind? k = some k) :
    (r.IsNeutralRight op → binary op v n = .ok v) ∧
      (r.IsNeutralLeft op → binary op n v = .ok v) := by
  subst hk
  obtain ⟨x, hx, rfl⟩ := hv.exists_operand hs harray (BinaryOp.isBasic_of_resultKind? hkind).1
  have hsentinel' : n.isSentinel = true := by rw [isSentinel_eq ht, he, hsentinel]
  obtain ⟨t', rfl, -⟩ := hn.eq_sentinel hsentinel'
  obtain rfl : t' = t := Option.some.inj ht
  have hbeside : t'.IsSentinelFor s := ⟨hsentinel', hn.known rfl, hfit⟩
  exact ⟨binary_sentinel_right hx htext hbeside he.symm hr hop hkind,
    binary_sentinel_left hx htext hbeside he.symm hr hop hkind⟩

/-- **The neutral elements** of an array of integers or booleans that is not marked as a text,
whatever its extents and entries. Beside it null stands for zeros and identity for ones, be it a
scalar or of the extents of the array. Zeros are added on either side, or subtracted; ones are
factors on either side, divisors or exponents. For booleans these are false and true, and the
operators the logical ones. The answer is always the array itself. -/
theorem neutral_elements (hv : v.WellFormed) (hs : v.shape? = some s)
    (harray : s.isEmptyArray = false) (htext : s.isString = false) (hn : n.WellFormed)
    (ht : n.shape? = some t) (hfit : t.rank = .scalar ∨ t.dims = s.dims) :
    (s.element = .integer →
      (t.element = .null →
        binary .plus v n = .ok v ∧ binary .plus n v = .ok v ∧ binary .minus v n = .ok v) ∧
      (t.element = .identity →
        binary .times v n = .ok v ∧ binary .times n v = .ok v ∧ binary .divide v n = .ok v ∧
          binary .power v n = .ok v)) ∧
    (s.element = .boolean →
      (t.element = .null →
        binary .or v n = .ok v ∧ binary .or n v = .ok v ∧ binary .xor v n = .ok v ∧
          binary .xor n v = .ok v) ∧
      (t.element = .identity → binary .and v n = .ok v ∧ binary .and n v = .ok v)) := by
  have beside {k : Kind} {r : Element} (e : Element) (he : t.element = e.kind) :=
    sentinel_beside (k := k) (r := r) hv hs harray htext hn ht hfit e he
  refine ⟨fun hk => ⟨fun hnull => ?_, fun hidentity => ?_⟩,
    fun hk => ⟨fun hnull => ?_, fun hidentity => ?_⟩⟩
  · have zeros := beside .null hnull rfl hk rfl
    obtain ⟨hright, hleft, hminus⟩ := Element.zero_neutral
    exact ⟨(zeros .plus rfl rfl).1 hright, (zeros .plus rfl rfl).2 hleft,
      (zeros .minus rfl rfl).1 hminus⟩
  · have ones := beside .identity hidentity rfl hk rfl
    obtain ⟨hright, hleft, hdivide, hpower⟩ := Element.one_neutral
    exact ⟨(ones .times rfl rfl).1 hright, (ones .times rfl rfl).2 hleft,
      (ones .divide rfl rfl).1 hdivide, (ones .power rfl rfl).1 hpower⟩
  · have falses := beside .null hnull rfl hk rfl
    obtain ⟨hor, hor', hxor, hxor'⟩ := Element.false_neutral
    exact ⟨(falses .or rfl rfl).1 hor, (falses .or rfl rfl).2 hor', (falses .xor rfl rfl).1 hxor,
      (falses .xor rfl rfl).2 hxor'⟩
  · have trues := beside .identity hidentity rfl hk rfl
    obtain ⟨hright, hleft⟩ := Element.true_neutral
    exact ⟨(trues .and rfl rfl).1 hright, (trues .and rfl rfl).2 hleft⟩

/-- The least integer, as an entry of a matrix, is left by the scalar identity and by a matrix of
nulls, and an empty row of booleans by the scalar null. -/
theorem neutral_elements_least :
    let grid := stored (Shape.matrix .integer 2 2) (.integers #[Int32.minValue, 0, -1, 7])
    let nulls := sentinel (Shape.matrix .null 2 2)
    let row := stored (Shape.vector .boolean 0) (.booleans #[])
    grid.WellFormed ∧ nulls.WellFormed ∧ identity.WellFormed ∧ row.WellFormed ∧ null.WellFormed ∧
      binary .plus nulls grid = .ok grid ∧ binary .divide grid identity = .ok grid ∧
      binary .power grid identity = .ok grid ∧ binary .or null row = .ok row := by
  intro grid nulls row
  have hgrid : grid.WellFormed := .stored ⟨rfl, rfl⟩ rfl
  have hnulls : nulls.WellFormed := .sentinel rfl rfl
  have hidentity : identity.WellFormed := .sentinel rfl rfl
  have hrow : row.WellFormed := .stored ⟨rfl, rfl⟩ rfl
  have hnull : null.WellFormed := .sentinel rfl rfl
  obtain ⟨-, hplus, -⟩ :=
    ((neutral_elements hgrid rfl rfl rfl hnulls rfl (.inr rfl)).1 rfl).1 rfl
  obtain ⟨-, -, hdivide, hpower⟩ :=
    ((neutral_elements hgrid rfl rfl rfl hidentity rfl (.inl rfl)).1 rfl).2 rfl
  obtain ⟨-, hor, -, -⟩ := ((neutral_elements hrow rfl rfl rfl hnull rfl (.inl rfl)).2 rfl).1 rfl
  exact ⟨hgrid, hnulls, hidentity, hrow, hnull, hplus, hdivide, hpower, hor⟩

end Value

end ArrayMachine
