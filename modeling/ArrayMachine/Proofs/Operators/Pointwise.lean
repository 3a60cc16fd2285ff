import ArrayMachine.Proofs.Operators.InPlace
import ArrayMachine.Proofs.Value.Assigned
import ArrayMachine.Proofs.Value.Faults

/-!
# Operators, position by position

The arithmetic, logical and ordering operators apply to arrays position by position. First the
operands become alike: both are promoted to the kind at which they meet, and a scalar is copied to
every position of the other one's extents. In the end each position of the answer holds what the
operator makes of the two elements that the operands have for it, promoted (`Value.pairAt`), and a
scalar has the same one for all of them.

* `BinaryOp.arrayResult?_eq_table`: the operators that arrays have, kind by kind.
* `Element.fault_of_binary`: elements of a kind that has the operator only fail by division.
* `arraysOfKinds_promoted`: operands whose kinds meet, whatever the operator.
* `binary_eq_pairs`: operands that meet and fit.
* `binary_pointwise`: when there is an answer, which it is, and which fault comes first.
-/

namespace ArrayMachine

/-! ## The operators -/

namespace BinaryOp

/-- The operators that apply to arrays position by position. -/
def isPointwise : BinaryOp → Bool
  | power | times | divide | remainder | plus | minus => true
  | less | greater | atMost | atLeast => true
  | and | or | xor => true
  | _ => false

/-- The operators that arrays have, written out kind by kind. -/
def arrayResultByTable? (op : BinaryOp) (kind : Kind) : Option ArrayResult :=
  match kind, op with
  | .boolean, equal | .boolean, unequal => some ⟨.boolean, true⟩
  | .boolean, and | .boolean, or | .boolean, xor | .boolean, concat => some ⟨.boolean, false⟩
  | .character, concat => some ⟨.character, false⟩
  | .integer, equal | .integer, unequal | .real, equal | .real, unequal => some ⟨.boolean, true⟩
  | .integer, less | .integer, greater | .integer, atMost | .integer, atLeast
  | .real, less | .real, greater | .real, atMost | .real, atLeast => some ⟨.boolean, false⟩
  | .integer, dot | .real, dot => some ⟨kind, true⟩
  | .integer, power | .integer, times | .integer, divide | .integer, remainder | .integer, plus
  | .integer, minus | .integer, concat
  | .real, power | .real, times | .real, divide | .real, remainder | .real, plus | .real, minus
  | .real, concat => some ⟨kind, false⟩
  | _, _ => none

variable {op : BinaryOp} {kind result : Kind}

/-- The table for arrays and the one for elements agree. -/
theorem arrayResult?_eq_table (op : BinaryOp) (kind : Kind) :
    op.arrayResult? kind = op.arrayResultByTable? kind := by
  cases op <;> cases kind <;> rfl

theorem ne_range_of_pointwise (hop : op.isPointwise = true) : op ≠ .range := by
  rintro rfl
  cases hop

theorem ne_step_of_pointwise (hop : op.isPointwise = true) : op ≠ .step := by
  rintro rfl
  cases hop

/-- Position by position, arrays have the operators that their elements have. -/
theorem arrayResult?_of_pointwise (hop : op.isPointwise = true) (kind : Kind) :
    op.arrayResult? kind = (op.resultKind? kind).map (⟨·, false⟩) := by
  cases op <;> first | rfl | cases hop

end BinaryOp

namespace Element

variable {op : BinaryOp} {e f : Element} {kind result : Kind} {fault : Fault}

theorem fault_of_integerPower {base exponent : Int32}
    (h : integerPower base exponent = .error fault) : ∃ text, fault = .divisionByZero text := by
  unfold integerPower at h
  split at h
  · split at h
    · exact ⟨_, (Except.error.inj h).symm⟩
    · split at h
      · cases h
      · split at h <;> cases h
  · cases h

theorem fault_of_binaryInteger {x y : Int32} (hop : op.resultKind? .integer = some result)
    (h : binaryInteger op x y = .error fault) : ∃ text, fault = .divisionByZero text := by
  cases op with
  | power => exact fault_of_integerPower (Result.map_eq_error_iff.mp h)
  | divide | remainder =>
    simp only [binaryInteger] at h
    split at h
    · exact ⟨_, (Except.error.inj h).symm⟩
    · cases h
  | times | plus | minus | less | greater | atMost | atLeast | equal | unequal => cases h
  | range | dot | step | and | or | xor | concat => cases hop

theorem exists_binaryBoolean (x y : Bool) (hop : op.resultKind? .boolean = some result) :
    ∃ r, binaryBoolean op x y = .ok r := by
  cases op <;> first | exact ⟨_, rfl⟩ | cases hop

theorem exists_binaryReal (x y : Single) (hop : op.resultKind? .real = some result) :
    ∃ r, binaryReal op x y = .ok r := by
  cases op <;> first | exact ⟨_, rfl⟩ | cases hop

/-- **Elements of one kind that has the operator** can only fail by a division by zero. -/
theorem fault_of_binary (he : e.kind = kind) (hf : f.kind = kind)
    (hop : op.resultKind? kind = some result) (h : binary op e f = .error fault) :
    ∃ text, fault = .divisionByZero text := by
  subst he
  cases e with
  | boolean x =>
    cases f <;> cases hf
    obtain ⟨r, hr⟩ := exists_binaryBoolean x _ hop
    cases hr.symm.trans h
  | integer x =>
    cases f <;> cases hf
    exact fault_of_binaryInteger hop h
  | real x =>
    cases f <;> cases hf
    obtain ⟨r, hr⟩ := exists_binaryReal x _ hop
    cases hr.symm.trans h
  | character x => cases hop
  | null => cases hop
  | identity => cases hop

end Element

namespace Shape

/-! ## Extents that fit -/

/-- Two arrays have the same extents, or one of them is a scalar. -/
def Conforms (s t : Shape) : Prop :=
  s.rank = .scalar ∨ t.rank = .scalar ∨ s.extents = t.extents

instance (s t : Shape) : Decidable (s.Conforms t) :=
  inferInstanceAs (Decidable (_ ∨ _ ∨ _))

/-- The extents of the one array, or of the other if the one is a scalar. -/
def spread (s t : Shape) (kind : Kind) : Shape :=
  ofExtents kind (if s.rank = .scalar then t.extents else s.extents) false

variable {s t : Shape}

theorem dims_of_extents (h : s.isEmptyArray = false) : s.dims = .fixed s.extents :=
  congrArg dims (ofExtents_extents h).symm

theorem dims_of_scalar (h : s.rank = .scalar) : s.dims = .fixed [] := by
  unfold rank at h
  split at h <;> first | assumption | cases h

theorem isEmptyArray_of_scalar (h : s.rank = .scalar) : s.isEmptyArray = false := by
  unfold isEmptyArray
  rw [h]
  rfl

theorem rank_congr (h : s.dims = t.dims) : s.rank = t.rank := by
  unfold rank
  rw [h]

theorem extents_congr (h : s.dims = t.dims) : s.extents = t.extents := by
  unfold extents
  rw [h]

theorem size_congr (h : s.dims = t.dims) : s.size = t.size := by
  unfold size extent
  rw [rank_congr h, extents_congr h]

theorem isEmptyArray_congr (h : s.dims = t.dims) : s.isEmptyArray = t.isEmptyArray := by
  unfold isEmptyArray
  rw [rank_congr h]

theorem hasOpenExtent_congr (h : s.dims = t.dims) : s.hasOpenExtent = t.hasOpenExtent := by
  unfold hasOpenExtent
  rw [extents_congr h]

theorem dims_spread (hs : s.isEmptyArray = false) (ht : t.isEmptyArray = false) (kind : Kind) :
    (s.spread t kind).dims = if s.rank = .scalar then t.dims else s.dims := by
  show Dims.fixed (if s.rank = .scalar then t.extents else s.extents) = _
  split
  · exact (dims_of_extents ht).symm
  · exact (dims_of_extents hs).symm

theorem hasOpenExtent_spread (hs : s.hasOpenExtent = false) (ht : t.hasOpenExtent = false)
    (kind : Kind) : (s.spread t kind).hasOpenExtent = false := by
  show (if s.rank = .scalar then t.extents else s.extents).any Option.isNone = false
  split
  · exact ht
  · exact hs

/-- The shape of what an operator gives, whose kind no text has. -/
theorem withElement_eq_spread {u : Shape} {kind : Kind} (hkind : kind ≠ .character)
    (h : u.dims = (s.spread t kind).dims) : u.withElement kind = s.spread t kind := by
  unfold withElement
  rw [h, decide_eq_false hkind, Bool.and_false]
  rfl

/-- A buffer under a shape of known extents, not the shape of the empty array. -/
structure IsOperand (s : Shape) (x : Buffer) : Prop where
  fits : s.Fits x
  known : s.hasOpenExtent = false
  nonempty : s.isEmptyArray = false

theorem IsOperand.isBasic {x : Buffer} (h : s.IsOperand x) : s.element.isBasic = true := by
  rw [← h.fits.kind]
  exact x.isBasic_kind

end Shape

variable {op : BinaryOp} {s t s' t' u : Shape} {x y c d : Buffer} {k kind : Kind} {a b v w : Value}

/-- A buffer of copies of an element of its kind. -/
theorem Buffer.exists_filled {e : Element} (n : Nat) (hk : k.isBasic = true) (he : e.kind = k) :
    ∃ b, filled k n e = .ok b ∧ b.kind = k ∧ b.elements = List.replicate n e := by
  obtain ⟨b, hb⟩ : ∃ b, filled k n e = .ok b := by
    subst he
    cases e with
    | null => cases hk
    | identity => cases hk
    | _ => exact ⟨_, rfl⟩
  obtain ⟨hkind, r, hr, hall⟩ := elements_filled hb
  rw [Element.promote_of_kind he] at hr
  exact ⟨b, hb, hkind, Except.ok.inj hr ▸ hall⟩

namespace Value

/-- What an operator makes of the elements that two arrays have for a position, promoted to a
kind. -/
def pairAt (op : BinaryOp) (kind : Kind) (a b : Value) (pos : Nat) : Result Element := do
  Element.binary op (← a.supplyAs kind (a.rank? = some .scalar) pos)
    (← b.supplyAs kind (b.rank? = some .scalar) pos)

/-! ## Operands made alike -/

/-- A buffer holds what an array has for each of `n` positions, promoted to a kind. -/
structure Supplies (v : Value) (k : Kind) (n : Nat) (c : Buffer) : Prop where
  kind : c.kind = k
  elements : (List.range n).mapM (v.supplyAs k (v.rank? = some .scalar)) = .ok c.elements

theorem Supplies.length {n : Nat} (h : v.Supplies k n c) : c.length = n := by
  rw [← Buffer.length_elements, Result.length_of_mapM h.elements, List.length_range]

theorem Supplies.supplyAs_eq {n i : Nat} (h : v.Supplies k n c) (hi : i < c.elements.length) :
    v.supplyAs k (v.rank? = some .scalar) i = .ok c.elements[i] :=
  Result.getElem_of_mapM_range h.elements hi

/-- For a position it has, a stored array has its own element. A scalar has no other position. -/
theorem supply_stored (hx : s.Fits x) {i : Nat} (hi : i < x.elements.length) :
    (stored s x).supply ((stored s x).rank? = some .scalar) i = .ok x.elements[i] := by
  have hfirst : (if s.rank = .scalar then 0 else i) = i := by
    split
    · rename_i hrank
      rw [Buffer.length_elements, hx.size, Shape.size_of_scalar hrank] at hi
      omega
    · rfl
  rw [← element_stored_of_lt hx hi]
  show (stored s x).element (if decide (some s.rank = some .scalar) = true then 0 else i) = _
  simp only [Option.some.injEq, decide_eq_true_eq, hfirst]

/-- Where an array has the kind already, nothing is promoted. -/
theorem supplyAs_stored (hx : s.Fits x) (hk : s.element = k) {i : Nat}
    (hi : i < x.elements.length) :
    (stored s x).supplyAs k ((stored s x).rank? = some .scalar) i = .ok x.elements[i] := by
  have hkind : x.elements[i].kind = k :=
    (Buffer.kind_of_mem_elements (List.getElem_mem hi)).trans (hx.kind.trans hk)
  unfold supplyAs
  rw [supply_stored hx hi]
  exact Element.promote_of_kind hkind

/-- A stored array supplies its elements. -/
theorem supplies_stored (hx : s.Fits x) (hkind : c.kind = k)
    (hall : x.elements.mapM (Element.promote k) = .ok c.elements) :
    (stored s x).Supplies k s.size c := by
  refine ⟨hkind, ?_⟩
  rw [← hall, ← hx.size, ← Buffer.length_elements]
  refine Result.mapM_range fun i hi => ?_
  unfold supplyAs
  rw [supply_stored hx hi]
  rfl

/-- At its own kind it supplies what it stores. -/
theorem supplies_self (hx : s.Fits x) : (stored s x).Supplies s.element s.size x := by
  refine supplies_stored hx hx.kind (Result.mapM_eq_ok_iff.mpr ?_)
  exact List.map_congr_left fun e he =>
    Element.promote_of_kind ((Buffer.kind_of_mem_elements he).trans hx.kind)

/-- Under the extents of an array stands what the array has, promoted to a kind. -/
structure Promoted (s : Shape) (x : Buffer) (k : Kind) (u : Shape) (c : Buffer) : Prop where
  dims : u.dims = s.dims
  fits : u.Fits c
  supplies : (stored s x).Supplies k s.size c

/-- An array of a basic kind is promoted under the extents it has. -/
theorem promoteArray_stored (hx : s.IsOperand x) (hk : k.isBasic = true)
    (hpromotes : s.element.promotesTo k = true) :
    ∃ u c, (stored s x).promoteArray k = .ok (stored u c) ∧ Promoted s x k u c := by
  obtain ⟨fs, hfs⟩ : ∃ fs, x.elements.mapM (Element.promote k) = .ok fs := by
    refine Result.exists_mapM_eq_ok fun e he => Element.exists_promote ?_
    rwa [Buffer.kind_of_mem_elements he, hx.fits.kind]
  obtain ⟨c, hc⟩ := Buffer.exists_promote hk hfs
  obtain ⟨hckind, hall⟩ := Buffer.elements_promote hc
  have hsupplies := supplies_stored hx.fits hckind hall
  unfold promoteArray
  show ∃ u c, (if s.element = k then _ else _) = _ ∧ _
  by_cases hkind : s.element = k
  · obtain rfl : x = c := Except.ok.inj ((if_pos (hkind ▸ hx.fits.kind.symm)).symm.trans hc)
    exact ⟨s, x, if_pos hkind, rfl, hx.fits, hsupplies⟩
  · have hfits : (s.withElement k).Fits c :=
      ⟨hckind, hsupplies.length.trans (s.size_withElement k).symm⟩
    refine ⟨s.withElement k, c, ?_, rfl, hfits, hsupplies⟩
    rw [if_neg hkind]
    show (x.promote k >>= ofBuffer (s.withElement k)) = _
    rw [hc]
    exact ofBuffer_eq_ok_iff.mpr ⟨hfits, hx.known, rfl⟩

/-- The element of a scalar is copied to every position of a shape. -/
theorem Promoted.broadcast (h : Promoted s x k u c) (hs : s.rank = .scalar)
    (hk : k.isBasic = true) (ht : t.hasOpenExtent = false) :
    ∃ d, (stored u c).broadcast t = .ok (stored (t.withElement k) d) ∧
      (stored s x).Supplies k t.size d := by
  have hfirst : 0 < c.elements.length := by
    rw [Buffer.length_elements, h.supplies.length, Shape.size_of_scalar hs]
    exact Nat.one_pos
  have hkind : c.elements[0].kind = k :=
    (Buffer.kind_of_mem_elements (List.getElem_mem hfirst)).trans h.supplies.kind
  obtain ⟨d, hd, hdkind, hcopies⟩ := Buffer.exists_filled t.size hk hkind
  have hrank : (stored s x).rank? = some .scalar := congrArg some hs
  have hsupplies : (stored s x).Supplies k t.size d := by
    refine ⟨hdkind, ?_⟩
    rw [hcopies, Result.mapM_eq_ok_iff, List.map_replicate]
    refine List.eq_replicate_iff.mpr ⟨by simp, fun r hr => ?_⟩
    obtain ⟨pos, -, rfl⟩ := List.mem_map.mp hr
    -- a scalar is read at its only position, whichever is asked for
    rw [← h.supplies.supplyAs_eq hfirst]
    unfold supplyAs supply
    simp only [hrank, decide_true, if_true]
  refine ⟨d, ?_, hsupplies⟩
  unfold Value.broadcast
  rw [element_stored_of_lt h.fits hfirst]
  show (Buffer.filled _ _ _ >>= ofBuffer (t.withElement _)) = _
  rw [hkind, hd]
  exact ofBuffer_eq_ok_iff.mpr
    ⟨⟨hdkind, hsupplies.length.trans (t.size_withElement k).symm⟩, ht, rfl⟩

/-! ## Aligned operands -/

theorem aligned_stored (op : BinaryOp) (s t : Shape) (c d : Buffer) :
    aligned op (stored s c) (stored t d) =
      if s.rank = .scalar then
        if t.rank = .scalar then .ok (stored s c, stored t d)
        else do return (← (stored s c).broadcast t, stored t d)
      else if t.rank = .scalar then do return (stored s c, ← (stored t d).broadcast s)
      else if s.extents = t.extents then .ok (stored s c, stored t d)
      else .error (.dimensionMismatch
        s!"`{op.symbol}` between {(stored s c).type} and {(stored t d).type}") := by
  unfold aligned
  simp only [show (stored s c).arrayShape = .ok s from rfl,
    show (stored t d).arrayShape = .ok t from rfl, bind, Except.bind]
  cases hs : s.rank <;> cases ht : t.rank <;> rfl

/-- **Operands whose extents fit are aligned** under the extents of the one that is not a scalar. -/
theorem aligned_promoted (hx : s.IsOperand x) (hy : t.IsOperand y) (ha : Promoted s x k s' c)
    (hb : Promoted t y k t' d) (hk : k.isBasic = true) (hfit : s.Conforms t) (op : BinaryOp)
    (kind : Kind) :
    ∃ p q c' d', aligned op (stored s' c) (stored t' d) = .ok (stored p c', stored q d') ∧
      p.dims = (s.spread t kind).dims ∧
      (stored s x).Supplies k (s.spread t kind).size c' ∧
      (stored t y).Supplies k (s.spread t kind).size d' := by
  have hdims := Shape.dims_spread hx.nonempty hy.nonempty kind
  rw [aligned_stored, Shape.rank_congr ha.dims, Shape.rank_congr hb.dims]
  -- by which of the two are scalars; of two scalars, none is copied
  by_cases hsrank : s.rank = .scalar
  · rw [if_pos hsrank] at hdims ⊢
    rw [Shape.size_congr hdims]
    by_cases htrank : t.rank = .scalar
    · have hsame : s.dims = t.dims := by
        rw [Shape.dims_of_scalar hsrank, Shape.dims_of_scalar htrank]
      rw [if_pos htrank]
      exact ⟨s', t', c, d, rfl, by rw [ha.dims, hsame, hdims],
        Shape.size_congr hsame ▸ ha.supplies, hb.supplies⟩
    · obtain ⟨c', hc', hsupplies⟩ :=
        ha.broadcast hsrank hk ((Shape.hasOpenExtent_congr hb.dims).trans hy.known)
      rw [if_neg htrank, hc']
      exact ⟨_, t', c', d, rfl, hb.dims.trans hdims.symm,
        Shape.size_congr hb.dims ▸ hsupplies, hb.supplies⟩
  · rw [if_neg hsrank] at hdims ⊢
    rw [Shape.size_congr hdims]
    by_cases htrank : t.rank = .scalar
    · obtain ⟨d', hd', hsupplies⟩ :=
        hb.broadcast htrank hk ((Shape.hasOpenExtent_congr ha.dims).trans hx.known)
      rw [if_pos htrank, hd']
      exact ⟨s', _, c, d', rfl, ha.dims.trans hdims.symm, ha.supplies,
        Shape.size_congr ha.dims ▸ hsupplies⟩
    · have hextents : s.extents = t.extents := (hfit.resolve_left hsrank).resolve_left htrank
      have hsame : s.dims = t.dims := by
        rw [Shape.dims_of_extents hx.nonempty, Shape.dims_of_extents hy.nonempty, hextents]
      rw [if_neg htrank, Shape.extents_congr ha.dims, Shape.extents_congr hb.dims,
        if_pos hextents]
      exact ⟨s', t', c, d, rfl, ha.dims.trans hdims.symm, ha.supplies,
        Shape.size_congr hsame ▸ hb.supplies⟩

/-- Operands whose extents do not fit are not aligned. -/
theorem aligned_of_not_conforms (ha : Promoted s x k s' c) (hb : Promoted t y k t' d)
    (hfit : ¬s.Conforms t) (op : BinaryOp) :
    ∃ text, aligned op (stored s' c) (stored t' d) = .error (.dimensionMismatch text) := by
  obtain ⟨hs, ht, hextents⟩ : s.rank ≠ .scalar ∧ t.rank ≠ .scalar ∧ s.extents ≠ t.extents := by
    simpa only [Shape.Conforms, not_or] using hfit
  rw [aligned_stored, Shape.rank_congr ha.dims, Shape.rank_congr hb.dims,
    Shape.extents_congr ha.dims, Shape.extents_congr hb.dims, if_neg hs, if_neg ht, if_neg hextents]
  exact ⟨_, rfl⟩

/-! ## Pairs of elements -/

theorem pairAt_of_supplies {n i : Nat} (ha : a.Supplies k n c) (hb : b.Supplies k n d)
    (hc : i < c.elements.length) (hd : i < d.elements.length) :
    pairAt op k a b i = Element.binary op c.elements[i] d.elements[i] := by
  unfold pairAt
  rw [ha.supplyAs_eq hc, hb.supplyAs_eq hd]
  rfl

/-- **An operator on two buffers** takes the elements that they have for the same position. -/
theorem elementwise_of_supplies {n : Nat} (ha : a.Supplies k n c) (hb : b.Supplies k n d)
    (hop : op.resultKind? k = some kind) :
    Buffer.elementwise op c d =
      (List.range n).mapM (pairAt op k a b) >>= Buffer.ofElements kind := by
  rw [Buffer.elementwise_eq_positions (ha.length.trans hb.length.symm) (ha.kind ▸ hop), ha.length]
  congr 1
  refine Result.mapM_congr fun pos hpos => ?_
  have hc : pos < c.elements.length := by
    rwa [Buffer.length_elements, ha.length, ← List.mem_range]
  have hd : pos < d.elements.length := by
    rwa [Buffer.length_elements, hb.length, ← List.mem_range]
  rw [pairAt_of_supplies ha hb hc hd, Buffer.get_of_lt hc, Buffer.get_of_lt hd]
  rfl

/-- What is made of a pair has the kind that the operator promises. -/
theorem kind_of_pairAt {pos : Nat} {e : Element} (hop : op.resultKind? k = some kind)
    (h : pairAt op k a b pos = .ok e) : e.kind = kind := by
  obtain ⟨e₁, h₁, h⟩ := Result.bind_eq_ok_iff.mp h
  obtain ⟨e₂, -, h⟩ := Result.bind_eq_ok_iff.mp h
  obtain ⟨e₀, -, h₁⟩ := Result.bind_eq_ok_iff.mp h₁
  have hkind := Element.kind_of_binary h
  rw [Element.kind_of_promote h₁, hop] at hkind
  exact (Option.some.inj hkind).symm

/-- Pairs of elements that have the operator can only fail by a division by zero. -/
theorem fault_of_pairAt {n pos : Nat} {fault : Fault} (ha : a.Supplies k n c)
    (hb : b.Supplies k n d) (hop : op.resultKind? k = some kind) (hpos : pos < n)
    (h : pairAt op k a b pos = .error fault) : ∃ text, fault = .divisionByZero text := by
  have hc : pos < c.elements.length := by rwa [Buffer.length_elements, ha.length]
  have hd : pos < d.elements.length := by rwa [Buffer.length_elements, hb.length]
  rw [pairAt_of_supplies ha hb hc hd] at h
  exact Element.fault_of_binary ((Buffer.kind_of_mem_elements (List.getElem_mem hc)).trans ha.kind)
    ((Buffer.kind_of_mem_elements (List.getElem_mem hd)).trans hb.kind) hop h

/-- Elements made of all pairs are stored. -/
theorem exists_ofBuffer_pairs {es : List Element} (hop : op.resultKind? k = some kind)
    (hknown : u.hasOpenExtent = false) (hkind : u.element = kind)
    (hes : (List.range u.size).mapM (pairAt op k a b) = .ok es) :
    ∃ r, Buffer.ofElements kind es >>= ofBuffer u = .ok (stored u r) ∧ u.Fits r ∧
      r.elements = es := by
  obtain ⟨hbasic, -⟩ := BinaryOp.isBasic_of_resultKind? hop
  obtain ⟨r, hr, hrkind, hall⟩ := Buffer.ofElements_of_kind hbasic fun e he => by
    obtain ⟨pos, -, hpos⟩ := Result.exists_of_mem_mapM hes he
    exact kind_of_pairAt hop hpos
  have hfits : u.Fits r := by
    refine ⟨hrkind.trans hkind.symm, ?_⟩
    rw [← Buffer.length_elements, hall, Result.length_of_mapM hes, List.length_range]
  refine ⟨r, ?_, hfits, hall⟩
  rw [hr]
  exact ofBuffer_eq_ok_iff.mpr ⟨hfits, hknown, rfl⟩

/-! ## Operators on stored arrays -/

theorem pointwise_aligned (halign : aligned op a b = .ok (stored s c, stored t d)) :
    pointwise op ⟨kind, false⟩ a b =
      Buffer.elementwise op c d >>= ofBuffer (s.withElement kind) := by
  unfold pointwise
  rw [halign]
  rfl

theorem basicKind_stored (hx : s.IsOperand x) : (stored s x).basicKind = .ok s.element := by
  show (if s.isEmptyArray || !s.element.isBasic then _ else Except.ok s.element) = _
  rw [hx.nonempty, hx.isBasic]
  rfl

/-- Operands that are no intervals go to the operators on arrays, unless for a range or a step. -/
theorem binaryPlain_eq_arrays (ha : a.interval? = none) (hb : b.interval? = none)
    (hrange : op ≠ .range) (hstep : op ≠ .step) : binaryPlain op a b = arrays op a b := by
  unfold binaryPlain
  split
  · exact absurd rfl hrange
  · exact absurd rfl hstep
  · rw [ha, hb]
    rfl

/-- Arrays of basic kinds go there as they are. -/
theorem binary_stored (hx : s.IsOperand x) (hy : t.IsOperand y) (hrange : op ≠ .range)
    (hstep : op ≠ .step) :
    binary op (stored s x) (stored t y) = arraysOfKinds op (stored s x) (stored t y) := by
  have hplain : binary op (stored s x) (stored t y) = binaryPlain op (stored s x) (stored t y) := by
    unfold binary
    rfl
  have hsentinels : withoutSentinels (stored s x) (stored t y) = .ok (stored s x, stored t y) := by
    unfold withoutSentinels
    rw [isSentinel_stored hx.fits, isSentinel_stored hy.fits]
  rw [hplain, binaryPlain_eq_arrays rfl rfl hrange hstep]
  unfold arrays
  rw [hsentinels]
  show (if s.isEmptyArray || t.isEmptyArray then _ else arraysOfKinds op _ _) = _
  rw [hx.nonempty, hy.nonempty]
  rfl

/-- Operands of kinds that do not meet are refused, whatever the operator. -/
theorem arraysOfKinds_of_common?_eq_none (hx : s.IsOperand x) (hy : t.IsOperand y)
    (hmeet : s.element.common? t.element = none) (op : BinaryOp) :
    ∃ text, arraysOfKinds op (stored s x) (stored t y) = .error (.typeMismatch text) := by
  unfold arraysOfKinds
  rw [basicKind_stored hx, basicKind_stored hy]
  show ∃ text, (meetingKind op s.element t.element >>= _) = _
  unfold meetingKind
  rw [hmeet]
  exact ⟨_, rfl⟩

/-- **Operands of kinds that meet** are promoted, and then the operator is looked up. -/
theorem arraysOfKinds_promoted (hx : s.IsOperand x) (hy : t.IsOperand y)
    (hmeet : s.element.common? t.element = some k) :
    ∃ s' t' c d, Promoted s x k s' c ∧ Promoted t y k t' d ∧
      (stored s x).promoteArray k = .ok (stored s' c) ∧
      (stored t y).promoteArray k = .ok (stored t' d) ∧
      ∀ op, arraysOfKinds op (stored s x) (stored t y) =
        match op.arrayResult? k with
        | none => .error (.invalidOperandKind s!"operator `{op.symbol}` is not defined for {k}")
        | some answer => match op with
          | .concat => concat (stored s' c) (stored t' d)
          | .dot => product (stored s' c) (stored t' d)
          | _ => pointwise op answer (stored s' c) (stored t' d) := by
  obtain ⟨hk, hsk, htk⟩ := Kind.promotesTo_common? hx.isBasic hy.isBasic hmeet
  obtain ⟨s', c, hpromote, ha⟩ := promoteArray_stored hx hk hsk
  obtain ⟨t', d, hpromote', hb⟩ := promoteArray_stored hy hk htk
  refine ⟨s', t', c, d, ha, hb, hpromote, hpromote', fun op => ?_⟩
  unfold arraysOfKinds
  rw [basicKind_stored hx, basicKind_stored hy]
  show (meetingKind op s.element t.element >>= _) = _
  unfold meetingKind
  rw [hmeet]
  show ((stored s x).promoteArray k >>= _) = _
  rw [hpromote]
  show ((stored t y).promoteArray k >>= _) = _
  rw [hpromote']
  rfl

/-- The operators position by position, between operands whose kinds meet. -/
theorem exists_promoted (hx : s.IsOperand x) (hy : t.IsOperand y) (hop : op.isPointwise = true)
    (hmeet : s.element.common? t.element = some k) :
    ∃ s' t' c d, Promoted s x k s' c ∧ Promoted t y k t' d ∧
      binary op (stored s x) (stored t y) =
        match op.resultKind? k with
        | none => .error (.invalidOperandKind s!"operator `{op.symbol}` is not defined for {k}")
        | some kind => pointwise op ⟨kind, false⟩ (stored s' c) (stored t' d) := by
  obtain ⟨s', t', c, d, ha, hb, -, -, happly⟩ := arraysOfKinds_promoted hx hy hmeet
  refine ⟨s', t', c, d, ha, hb, ?_⟩
  rw [binary_stored hx hy (BinaryOp.ne_range_of_pointwise hop) (BinaryOp.ne_step_of_pointwise hop),
    happly, BinaryOp.arrayResult?_of_pointwise hop]
  cases op.resultKind? k with
  | none => rfl
  | some kind => cases op <;> first | rfl | cases hop

/-- **Operands that meet and fit** have an element for every position, promoted, and what the
operator makes of the pairs is stored under the extents they share. -/
theorem binary_eq_pairs (hx : s.IsOperand x) (hy : t.IsOperand y) (hop : op.isPointwise = true)
    (hmeet : s.element.common? t.element = some k) (hkind : op.resultKind? k = some kind)
    (hfit : s.Conforms t) :
    (∃ c d, (stored s x).Supplies k (s.spread t kind).size c ∧
      (stored t y).Supplies k (s.spread t kind).size d) ∧
    binary op (stored s x) (stored t y) = (do
      let es ← (List.range (s.spread t kind).size).mapM (pairAt op k (stored s x) (stored t y))
      Buffer.ofElements kind es >>= ofBuffer (s.spread t kind)) := by
  obtain ⟨s', t', c, d, ha, hb, hbinary⟩ := exists_promoted hx hy hop hmeet
  obtain ⟨hk, -, -⟩ := Kind.promotesTo_common? hx.isBasic hy.isBasic hmeet
  obtain ⟨p, q, c', d', halign, hdims, hc', hd'⟩ := aligned_promoted hx hy ha hb hk hfit op kind
  refine ⟨⟨c', d', hc', hd'⟩, ?_⟩
  rw [hbinary, hkind]
  show pointwise op ⟨kind, false⟩ (stored s' c) (stored t' d) = _
  have hshape : p.withElement kind = s.spread t kind :=
    Shape.withElement_eq_spread (BinaryOp.isBasic_of_resultKind? hkind).2 hdims
  rw [pointwise_aligned halign, elementwise_of_supplies hc' hd' hkind, hshape, bind_assoc]

/-- They have an answer only where every pair has one. -/
theorem exists_pairAt_of_ok (hx : s.IsOperand x) (hy : t.IsOperand y) (hop : op.isPointwise = true)
    (hmeet : s.element.common? t.element = some k) (hkind : op.resultKind? k = some kind)
    (hfit : s.Conforms t) (h : binary op (stored s x) (stored t y) = .ok w) {pos : Nat}
    (hpos : pos < (s.spread t kind).size) :
    ∃ e, pairAt op k (stored s x) (stored t y) pos = .ok e := by
  rw [(binary_eq_pairs hx hy hop hmeet hkind hfit).2] at h
  obtain ⟨es, hes, -⟩ := Result.bind_eq_ok_iff.mp h
  have hlt : pos < es.length := by rwa [Result.length_of_mapM hes, List.length_range]
  exact ⟨es[pos], Result.getElem_of_mapM_range hes hlt⟩

/-- They have an answer where every pair has one, and it holds these. -/
theorem exists_binary (hx : s.IsOperand x) (hy : t.IsOperand y) (hop : op.isPointwise = true)
    (hmeet : s.element.common? t.element = some k) (hkind : op.resultKind? k = some kind)
    (hfit : s.Conforms t)
    (hpairs : ∀ pos < (s.spread t kind).size,
      ∃ e, pairAt op k (stored s x) (stored t y) pos = .ok e) :
    ∃ w, binary op (stored s x) (stored t y) = .ok w ∧ w.StoredAs (s.spread t kind) ∧
      ∀ pos < (s.spread t kind).size,
        w.element pos = pairAt op k (stored s x) (stored t y) pos := by
  obtain ⟨es, hes⟩ := Result.exists_mapM_eq_ok fun pos hpos => hpairs pos (List.mem_range.mp hpos)
  have hknown := Shape.hasOpenExtent_spread hx.known hy.known kind
  obtain ⟨r, hr, hfits, rfl⟩ := exists_ofBuffer_pairs hkind hknown rfl hes
  refine ⟨stored (s.spread t kind) r, ?_, ⟨r, hfits, rfl⟩, fun pos hpos => ?_⟩
  · rw [(binary_eq_pairs hx hy hop hmeet hkind hfit).2, hes]
    exact hr
  · have hlt : pos < r.elements.length := by rwa [Buffer.length_elements, hfits.size]
    rw [element_stored_of_lt hfits hlt, Result.getElem_of_mapM_range hes hlt]

/-- They fail as the first of their pairs that does, and that one divides by zero. -/
theorem exists_pairAt_of_fault (hx : s.IsOperand x) (hy : t.IsOperand y)
    (hop : op.isPointwise = true) (hmeet : s.element.common? t.element = some k)
    (hkind : op.resultKind? k = some kind) (hfit : s.Conforms t) {fault : Fault}
    (h : binary op (stored s x) (stored t y) = .error fault) :
    (∃ text, fault = .divisionByZero text) ∧
      ∃ pos < (s.spread t kind).size, pairAt op k (stored s x) (stored t y) pos = .error fault ∧
        ∀ earlier < pos, ∃ e, pairAt op k (stored s x) (stored t y) earlier = .ok e := by
  obtain ⟨⟨c, d, hc, hd⟩, hbinary⟩ := binary_eq_pairs hx hy hop hmeet hkind hfit
  rw [hbinary] at h
  cases hes : (List.range (s.spread t kind).size).mapM
      (pairAt op k (stored s x) (stored t y)) with
  | ok es =>
    have hknown := Shape.hasOpenExtent_spread hx.known hy.known kind
    obtain ⟨r, hr, -, -⟩ := exists_ofBuffer_pairs hkind hknown rfl hes
    rw [hes] at h
    cases hr.symm.trans h
  | error first =>
    rw [hes] at h
    obtain rfl := Except.error.inj h
    obtain ⟨pos, hpos, hfault, hearlier⟩ := Result.exists_of_mapM_error hes
    rw [List.length_range] at hpos
    rw [List.getElem_range] at hfault
    refine ⟨fault_of_pairAt hc hd hkind hpos hfault, pos, hpos, hfault, fun earlier hlt => ?_⟩
    obtain ⟨e, he⟩ := hearlier earlier hlt
    exact ⟨e, by rwa [List.getElem_range] at he⟩

/-- They have the answer that holds what every pair has. -/
theorem binary_eq_stored (hx : s.IsOperand x) (hy : t.IsOperand y) (hop : op.isPointwise = true)
    (hmeet : s.element.common? t.element = some k) (hkind : op.resultKind? k = some kind)
    (hfit : s.Conforms t) (hc : (s.spread t kind).Fits c)
    (hpairs : ∀ pos (hpos : pos < c.elements.length),
      pairAt op k (stored s x) (stored t y) pos = .ok c.elements[pos]) :
    binary op (stored s x) (stored t y) = .ok (stored (s.spread t kind) c) := by
  have hsize : (s.spread t kind).size = c.elements.length := by
    rw [Buffer.length_elements, hc.size]
  obtain ⟨w, hw, ⟨d, hd, rfl⟩, helements⟩ := exists_binary hx hy hop hmeet hkind hfit
    fun pos hpos => ⟨_, hpairs pos (hsize ▸ hpos)⟩
  have hsame : d = c := by
    refine Buffer.ext_elements (hd.kind.trans hc.kind.symm)
      (List.ext_getElem ?_ fun pos hpos hpos' => ?_)
    · rw [Buffer.length_elements, hd.size, hsize]
    · have hread := helements pos (hsize ▸ hpos')
      rw [element_stored_of_lt hd hpos, hpairs pos hpos'] at hread
      exact Except.ok.inj hread
  rw [hw, hsame]

/-- A pair without an answer is a division by zero, also of the arrays. -/
theorem binary_of_fault (hx : s.IsOperand x) (hy : t.IsOperand y) (hop : op.isPointwise = true)
    (hmeet : s.element.common? t.element = some k) (hkind : op.resultKind? k = some kind)
    (hfit : s.Conforms t) {pos : Nat} (hpos : pos < (s.spread t kind).size) {fault : Fault}
    (h : pairAt op k (stored s x) (stored t y) pos = .error fault) :
    ∃ text, binary op (stored s x) (stored t y) = .error (.divisionByZero text) := by
  cases hbinary : binary op (stored s x) (stored t y) with
  | ok w =>
    obtain ⟨e, he⟩ := exists_pairAt_of_ok hx hy hop hmeet hkind hfit hbinary hpos
    cases h.symm.trans he
  | error first =>
    obtain ⟨⟨text, rfl⟩, -⟩ := exists_pairAt_of_fault hx hy hop hmeet hkind hfit hbinary
    exact ⟨text, rfl⟩

/-- Operands of kinds that do not meet have no answer. -/
theorem binary_of_common?_eq_none (hx : s.IsOperand x) (hy : t.IsOperand y)
    (hop : op.isPointwise = true) (hmeet : s.element.common? t.element = none) :
    ∃ text, binary op (stored s x) (stored t y) = .error (.typeMismatch text) := by
  rw [binary_stored hx hy (BinaryOp.ne_range_of_pointwise hop) (BinaryOp.ne_step_of_pointwise hop)]
  exact arraysOfKinds_of_common?_eq_none hx hy hmeet op

/-- Operands of kinds that meet where the operator is not defined have no answer. -/
theorem binary_of_resultKind?_eq_none (hx : s.IsOperand x) (hy : t.IsOperand y)
    (hop : op.isPointwise = true) (hmeet : s.element.common? t.element = some k)
    (hkind : op.resultKind? k = none) :
    ∃ text, binary op (stored s x) (stored t y) = .error (.invalidOperandKind text) := by
  obtain ⟨s', t', c, d, -, -, hbinary⟩ := exists_promoted hx hy hop hmeet
  rw [hbinary, hkind]
  exact ⟨_, rfl⟩

/-- Operands whose extents do not fit have no answer. -/
theorem binary_of_not_conforms (hx : s.IsOperand x) (hy : t.IsOperand y)
    (hop : op.isPointwise = true) (hmeet : s.element.common? t.element = some k)
    (hkind : op.resultKind? k = some kind) (hfit : ¬s.Conforms t) :
    ∃ text, binary op (stored s x) (stored t y) = .error (.dimensionMismatch text) := by
  obtain ⟨s', t', c, d, ha, hb, hbinary⟩ := exists_promoted hx hy hop hmeet
  obtain ⟨text, halign⟩ := aligned_of_not_conforms ha hb hfit op
  refine ⟨text, ?_⟩
  rw [hbinary, hkind]
  show pointwise op ⟨kind, false⟩ (stored s' c) (stored t' d) = _
  unfold pointwise
  rw [halign]
  rfl

/-- Only operands that meet and fit have an answer. -/
theorem conforms_of_binary (hx : s.IsOperand x) (hy : t.IsOperand y) (hop : op.isPointwise = true)
    (h : binary op (stored s x) (stored t y) = .ok w) :
    ∃ k kind, s.element.common? t.element = some k ∧ op.resultKind? k = some kind ∧
      s.Conforms t := by
  cases hmeet : s.element.common? t.element with
  | none =>
    obtain ⟨text, hfault⟩ := binary_of_common?_eq_none hx hy hop hmeet
    cases h.symm.trans hfault
  | some k =>
    cases hkind : op.resultKind? k with
    | none =>
      obtain ⟨text, hfault⟩ := binary_of_resultKind?_eq_none hx hy hop hmeet hkind
      cases h.symm.trans hfault
    | some kind =>
      by_cases hfit : s.Conforms t
      · exact ⟨k, kind, rfl, hkind, hfit⟩
      · obtain ⟨text, hfault⟩ := binary_of_not_conforms hx hy hop hmeet hkind hfit
        cases h.symm.trans hfault

/-- A well-formed array of a basic kind is an operand, unless it is the empty one. -/
theorem WellFormed.exists_operand (hv : v.WellFormed) (hshape : v.shape? = some s)
    (hempty : s.isEmptyArray = false) (hbasic : s.element.isBasic = true) :
    ∃ x, s.IsOperand x ∧ v = Value.stored s x := by
  obtain ⟨x, hfits, rfl⟩ := hv.exists_stored hshape hempty hbasic
  exact ⟨x, ⟨hfits, hv.known rfl, hempty⟩, rfl⟩

/-- What it stores is integers if that is its kind. -/
theorem WellFormed.exists_integers (hv : v.WellFormed) (hshape : v.shape? = some s)
    (hempty : s.isEmptyArray = false) (hkind : s.element = .integer) :
    ∃ x, s.IsOperand (.integers x) ∧ v = Value.stored s (.integers x) := by
  obtain ⟨b, hb, rfl⟩ := hv.exists_operand hshape hempty (hkind ▸ rfl)
  have hinteger : b.kind = .integer := hb.fits.kind.trans hkind
  cases b with
  | integers x => exact ⟨x, hb, rfl⟩
  | _ => cases hinteger

/-- **The operators position by position.** Two arrays of basic kinds have an answer if their kinds
meet, the operator is there for the kind they meet at, their extents fit and it has an answer at
every position. Then it is stored under the extents of the one that is no scalar, and holds these
answers. Otherwise the first of these conditions that fails is reported, and of the positions that
have no answer, all for a division by zero, the first one. -/
theorem binary_pointwise (hop : op.isPointwise = true) (ha : a.WellFormed) (hb : b.WellFormed)
    (hs : a.shape? = some s) (ht : b.shape? = some t) (hsarray : s.isEmptyArray = false)
    (htarray : t.isEmptyArray = false) (hsbasic : s.element.isBasic = true)
    (htbasic : t.element.isBasic = true) :
    ((∃ w, binary op a b = .ok w) ↔
      ∃ k kind, s.element.common? t.element = some k ∧ op.resultKind? k = some kind ∧
        s.Conforms t ∧ ∀ pos < (s.spread t kind).size, ∃ e, pairAt op k a b pos = .ok e) ∧
    (s.element.common? t.element = none → ∃ text, binary op a b = .error (.typeMismatch text)) ∧
    ∀ k, s.element.common? t.element = some k →
      (op.resultKind? k = none → ∃ text, binary op a b = .error (.invalidOperandKind text)) ∧
      ∀ kind, op.resultKind? k = some kind →
        (¬s.Conforms t → ∃ text, binary op a b = .error (.dimensionMismatch text)) ∧
        (s.Conforms t → ∀ fault, binary op a b = .error fault →
          (∃ text, fault = .divisionByZero text) ∧
            ∃ pos < (s.spread t kind).size, pairAt op k a b pos = .error fault ∧
              ∀ earlier < pos, ∃ e, pairAt op k a b earlier = .ok e) ∧
        ∀ w, binary op a b = .ok w →
          w.StoredAs (s.spread t kind) ∧
            ∀ pos < (s.spread t kind).size, w.element pos = pairAt op k a b pos := by
  obtain ⟨x, hxfits, rfl⟩ := ha.exists_stored hs hsarray hsbasic
  obtain ⟨y, hyfits, rfl⟩ := hb.exists_stored ht htarray htbasic
  have hx : s.IsOperand x := ⟨hxfits, ha.known rfl, hsarray⟩
  have hy : t.IsOperand y := ⟨hyfits, hb.known rfl, htarray⟩
  refine ⟨⟨?_, ?_⟩, binary_of_common?_eq_none hx hy hop, fun k hmeet =>
    ⟨binary_of_resultKind?_eq_none hx hy hop hmeet, fun kind hkind =>
      ⟨binary_of_not_conforms hx hy hop hmeet hkind, fun hfit fault h => ?_, fun w hw => ?_⟩⟩⟩
  · rintro ⟨w, hw⟩
    obtain ⟨k, kind, hmeet, hkind, hfit⟩ := conforms_of_binary hx hy hop hw
    exact ⟨k, kind, hmeet, hkind, hfit, fun pos hpos =>
      exists_pairAt_of_ok hx hy hop hmeet hkind hfit hw hpos⟩
  · rintro ⟨k, kind, hmeet, hkind, hfit, hpairs⟩
    obtain ⟨w, hw, -⟩ := exists_binary hx hy hop hmeet hkind hfit hpairs
    exact ⟨w, hw⟩
  · exact exists_pairAt_of_fault hx hy hop hmeet hkind hfit h
  · obtain ⟨-, -, -, -, hfit⟩ := conforms_of_binary hx hy hop hw
    obtain ⟨r, hr, hstored, helements⟩ := exists_binary hx hy hop hmeet hkind hfit fun pos hpos =>
      exists_pairAt_of_ok hx hy hop hmeet hkind hfit hw hpos
    obtain rfl := Except.ok.inj (hr.symm.trans hw)
    exact ⟨hstored, helements⟩

/-- An integer is compared with each real of a row, but a column has no sum with the row, and no
quotient with a column that holds a zero. -/
theorem binary_pointwise_row :
    let zero := integer 0
    let row := stored (Shape.matrix .real 1 2) (.reals #[Single.one, Single.zero false])
    let column := stored (Shape.matrix .integer 2 1) (.integers #[7, 8])
    let divisors := stored (Shape.matrix .integer 2 1) (.integers #[2, 0])
    zero.WellFormed ∧ row.WellFormed ∧ column.WellFormed ∧ divisors.WellFormed ∧
      (∃ w, binary .less zero row = .ok w ∧ w.StoredAs (Shape.matrix .boolean 1 2) ∧
        w.element 0 = .ok (.boolean true) ∧ w.element 1 = .ok (.boolean false)) ∧
      (∃ text, binary .plus column row = .error (.dimensionMismatch text)) ∧
      ¬∃ w, binary .divide column divisors = .ok w := by
  intro zero row column divisors
  have hzero : zero.WellFormed := .stored ⟨rfl, rfl⟩ rfl
  have hrow : row.WellFormed := .stored ⟨rfl, rfl⟩ rfl
  have hcolumn : column.WellFormed := .stored ⟨rfl, rfl⟩ rfl
  have hdivisors : divisors.WellFormed := .stored ⟨rfl, rfl⟩ rfl
  have hless : BinaryOp.isPointwise .less = true := rfl
  have hplus : BinaryOp.isPointwise .plus = true := rfl
  have hdivide : BinaryOp.isPointwise .divide = true := rfl
  have hcompare := binary_pointwise hless hzero hrow rfl rfl rfl rfl rfl rfl
  have hsum := binary_pointwise hplus hcolumn hrow rfl rfl rfl rfl rfl rfl
  have hquotient := binary_pointwise hdivide hcolumn hdivisors rfl rfl rfl rfl rfl rfl
  refine ⟨hzero, hrow, hcolumn, hdivisors, ?_, ?_, ?_⟩
  · have hfirst : pairAt .less .real zero row 0 = .ok (.boolean true) := by
      show Element.binary .less (.real (Single.ofInt 0)) (.real Single.one) = _
      rfl
    have hsecond : pairAt .less .real zero row 1 = .ok (.boolean false) := by
      show Element.binary .less (.real (Single.ofInt 0)) (.real (Single.zero false)) = _
      rfl
    have hpairs : ∀ pos < 2, ∃ e, pairAt .less .real zero row pos = .ok e
      | 0, _ => ⟨_, hfirst⟩
      | 1, _ => ⟨_, hsecond⟩
    have hsize : ((Shape.scalar .integer).spread (Shape.matrix .real 1 2) .boolean).size = 2 := rfl
    obtain ⟨w, hw⟩ := hcompare.1.mpr ⟨.real, .boolean, rfl, rfl, .inl rfl, hsize ▸ hpairs⟩
    obtain ⟨hstored, helements⟩ := ((hcompare.2.2 .real rfl).2 .boolean rfl).2.2 w hw
    exact ⟨w, hw, hstored, (helements 0 Nat.two_pos).trans hfirst,
      (helements 1 Nat.one_lt_two).trans hsecond⟩
  · exact ((hsum.2.2 .real rfl).2 .real rfl).1 (by decide)
  · intro hanswer
    obtain ⟨k, kind, hmeet, -, -, hpairs⟩ := hquotient.1.mp hanswer
    obtain rfl : Kind.integer = k := Option.some.inj hmeet
    obtain ⟨e, he⟩ := hpairs 1 Nat.one_lt_two
    cases he

end Value

end ArrayMachine
