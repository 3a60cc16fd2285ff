import ArrayMachine.Proofs.Operators.Operands

/-!
# Equality of values

Values are compared as wholes: tuples field by field, two intervals by their ends, and all else as
arrays, which are made alike and then compared word by word. Each of these ways has faults of its
own, in an order of its own. They all come to an outcome (`Value.Settled`) that is the same for both
orders of the operands and for both operators, up to the negation and the texts of the faults.

* `Supplies.unique`, `Shape.spread_comm`: two operands are made alike to the same buffers in either
  order.
* `settled_operands`, `settled_arrays`, `settled_withInterval`: arrays and intervals.
* `settled_fieldsEqual`, `WellFormed.settled`: tuples, by induction on their nesting.
* `equality_laws`: `==` is symmetric, `!=` its negation, and whatever can be compared to itself is
  equal to itself.
-/

namespace ArrayMachine

variable {s t s' t' : Shape} {x y c d c' d' : Buffer} {k : Kind}

namespace Shape

theorem Conforms.symm (h : s.Conforms t) : t.Conforms s := by
  rcases h with h | h | h
  · exact .inr (.inl h)
  · exact .inl h
  · exact .inr (.inr h.symm)

/-- The extents of the array that is not a scalar, whichever operand it is. -/
theorem spread_comm (h : s.Conforms t) (kind : Kind) : s.spread t kind = t.spread s kind := by
  unfold spread
  by_cases hsrank : s.rank = .scalar <;> by_cases htrank : t.rank = .scalar
  · rw [if_pos hsrank, if_pos htrank,
      extents_congr ((dims_of_scalar hsrank).trans (dims_of_scalar htrank).symm)]
  · rw [if_pos hsrank, if_neg htrank]
  · rw [if_neg hsrank, if_pos htrank]
  · rw [if_neg hsrank, if_neg htrank, (h.resolve_left hsrank).resolve_left htrank]

end Shape

namespace Value

variable {a b v v' : Value} {compare : BinaryOp → Value → Value → Result Value}

/-! ## Outcomes -/

/-- Whether two values are the same, or the code of the fault of comparing them. -/
abbrev Outcome := Except String Bool

/-- A result that tells the outcome, through `tell` if there is a truth to be told. -/
def Tells {α : Type} (tell : Bool → α) : Outcome → Result α → Prop
  | .ok same, r => r = .ok (tell same)
  | .error code, r => ∃ fault, r = .error fault ∧ fault.code = code

/-- The answer of `==` or `!=` where the comparison has this outcome. -/
def Answers (op : BinaryOp) : Outcome → Result Value → Prop :=
  Tells fun same => boolean (if op = .equal then same else !same)

/-- Both orders of the operands and both operators have one outcome, and no value differs from
itself. -/
def Settled (compare : BinaryOp → Value → Value → Result Value) (a b : Value) : Prop :=
  ∃ outcome : Outcome, (a = b → outcome ≠ .ok false) ∧ ∀ op, op = .equal ∨ op = .unequal →
    Answers op outcome (compare op a b) ∧ Answers op outcome (compare op b a)

/-- Operands that are refused, with one sort of fault. -/
theorem settled_of_fault (code : String)
    (h : ∀ op, op = .equal ∨ op = .unequal → (∃ fault, compare op a b = .error fault ∧
      fault.code = code) ∧ ∃ fault, compare op b a = .error fault ∧ fault.code = code) :
    Settled compare a b :=
  ⟨.error code, nofun, h⟩

/-- A comparison that comes down to another one. -/
theorem Settled.of_eq {compare' : BinaryOp → Value → Value → Result Value} {u w : Value}
    (h : Settled compare' u w) (hself : v = v' → u = w)
    (heq : ∀ op, op = .equal ∨ op = .unequal →
      compare op v v' = compare' op u w ∧ compare op v' v = compare' op w u) :
    Settled compare v v' := by
  obtain ⟨outcome, hsame, hanswers⟩ := h
  refine ⟨outcome, fun hv => hsame (hself hv), fun op hop => ?_⟩
  rw [(heq op hop).1, (heq op hop).2]
  exact hanswers op hop

/-! ## Arrays -/

/-- What an array supplies at a kind is a single buffer. -/
theorem Supplies.unique {k : Kind} {n : Nat} {c d : Buffer} (hc : v.Supplies k n c)
    (hd : v.Supplies k n d) : c = d := by
  refine Buffer.ext_elements (hc.kind.trans hd.kind.symm) ?_
  exact Except.ok.inj (hc.elements.symm.trans hd.elements)

/-- Operands whose extents fit are compared word by word, once they are made alike. -/
theorem pointwise_of_conforms (hx : s.IsOperand x) (hy : t.IsOperand y) (ha : Promoted s x k s' c)
    (hb : Promoted t y k t' d) (hk : k.isBasic = true) (hfit : s.Conforms t)
    (hc : (stored s x).Supplies k (s.spread t .boolean).size c')
    (hd : (stored t y).Supplies k (s.spread t .boolean).size d') (op : BinaryOp) :
    pointwise op ⟨.boolean, true⟩ (stored s' c) (stored t' d) =
      .ok (boolean (if op = .equal then decide (c' = d') else !decide (c' = d'))) := by
  obtain ⟨p, q, e, f, halign, -, he, hf⟩ := aligned_promoted hx hy ha hb hk hfit op .boolean
  obtain rfl := hc.unique he
  obtain rfl := hd.unique hf
  unfold pointwise
  rw [halign]
  show (c'.sameWords d' >>= _) = _
  unfold Buffer.sameWords
  rw [if_pos (hc.kind.trans hd.kind.symm)]
  rfl

/-- Operands whose extents do not fit are not compared. -/
theorem pointwise_of_not_conforms (ha : Promoted s x k s' c) (hb : Promoted t y k t' d)
    (hfit : ¬s.Conforms t) (op : BinaryOp) :
    ∃ text, pointwise op ⟨.boolean, true⟩ (stored s' c) (stored t' d) =
      .error (.dimensionMismatch text) := by
  obtain ⟨text, halign⟩ := aligned_of_not_conforms ha hb hfit op
  refine ⟨text, ?_⟩
  unfold pointwise
  rw [halign]
  rfl

/-- Under `==` and `!=`, operands of kinds that meet are compared, unless they are characters. -/
theorem arraysOfKinds_compared (hx : s.IsOperand x) (hy : t.IsOperand y)
    (hmeet : s.element.common? t.element = some k) :
    ∃ s' t' c d, Promoted s x k s' c ∧ Promoted t y k t' d ∧
      ∀ op, op = .equal ∨ op = .unequal → arraysOfKinds op (stored s x) (stored t y) =
        if k = .character then
          .error (.invalidOperandKind s!"operator `{op.symbol}` is not defined for {k}")
        else pointwise op ⟨.boolean, true⟩ (stored s' c) (stored t' d) := by
  obtain ⟨hk, -, -⟩ := Kind.promotesTo_common? hx.isBasic hy.isBasic hmeet
  obtain ⟨s', t', c, d, ha, hb, -, -, h⟩ := arraysOfKinds_promoted hx hy hmeet
  refine ⟨s', t', c, d, ha, hb, fun op hop => (h op).trans ?_⟩
  rcases hop with rfl | rfl <;> cases k <;> first | rfl | cases hk

/-- **Stored arrays** are promoted, spread and compared alike in either order. -/
theorem settled_operands (hx : s.IsOperand x) (hy : t.IsOperand y) :
    Settled arraysOfKinds (stored s x) (stored t y) := by
  cases hmeet : s.element.common? t.element with
  | none =>
    have hmeet' : t.element.common? s.element = none := by rw [Kind.common?_comm, hmeet]
    refine settled_of_fault "prime_rt::type_mismatch" fun op _ => ?_
    obtain ⟨text, h⟩ := arraysOfKinds_of_common?_eq_none hx hy hmeet op
    obtain ⟨text', h'⟩ := arraysOfKinds_of_common?_eq_none hy hx hmeet' op
    exact ⟨⟨_, h, rfl⟩, _, h', rfl⟩
  | some k =>
    have hmeet' : t.element.common? s.element = some k := by rw [Kind.common?_comm, hmeet]
    obtain ⟨hk, -, -⟩ := Kind.promotesTo_common? hx.isBasic hy.isBasic hmeet
    obtain ⟨s', t', c, d, ha, hb, h⟩ := arraysOfKinds_compared hx hy hmeet
    obtain ⟨t'', s'', d', c', hb', ha', h'⟩ := arraysOfKinds_compared hy hx hmeet'
    by_cases hcharacter : k = .character
    · refine settled_of_fault "prime_rt::invalid_operand_kind" fun op hop => ?_
      rw [h op hop, h' op hop, if_pos hcharacter, if_pos hcharacter]
      exact ⟨⟨_, rfl, rfl⟩, _, rfl, rfl⟩
    · simp only [if_neg hcharacter] at h h'
      by_cases hfit : s.Conforms t
      · obtain ⟨-, -, e, f, -, -, he, hf⟩ :=
          aligned_promoted hx hy ha hb hk hfit .equal .boolean
        have hspread := Shape.spread_comm hfit .boolean
        refine ⟨.ok (decide (e = f)), fun hsame hdiffer => ?_, fun op hop => ⟨?_, ?_⟩⟩
        · rw [hsame] at he
          exact of_decide_eq_false (Except.ok.inj hdiffer) (he.unique hf)
        · exact (h op hop).trans (pointwise_of_conforms hx hy ha hb hk hfit he hf op)
        · rw [hspread] at he hf
          refine (h' op hop).trans
            ((pointwise_of_conforms hy hx hb' ha' hk hfit.symm hf he op).trans ?_)
          rw [decide_eq_decide.mpr (eq_comm : f = e ↔ e = f)]
      · refine settled_of_fault "prime_rt::dimension_mismatch" fun op hop => ?_
        obtain ⟨text, hfault⟩ := pointwise_of_not_conforms ha hb hfit op
        obtain ⟨text', hfault'⟩ :=
          pointwise_of_not_conforms hb' ha' (fun hfit' => hfit hfit'.symm) op
        rw [h op hop, h' op hop]
        exact ⟨⟨_, hfault, rfl⟩, _, hfault', rfl⟩

/-- **Arrays**: once null and identity arrays are filled, they are stored, or one of them is the
empty array. -/
theorem settled_arrays (ha : a.WellFormed) (hb : b.WellFormed) (hs : a.shape? = some s)
    (ht : b.shape? = some t) (hamixed : a.isMixed = false) (hbmixed : b.isMixed = false) :
    Settled arrays a b := by
  have hswap := withoutSentinels_comm a b
  cases hready : withoutSentinels a b with
  | error fault =>
    refine settled_of_fault fault.code fun op _ => ?_
    rw [arrays_eq hs ht, arrays_eq ht hs, hswap, hready]
    exact ⟨⟨_, rfl, rfl⟩, _, rfl, rfl⟩
  | ok pair =>
    obtain ⟨u, v⟩ := pair
    rw [hready] at hswap
    obtain ⟨hu, hv⟩ := withoutSentinels_eq_ok hready
    obtain ⟨hu, humixed, husentinel, s', hs', -⟩ := hu.ready ha hamixed hs
    obtain ⟨hv, hvmixed, hvsentinel, t', ht', -⟩ := hv.ready hb hbmixed ht
    cases hempty : u.isEmptyArray || v.isEmptyArray with
    | true =>
      have hempty' : (v.isEmptyArray || u.isEmptyArray) = true := by rw [Bool.or_comm, hempty]
      refine settled_of_fault "prime_rt::invalid_operand_kind" fun op hop => ?_
      have hconcat : op ≠ .concat := by rcases hop with rfl | rfl <;> nofun
      rw [arrays_eq hs ht, arrays_eq ht hs, hswap, hready]
      show (∃ fault, (if u.isEmptyArray || v.isEmptyArray then _ else _) = _ ∧ _) ∧
        ∃ fault, (if v.isEmptyArray || u.isEmptyArray then _ else _) = _ ∧ _
      simp only [hempty, hempty', if_true, if_neg hconcat]
      exact ⟨⟨_, rfl, rfl⟩, _, rfl, rfl⟩
    | false =>
      have hempty' : (v.isEmptyArray || u.isEmptyArray) = false := by rw [Bool.or_comm, hempty]
      obtain ⟨huempty, hvempty⟩ := Bool.or_eq_false_iff.mp hempty
      have hself : a = b → u = v := by
        rintro rfl
        exact (Prod.mk.inj (Except.ok.inj (hready.symm.trans hswap))).1
      have hoperands : Settled arraysOfKinds u v := by
        obtain ⟨x, hx, rfl⟩ := hu.isOperand hs' huempty husentinel humixed
        obtain ⟨y, hy, rfl⟩ := hv.isOperand ht' hvempty hvsentinel hvmixed
        exact settled_operands hx hy
      refine hoperands.of_eq hself fun op _ => ?_
      rw [arrays_eq hs ht, arrays_eq ht hs, hswap, hready]
      show (if u.isEmptyArray || v.isEmptyArray then _ else _) = _ ∧
        (if v.isEmptyArray || u.isEmptyArray then _ else _) = _
      rw [if_neg (Bool.eq_false_iff.mp hempty), if_neg (Bool.eq_false_iff.mp hempty')]
      exact ⟨rfl, rfl⟩

/-! ## Intervals -/

/-- **An interval** is compared with one by their ends, and with all else as the vector of its
members. -/
theorem settled_withInterval (ha : a.WellFormed) (hb : b.WellFormed)
    (harrays : Settled arrays a.widened b.widened) : Settled withInterval a b := by
  obtain ⟨i?, hi⟩ := ha.exists_asInterval
  obtain ⟨j?, hj⟩ := hb.exists_asInterval
  have hwidened : a = b → a.widened = b.widened := congrArg widened
  cases i? with
  | none =>
    refine harrays.of_eq hwidened fun op _ => ?_
    rw [withInterval_eq hi hj, withInterval_eq hj hi]
    cases j? <;> exact ⟨rfl, rfl⟩
  | some i =>
    cases j? with
    | none =>
      refine harrays.of_eq hwidened fun op _ => ?_
      rw [withInterval_eq hi hj, withInterval_eq hj hi]
      exact ⟨rfl, rfl⟩
    | some j =>
      refine ⟨.ok (decide (i = j)), fun hsame hdiffer => ?_, fun op hop => ?_⟩
      · have hij : i = j := Option.some.inj (Except.ok.inj (hi.symm.trans (hsame ▸ hj)))
        exact of_decide_eq_false (Except.ok.inj hdiffer) hij
      · have hcomm : decide (j = i) = decide (i = j) := decide_eq_decide.mpr eq_comm
        rw [withInterval_eq hi hj, withInterval_eq hj hi]
        rcases hop with rfl | rfl
        · exact ⟨rfl, congrArg (Except.ok ∘ boolean) hcomm⟩
        · have hnot : decide (j ≠ i) = !decide (i = j) := decide_not.trans (congrArg (!·) hcomm)
          exact ⟨congrArg (Except.ok ∘ boolean) decide_not, congrArg (Except.ok ∘ boolean) hnot⟩

theorem settled_binaryPlain (ha : a.WellFormed) (hb : b.WellFormed)
    (hs : a.widened.shape? = some s) (ht : b.widened.shape? = some t)
    (hamixed : a.isMixed = false) (hbmixed : b.isMixed = false) : Settled binaryPlain a b := by
  have harrays : Settled arrays a.widened b.widened :=
    settled_arrays (invariant_wellFormed.widened ha) (invariant_wellFormed.widened hb) hs ht
      (isMixed_widened hamixed) (isMixed_widened hbmixed)
  have hchoice (op : BinaryOp) (hop : op = .equal ∨ op = .unequal) (u w : Value) :
      binaryPlain op u w =
        if u.interval?.isSome || w.interval?.isSome then withInterval op u w
        else arrays op u w := by
    rcases hop with rfl | rfl <;> rfl
  cases hinterval : a.interval?.isSome || b.interval?.isSome with
  | true =>
    refine (settled_withInterval ha hb harrays).of_eq id fun op hop => ?_
    rw [hchoice op hop, hchoice op hop, Bool.or_comm b.interval?.isSome, hinterval]
    exact ⟨rfl, rfl⟩
  | false =>
    obtain ⟨hi, hj⟩ := Bool.or_eq_false_iff.mp hinterval
    rw [widened_of_isSome_interval? hi, widened_of_isSome_interval? hj] at harrays
    refine harrays.of_eq id fun op hop => ?_
    rw [hchoice op hop, hchoice op hop, Bool.or_comm b.interval?.isSome, hinterval]
    exact ⟨rfl, rfl⟩

/-! ## Tuples -/

/-- A pair of fields, and what is behind it. -/
theorem fieldsEqual_cons (vs ws : List Value) :
    fieldsEqual (v :: vs) (v' :: ws) = (do
      let here ← (← binary .equal v v').truth
      let rest ← fieldsEqual vs ws
      return here && rest) := by
  rw [fieldsEqual]

/-- **Fields** are compared pair by pair, so that the first pair that cannot be compared is the same
in either order. -/
theorem settled_fieldsEqual {vs ws : List Value}
    (h : ∀ v ∈ vs, ∀ w ∈ ws, Settled binary v w) :
    ∃ outcome : Outcome, (vs = ws → outcome ≠ .ok false) ∧
      Tells id outcome (fieldsEqual vs ws) ∧ Tells id outcome (fieldsEqual ws vs) := by
  have htrue : (.ok true : Outcome) ≠ .ok false := by simp
  have herror (code : String) : (.error code : Outcome) ≠ .ok false := by simp
  induction vs generalizing ws with
  | nil =>
    refine ⟨.ok true, fun _ => htrue, ?_, ?_⟩
    · unfold fieldsEqual
      rfl
    · unfold fieldsEqual
      cases ws <;> rfl
  | cons v vs ih =>
    cases ws with
    | nil =>
      refine ⟨.ok true, fun _ => htrue, ?_, ?_⟩
      · unfold fieldsEqual
        rfl
      · unfold fieldsEqual
        rfl
    | cons w ws =>
      obtain ⟨first, hfirst, hbinary⟩ := h v List.mem_cons_self w List.mem_cons_self
      obtain ⟨hleft, hright⟩ := hbinary .equal (.inl rfl)
      obtain ⟨rest, hrest, hvs, hws⟩ := ih fun v hv w hw =>
        h v (List.mem_cons_of_mem _ hv) w (List.mem_cons_of_mem _ hw)
      rw [fieldsEqual_cons, fieldsEqual_cons]
      cases first with
      | error code =>
        obtain ⟨fault, hfault, hcode⟩ := hleft
        obtain ⟨fault', hfault', hcode'⟩ := hright
        rw [hfault, hfault']
        exact ⟨.error code, fun _ => herror code, ⟨fault, rfl, hcode⟩, fault', rfl, hcode'⟩
      | ok here =>
        have hleft : binary .equal v w = .ok (boolean here) := hleft
        have hright : binary .equal w v = .ok (boolean here) := hright
        rw [hleft, hright]
        cases rest with
        | error code =>
          obtain ⟨fault, hfault, hcode⟩ := hvs
          obtain ⟨fault', hfault', hcode'⟩ := hws
          rw [hfault, hfault']
          exact ⟨.error code, fun _ => herror code, ⟨fault, rfl, hcode⟩, fault', rfl, hcode'⟩
        | ok behind =>
          have hvs : fieldsEqual vs ws = .ok behind := hvs
          have hws : fieldsEqual ws vs = .ok behind := hws
          rw [hvs, hws]
          refine ⟨.ok (here && behind), fun hsame => ?_, rfl, rfl⟩
          obtain ⟨rfl, rfl⟩ := List.cons.inj hsame
          have hhere : here = true := by simpa using hfirst rfl
          have hbehind : behind = true := by simpa using hrest rfl
          rw [hhere, hbehind]
          exact htrue

/-! ## All values -/

/-- Operands that are not both tuples are refused, or compared as arrays or intervals. -/
theorem settled_of_fields (ha : a.WellFormed) (hb : b.WellFormed)
    (hfields : a.fields? = none ∨ b.fields? = none) : Settled binary a b := by
  have hfault (hrefused : a.Refused ∨ b.Refused) : Settled binary a b := by
    refine settled_of_fault "prime_rt::type_mismatch" fun op _ => ?_
    obtain ⟨text, hleft⟩ := binary_of_refused ha hb hrefused op
    obtain ⟨text', hright⟩ := binary_of_refused hb ha hrefused.symm op
    exact ⟨⟨_, hleft, rfl⟩, _, hright, rfl⟩
  rcases ha.operand_cases with ⟨x, hx, hxrole⟩ | hrefused
  · rcases hb.operand_cases with ⟨y, hy, hyrole⟩ | hrefused
    · have hleft := binary_of_operands hxrole hyrole hfields
      have hright := binary_of_operands hyrole hxrole hfields.symm
      cases htuple : x.type.isTuple || y.type.isTuple with
      | true =>
        refine settled_of_fault "prime_rt::type_mismatch" fun op _ => ?_
        rw [hleft, hright, Bool.or_comm y.type.isTuple, htuple]
        exact ⟨⟨_, rfl, rfl⟩, _, rfl, rfl⟩
      | false =>
        obtain ⟨hxtuple, hytuple⟩ := Bool.or_eq_false_iff.mp htuple
        obtain ⟨s, hs⟩ := (ha.shape?_of_operand (hxrole "")).resolve_left
          (Bool.eq_false_iff.mp hxtuple)
        obtain ⟨t, ht⟩ := (hb.shape?_of_operand (hyrole "")).resolve_left
          (Bool.eq_false_iff.mp hytuple)
        have hplain := settled_binaryPlain (ha.promoteMixed hx) (hb.promoteMixed hy) hs ht
          (isMixed_of_promoteMixed hx) (isMixed_of_promoteMixed hy)
        refine hplain.of_eq ?_ fun op _ => ?_
        · rintro rfl
          exact Except.ok.inj (hx.symm.trans hy)
        · rw [hleft, hright, Bool.or_comm y.type.isTuple, htuple]
          exact ⟨rfl, rfl⟩
    · exact hfault (.inr hrefused)
  · exact hfault (.inl hrefused)

/-- Under `==` and `!=`, tuples are compared by their fields if they have as many. -/
theorem binary_tuples {types types' : List (Option String × ValueType)} (vs ws : List Value)
    (op : BinaryOp) (hop : op = .equal ∨ op = .unequal) :
    binary op ⟨.tuple types, .tuple vs⟩ ⟨.tuple types', .tuple ws⟩ =
      if vs.length ≠ ws.length then
        .error (.typeMismatch
          s!"tuples of arity {vs.length} and {ws.length} cannot be compared")
      else (fun same => boolean (if op = .equal then same else !same)) <$> fieldsEqual vs ws := by
  have hop : ¬(op ≠ .equal ∧ op ≠ .unequal) := fun h => hop.elim h.1 h.2
  rw [binary]
  show (if op ≠ .equal ∧ op ≠ .unequal then _ else _) = _
  rw [if_neg hop]
  rfl

/-- **Tuples** with the same outcome for every two of their fields have one of their own. -/
theorem settled_tuples {types types' : List (Option String × ValueType)} {vs ws : List Value}
    (h : ∀ v ∈ vs, ∀ w ∈ ws, Settled binary v w) :
    Settled binary ⟨.tuple types, .tuple vs⟩ ⟨.tuple types', .tuple ws⟩ := by
  by_cases hlength : vs.length = ws.length
  · obtain ⟨outcome, hself, hvs, hws⟩ := settled_fieldsEqual h
    refine ⟨outcome, fun hsame => hself ?_, fun op hop => ?_⟩
    · exact Payload.tuple.inj (congrArg Value.payload hsame)
    · rw [binary_tuples vs ws op hop, binary_tuples ws vs op hop, if_neg fun h => h hlength,
        if_neg fun h => h hlength.symm]
      cases outcome with
      | ok same =>
        rw [show fieldsEqual vs ws = .ok same from hvs, show fieldsEqual ws vs = .ok same from hws]
        exact ⟨rfl, rfl⟩
      | error code =>
        obtain ⟨fault, hfault, hcode⟩ := hvs
        obtain ⟨fault', hfault', hcode'⟩ := hws
        rw [hfault, hfault']
        exact ⟨⟨fault, rfl, hcode⟩, fault', rfl, hcode'⟩
  · refine settled_of_fault "prime_rt::type_mismatch" fun op hop => ?_
    rw [binary_tuples vs ws op hop, binary_tuples ws vs op hop, if_pos hlength,
      if_pos (Ne.symm hlength)]
    exact ⟨⟨_, rfl, rfl⟩, _, rfl, rfl⟩

/-- **Any two values** have one outcome, on the nesting of the left one. -/
theorem WellFormed.settled (ha : a.WellFormed) (hb : b.WellFormed) : Settled binary a b := by
  induction ha generalizing b with
  | @tuple types vs htypes hvs ih =>
    cases hfields : b.fields? with
    | none => exact settled_of_fields (.tuple htypes hvs) hb (.inr hfields)
    | some ws =>
      cases hb with
      | tuple htypes' hws => exact settled_tuples fun v hv w hw => ih v hv (hws w hw)
      | _ => cases hfields
  | input => exact settled_of_fields .input hb (.inl rfl)
  | output => exact settled_of_fields .output hb (.inl rfl)
  | empty hempty => exact settled_of_fields (.empty hempty) hb (.inl rfl)
  | sentinel hsentinel hknown =>
    exact settled_of_fields (.sentinel hsentinel hknown) hb (.inl rfl)
  | stored hfits hknown => exact settled_of_fields (.stored hfits hknown) hb (.inl rfl)
  | mixed hmixed hknown hsize =>
    exact settled_of_fields (.mixed hmixed hknown hsize) hb (.inl rfl)
  | interval kind i => exact settled_of_fields (.interval kind i) hb (.inl rfl)

/-- Where `==` has an answer, so has it in the other order, and `!=` has its negation. -/
theorem Settled.answers {op : BinaryOp} {same : Bool} (h : Settled binary a b)
    (hequal : binary .equal a b = .ok (boolean same)) (hop : op = .equal ∨ op = .unequal) :
    binary op a b = .ok (boolean (if op = .equal then same else !same)) ∧
      binary op b a = .ok (boolean (if op = .equal then same else !same)) := by
  obtain ⟨outcome, -, hanswers⟩ := h
  have hfirst := (hanswers .equal (.inl rfl)).1
  cases outcome with
  | ok same' =>
    have htold : boolean same' = boolean same := Except.ok.inj (hfirst.symm.trans hequal)
    obtain rfl : same' = same := by simpa [boolean, stored] using htold
    exact hanswers op hop
  | error code =>
    obtain ⟨fault, hfault, -⟩ := hfirst
    cases hfault.symm.trans hequal

/-- Operands for which `==` has the same answer as for two others agree with them throughout. -/
theorem Settled.agree {op : BinaryOp} {a' b' : Value} {same : Bool} (h : Settled binary a b)
    (h' : Settled binary a' b') (hequal : binary .equal a b = .ok (boolean same))
    (hequal' : binary .equal a' b' = .ok (boolean same)) (hop : op = .equal ∨ op = .unequal) :
    ∃ w, binary op a b = .ok w ∧ binary op a' b' = .ok w ∧ binary op b a = .ok w ∧
      binary op b' a' = .ok w :=
  ⟨_, (h.answers hequal hop).1, (h'.answers hequal' hop).1, (h.answers hequal hop).2,
    (h'.answers hequal' hop).2⟩

/-- Stored arrays that can be compared are equal if they supply the same words. -/
theorem binary_equal_stored (hx : s.IsOperand x) (hy : t.IsOperand y)
    (hmeet : s.element.common? t.element = some k) (hcharacter : k ≠ .character)
    (hfit : s.Conforms t) :
    ∃ c d, (stored s x).Supplies k (s.spread t .boolean).size c ∧
      (stored t y).Supplies k (s.spread t .boolean).size d ∧
      binary .equal (stored s x) (stored t y) = .ok (boolean (decide (c = d))) := by
  obtain ⟨hk, -, -⟩ := Kind.promotesTo_common? hx.isBasic hy.isBasic hmeet
  obtain ⟨s', t', c, d, ha, hb, h⟩ := arraysOfKinds_compared hx hy hmeet
  obtain ⟨-, -, e, f, -, -, he, hf⟩ := aligned_promoted hx hy ha hb hk hfit .equal .boolean
  refine ⟨e, f, he, hf, ?_⟩
  have hbinary : binary .equal (stored s x) (stored t y) =
      arraysOfKinds .equal (stored s x) (stored t y) := binary_stored hx hy nofun nofun
  rw [hbinary, h .equal (.inl rfl), if_neg hcharacter]
  exact pointwise_of_conforms hx hy ha hb hk hfit he hf .equal

/-- **Equality.** Two values compare alike in either order, and `!=` negates `==`; where the one has
no answer, none of them has, for the same sort of fault. A value that can be compared to itself
equals itself. Arrays whose kinds meet and whose extents fit are equal if their elements, promoted
and spread over the same extents, are the same word by word. -/
theorem equality_laws (ha : a.WellFormed) (hb : b.WellFormed) :
    ((∃ same, binary .equal a b = .ok (boolean same) ∧ binary .equal b a = .ok (boolean same) ∧
        binary .unequal a b = .ok (boolean !same)) ∨
      ∃ f g h, binary .equal a b = .error f ∧ binary .equal b a = .error g ∧
        binary .unequal a b = .error h ∧ f.code = g.code ∧ f.code = h.code) ∧
    (∀ w, binary .equal a a = .ok w → w = boolean true) ∧
    ∀ s t x y k, a = stored s x → b = stored t y → s.isEmptyArray = false →
      t.isEmptyArray = false → s.element.common? t.element = some k → k ≠ .character →
      s.Conforms t →
      ∃ c d, a.Supplies k (s.spread t .boolean).size c ∧
        b.Supplies k (s.spread t .boolean).size d ∧
        binary .equal a b = .ok (boolean (decide (c = d))) := by
  refine ⟨?_, fun w hw => ?_, ?_⟩
  · obtain ⟨outcome, -, hanswers⟩ := ha.settled hb
    obtain ⟨hequal, hequal'⟩ := hanswers .equal (.inl rfl)
    obtain ⟨hunequal, -⟩ := hanswers .unequal (.inr rfl)
    cases outcome with
    | ok same => exact .inl ⟨same, hequal, hequal', hunequal⟩
    | error code =>
      obtain ⟨f, hf, hfcode⟩ := hequal
      obtain ⟨g, hg, hgcode⟩ := hequal'
      obtain ⟨h, hh, hhcode⟩ := hunequal
      exact .inr ⟨f, g, h, hf, hg, hh, hfcode.trans hgcode.symm, hfcode.trans hhcode.symm⟩
  · obtain ⟨outcome, hself, hanswers⟩ := ha.settled ha
    obtain ⟨hequal, -⟩ := hanswers .equal (.inl rfl)
    cases outcome with
    | ok same =>
      obtain rfl : boolean same = w := Except.ok.inj (hequal.symm.trans hw)
      cases same with
      | true => rfl
      | false => exact absurd rfl (hself rfl)
    | error code =>
      obtain ⟨fault, hfault, -⟩ := hequal
      cases hfault.symm.trans hw
  · rintro s t x y k rfl rfl hs ht hmeet hcharacter hfit
    exact binary_equal_stored (ha.isOperand_stored hs) (hb.isOperand_stored ht) hmeet hcharacter
      hfit

/-- A NaN equals itself, also in a tuple beside an interval. It cannot be compared with that tuple, in
either order. -/
theorem equality_laws_nan :
    let nan := stored (Shape.vector .real 1) (.reals #[Single.indefinite])
    let digits := ofInterval ⟨0, 9, by decide⟩
    let pair : Value := ⟨.tuple [(none, nan.type), (none, digits.type)], .tuple [nan, digits]⟩
    nan.WellFormed ∧ pair.WellFormed ∧
      binary .equal nan nan = .ok (boolean true) ∧
      binary .equal pair pair = .ok (boolean true) ∧
      binary .unequal pair pair = .ok (boolean false) ∧
      ∃ f g, binary .equal nan pair = .error f ∧ binary .equal pair nan = .error g ∧
        f.code = g.code := by
  intro nan digits pair
  have hnan : nan.WellFormed := .stored ⟨rfl, rfl⟩ rfl
  have hpair : pair.WellFormed := by
    refine .tuple rfl fun field hfield => ?_
    rcases List.mem_cons.mp hfield with rfl | hfield
    · exact hnan
    · obtain rfl := List.mem_singleton.mp hfield
      exact .interval .integer _
  have hnans : binary .equal nan nan = .ok (boolean true) := by
    obtain ⟨c, d, hc, hd, hsame⟩ := (equality_laws hnan hnan).2.2 _ _ _ _ .real rfl rfl rfl rfl rfl
      nofun (.inr (.inr rfl))
    rw [hsame, hc.unique hd, decide_eq_true rfl]
  have hdigits : binary .equal digits digits = .ok (boolean true) := by
    rw [binary]
    rfl
  have hfields : fieldsEqual [nan, digits] [nan, digits] = .ok true := by
    rw [fieldsEqual_cons, fieldsEqual_cons, hnans, hdigits]
    unfold fieldsEqual
    rfl
  have hpairs (op : BinaryOp) (hop : op = .equal ∨ op = .unequal) :
      binary op pair pair = .ok (boolean (if op = .equal then true else !true)) := by
    rw [binary_tuples _ _ op hop, hfields]
    rfl
  refine ⟨hnan, hpair, hnans, hpairs .equal (.inl rfl), hpairs .unequal (.inr rfl), ?_⟩
  rcases (equality_laws hnan hpair).1 with ⟨same, hsame, -⟩ | ⟨f, g, h, hf, hg, -, hcode, -⟩
  · rw [binary] at hsame
    cases hsame
  · exact ⟨f, g, hf, hg, hcode⟩

end Value

end ArrayMachine
