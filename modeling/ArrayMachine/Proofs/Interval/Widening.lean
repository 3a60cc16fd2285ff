import ArrayMachine.Proofs.Interval.Arithmetic
import ArrayMachine.Proofs.Operators.Integers
import ArrayMachine.Proofs.Operators.Neutral

/-!
# Intervals and the vectors of their members

Beside an interval, an integer scalar stands for the interval of that integer alone, and only ends
are reckoned with; beside the vector of the members, it meets one entry after the other. Both come
to the same. A scalar moves the two ends by the same number of words. If they are in order
afterwards, both have come around, or neither, and so have all members; else they are refused. Where
the scalar is what is subtracted from, the ends change places, and the members are in the opposite
order.

* `toList_translate`, `toList_mirror`: the members between ends that are moved.
* `Value.WellFormed.exists_standsFor`: the integer a scalar stands for, on either side.
* `Value.StandsFor.arithmetic_members_right`, `arithmetic_members_left`: the vector and the scalar.
* `Value.StandsFor.equal_members`, `Value.compare_members`: equality with a scalar, and of vectors.
* `Value.interval_agrees_with_members`: operators on intervals are those on vectors.
-/

namespace ArrayMachine

variable {op : BinaryOp} {i j z : Interval} {n : Int32} {pos : Nat}

namespace Interval

/-! ## Ends that are moved -/

/-- The interval of one integer. -/
def single (n : Int32) : Interval := ⟨n, n, Int32.le_refl n⟩

/-- Ends that are as many words apart have as many members. -/
theorem length_congr (h : j.tail - j.head = i.tail - i.head) : j.length = i.length := by
  have hdistance : (Int32.ofInt (j.tail.toInt - j.head.toInt)).toInt =
      (Int32.ofInt (i.tail.toInt - i.head.toInt)).toInt := by
    simp only [Int32.ofInt_sub, Int32.ofInt_toInt, h]
  have hlength := i.length_eq
  have hlength' := j.length_eq
  have hle := i.length_le
  have hle' := j.length_le
  have hpos := i.length_pos
  have hpos' := j.length_pos
  rw [toInt_ofInt_eq, toInt_ofInt_eq] at hdistance
  omega

/-- **Both ends moved** by a word move all members by it. -/
theorem toList_translate (hhead : j.head = i.head + n) (htail : j.tail = i.tail + n) :
    j.toList = i.toList.map (· + n) := by
  have hlength : j.length = i.length := length_congr (by rw [hhead, htail]; grind)
  unfold toList
  rw [hlength, List.map_map]
  refine List.map_congr_left fun offset _ => ?_
  show j.member offset = i.member offset + n
  rw [member_eq, member_eq, hhead]
  grind

/-- Counted from the end, a member is as many words below the tail. -/
theorem member_reversed (hpos : pos < i.length) :
    i.member (i.length - 1 - pos) = i.tail - Int32.ofInt pos :=
  calc i.member (i.length - 1 - pos)
    _ = Int32.ofInt (i.tail.toInt - pos) := by rw [← toInt_member_reversed hpos, Int32.ofInt_toInt]
    _ = i.tail - Int32.ofInt pos := by rw [Int32.ofInt_sub, Int32.ofInt_toInt]

/-- **Ends that change places** turn the members around. -/
theorem toList_mirror (hhead : j.head = n - i.tail) (htail : j.tail = n - i.head) :
    j.toList = (i.toList.map (n - ·)).reverse := by
  have hlength : j.length = i.length := length_congr (by rw [hhead, htail]; grind)
  rw [← List.map_reverse]
  refine List.ext_getElem? fun pos => ?_
  show _ = (i.reversed.map (n - ·))[pos]?
  rw [List.getElem?_map]
  by_cases hpos : pos < i.length
  · rw [getElem?_toList (hlength ▸ hpos), getElem?_reversed hpos, Option.map_some, member_eq,
      member_reversed hpos, hhead]
    refine congrArg some ?_
    grind
  · have hpos : i.length ≤ pos := Nat.le_of_not_lt hpos
    rw [List.getElem?_eq_none (by rwa [length_toList, hlength]),
      List.getElem?_eq_none (by rwa [length_reversed]), Option.map_none]

/-- Only the interval of one integer has no other members. -/
theorem toList_eq_replicate_iff : i.toList = List.replicate i.length n ↔ i = single n := by
  constructor
  · intro h
    have hmem {m : Int32} (hm : m ∈ i) : m = n :=
      List.eq_of_mem_replicate (h ▸ mem_toList.mpr hm)
    obtain ⟨head, tail, hle⟩ := i
    obtain rfl : head = n := hmem (head_mem _)
    obtain rfl : tail = head := hmem (tail_mem _)
    rfl
  · rintro rfl
    have hlength := (single n).length_eq
    have hone : (single n).length = 1 := by
      simp only [single] at hlength ⊢
      omega
    rw [List.eq_replicate_iff]
    refine ⟨(single n).length_toList, fun m hm => ?_⟩
    have hends := mem_iff.mp (mem_toList.mp hm)
    exact Int32.toInt_inj.mp (Int.le_antisymm hends.2 hends.1)

end Interval

namespace Value

variable {a b k w : Value} {u : Shape} {e : Element}

/-! ## Intervals and what stands for one -/

/-- An operand that is no tuple, and is taken for an interval where there is another one. -/
structure ActsAs (v : Value) (i : Interval) : Prop where
  operand : ∀ role, v.operand role = .ok v
  fields : v.fields? = none
  noTuple : v.type.isTuple = false
  interval : v.asInterval? = .ok (some i)

theorem actsAs_interval (i : Interval) : (ofInterval i).ActsAs i :=
  ⟨fun _ => rfl, rfl, rfl, rfl⟩

/-- **The operators that intervals have** are asked for their ends. -/
theorem binary_intervals (ha : a.ActsAs i) (hb : b.ActsAs j)
    (hone : (a.interval?.isSome || b.interval?.isSome) = true) {answer : Result Value}
    (h : intervals? op i j = some answer) : binary op a b = answer := by
  have hplain : binaryPlain op a b = withInterval op a b := by
    unfold binaryPlain
    split
    · cases h
    · cases h
    · rw [if_pos hone]
  rw [binary_of_operands ha.operand hb.operand (.inl ha.fields), ha.noTuple, hb.noTuple]
  show binaryPlain op a b = answer
  rw [hplain, withInterval_eq ha.interval hb.interval]
  show (intervals? op i j).getD _ = answer
  rw [h]
  rfl

/-- A scalar that is an integer beside an interval, and beside an array of integers acts as one that
holds this integer. -/
structure StandsFor (k : Value) (n : Int32) : Prop where
  acts : k.ActsAs (.single n)
  fills : ∀ {s : Shape} {x : Buffer}, s.IsOperand x → s.element = .integer →
    ∃ u b, u.IsFilledFor s b (.integer n) ∧ ∀ op, op ≠ .range → op ≠ .step →
      binary op (stored s x) k = binary op (stored s x) (stored u b) ∧
        binary op k (stored s x) = binary op (stored u b) (stored s x)

/-- A null or identity scalar stands for the integer its element is promoted to. -/
theorem standsFor_sentinel (hsentinel : u.element.isSentinel = true) (hrank : u.rank = .scalar)
    (hknown : u.hasOpenExtent = false) (he : e.kind = u.element)
    (helement : (sentinel u).element 0 = .ok e) (hn : e.toInteger = .ok n) :
    (sentinel u).StandsFor n := by
  have hpromote : e.promote .integer = .ok (.integer n) := congrArg (Element.integer <$> ·) hn
  refine ⟨⟨fun _ => rfl, rfl, rfl, ?_⟩, fun {s x} hx hs => ?_⟩
  · exact asInterval?_of_scalar rfl (congrArg some hrank) (.inr hsentinel) helement hn
  · have hbeside : u.IsSentinelFor s := ⟨hsentinel, hknown, .inl hrank⟩
    obtain ⟨t, c, ht, hfill⟩ := hbeside.exists_filled hx he (hs.symm ▸ hpromote)
    exact ⟨t, c, ht, fun op hrange hstep =>
      ⟨binary_filled_right hx hsentinel ht.operand hfill hrange hstep,
        binary_filled_left hx hsentinel ht.operand hfill hrange hstep⟩⟩

/-- A stored integer stands for itself. -/
theorem standsFor_stored {m : Array Int32} (hu : u.IsOperand (.integers m))
    (hrank : u.rank = .scalar) (hn : m.toList = [n]) : (stored u (.integers m)).StandsFor n := by
  have hkind : u.element = .integer := hu.fits.kind.symm
  have helements : (Buffer.integers m).elements = [.integer n] := by
    show m.toList.map Element.integer = _
    rw [hn]
    rfl
  have hfirst : (stored u (.integers m)).element 0 = .ok (.integer n) := by
    rw [element_stored_eq_ok_iff hu.fits, helements]
    rfl
  refine ⟨⟨fun _ => rfl, rfl, rfl, ?_⟩, fun {s x} hx hs => ?_⟩
  · exact asInterval?_of_scalar rfl (congrArg some hrank) (.inl (congrArg some hkind)) hfirst rfl
  · refine ⟨u, .integers m, ⟨hu, hkind.trans hs.symm, .inl hrank, ?_, hs.symm⟩,
      fun _ _ _ => ⟨rfl, rfl⟩⟩
    rw [helements, Shape.size_of_scalar hrank]
    rfl

/-- **Any integer, null or identity scalar** stands for an integer: a stored one for its own, null
for zero, and identity for one. -/
theorem WellFormed.exists_standsFor (hk : k.WellFormed) (hrank : k.rank? = some .scalar)
    (hkind : k.kind? = some .integer ∨ k.isSentinel = true) : ∃ n, k.StandsFor n := by
  obtain ⟨u, hu, hscalar⟩ := Option.map_eq_some_iff.mp hrank
  have hone : u.size = 1 := Shape.size_of_scalar hscalar
  rcases hkind with hkind | hsentinel
  · have hinteger : u.element = .integer := by
      rw [kind?, hu] at hkind
      exact Option.some.inj hkind
    obtain ⟨m, hm, rfl⟩ := hk.exists_integers hu (Shape.isEmptyArray_of_scalar hscalar) hinteger
    obtain ⟨n, hn⟩ := List.length_eq_one_iff.mp (hm.fits.size.trans hone)
    exact ⟨n, standsFor_stored hm hscalar hn⟩
  · obtain ⟨t, rfl, hkind⟩ := hk.eq_sentinel hsentinel
    obtain rfl : t = u := Option.some.inj hu
    have hpos : 0 < t.size := hone ▸ Nat.one_pos
    have hknown := hk.known rfl
    rcases Kind.isSentinel_iff.mp hkind with hnull | hidentity
    · exact ⟨0, standsFor_sentinel (e := .null) hkind hscalar hknown hnull.symm
        (element_null hnull hpos) rfl⟩
    · exact ⟨1, standsFor_sentinel (e := .identity) hkind hscalar hknown hidentity.symm
        (element_identity hidentity hpos) rfl⟩

/-! ## The vector of members -/

theorem isOperand_members (i : Interval) :
    (membersShape i).IsOperand (.integers i.toList.toArray) :=
  ⟨⟨rfl, rfl⟩, rfl, rfl⟩

/-- Another integer for every member. -/
theorem stored_members_map (f : Int32 → Int32) :
    stored (membersShape i) (.integers (i.toList.map f).toArray) =
      vector (.integers (i.toList.map f).toArray) := by
  have hsize : i.toList.toArray.size = (i.toList.map f).toArray.size := by simp
  show stored (Shape.vector .integer i.toList.toArray.size) _ = _
  rw [hsize]
  rfl

theorem fits_members_map (f : Int32 → Int32) :
    (membersShape i).Fits (.integers (i.toList.map f).toArray) := by
  refine ⟨rfl, ?_⟩
  rw [size_membersShape]
  simp [Buffer.length]

namespace StandsFor

variable (hk : k.StandsFor n) {f : Int32 → Int32} (hop : op.isPointwise = true)
  (hkind : op.resultKind? .integer = some .integer)
include hk hop hkind

/-- **A scalar behind the vector of members** meets one after the other. -/
theorem arithmetic_members_right
    (hf : ∀ m, Element.binaryInteger op m n = .ok (.integer (f m))) :
    binary op (members i) k = .ok (vector (.integers (i.toList.map f).toArray)) := by
  obtain ⟨u, b, hu, hfills⟩ := hk.fills (isOperand_members i) rfl
  obtain ⟨hfill, -⟩ := hfills op (BinaryOp.ne_range_of_pointwise hop)
    (BinaryOp.ne_step_of_pointwise hop)
  refine hfill.trans ?_
  rw [← stored_members_map f]
  refine binary_eq_stored_right (isOperand_members i) rfl hu hop hkind (fits_members_map f)
    fun pos hpos hpos' => ?_
  simpa [Buffer.elements, Element.binary] using hf _

/-- A scalar in front of it also does. -/
theorem arithmetic_members_left
    (hf : ∀ m, Element.binaryInteger op n m = .ok (.integer (f m))) :
    binary op k (members i) = .ok (vector (.integers (i.toList.map f).toArray)) := by
  obtain ⟨u, b, hu, hfills⟩ := hk.fills (isOperand_members i) rfl
  obtain ⟨-, hfill⟩ := hfills op (BinaryOp.ne_range_of_pointwise hop)
    (BinaryOp.ne_step_of_pointwise hop)
  refine hfill.trans ?_
  rw [← stored_members_map f]
  refine binary_eq_stored_left (isOperand_members i) rfl hu hop hkind (fits_members_map f)
    fun pos hpos hpos' => ?_
  simpa [Buffer.elements, Element.binary] using hf _

end StandsFor

/-- A minus on all entries. -/
theorem unary_minus_members (i : Interval) :
    unary .minus (members i) = .ok (vector (.integers (i.toList.map (- ·)).toArray)) := by
  have hread : (Buffer.integers i.toList.toArray).elements.mapM (Element.unary .minus) =
      .ok (Buffer.integers (i.toList.map (- ·)).toArray).elements := by
    rw [Result.mapM_eq_ok_iff]
    simp [Buffer.elements, Element.unary]
  have hminus : (Buffer.integers i.toList.toArray).unary .minus =
      .ok (.integers (i.toList.map (- ·)).toArray) := by
    show ((Buffer.integers i.toList.toArray).elements.mapM (Element.unary .minus) >>=
      Buffer.ofElements .integer) = _
    rw [hread]
    exact Buffer.ofElements_elements (.integers (i.toList.map (- ·)).toArray)
  show ((Buffer.integers i.toList.toArray).unary .minus >>= ofBuffer (membersShape i)) = _
  rw [hminus]
  exact ofBuffer_eq_ok_iff.mpr ⟨fits_members_map _, rfl, (stored_members_map _).symm⟩

/-! ## Equality -/

/-- The vectors of as many members are equal if the intervals are. -/
theorem compare_members (hlength : z.length = i.length) :
    binary .equal (members i) (members z) = .ok (boolean (decide (i = z))) := by
  have hintegers (j : Interval) (hj : j.length = i.length) :
      (membersShape j).HasIntegers [some i.length] j.toList.toArray := by
    refine ⟨isOperand_members j, ?_⟩
    rw [← hj, ← j.length_toList]
    rfl
  refine (compare_integers (hintegers i rfl) (hintegers z hlength)).trans
    (congrArg (Except.ok ∘ boolean) (decide_eq_decide.mpr ⟨fun h => ?_, ?_⟩))
  · exact Interval.eq_of_toList_eq (List.toArray_inj h)
  · rintro rfl
    rfl

/-- The vector of members is equal to a scalar if it has no other members. -/
theorem StandsFor.equal_members (hk : k.StandsFor n) (i : Interval) :
    binary .equal (members i) k = .ok (boolean (decide (i = .single n))) := by
  have hx := isOperand_members i
  obtain ⟨u, b, hu, hfills⟩ := hk.fills hx rfl
  obtain ⟨hfill, -⟩ := hfills .equal nofun nofun
  obtain ⟨c, d, hc, hd, hequal⟩ := binary_equal_stored hx hu.operand (hu.meet hx) nofun hu.conforms
  have hsize : ((membersShape i).spread u .boolean).size = (membersShape i).size := rfl
  rw [hsize] at hc hd
  obtain rfl := hc.unique (supplies_self hx.fits)
  have hcopies : (Buffer.integers (Array.replicate i.length n)).elements =
      List.replicate (membersShape i).size (.integer n) := by
    simp [Buffer.elements, size_membersShape]
  obtain rfl := hd.unique (hu.supplies rfl hcopies)
  refine hfill.trans (hequal.trans (congrArg (Except.ok ∘ boolean) (decide_eq_decide.mpr ?_)))
  rw [← Interval.toList_eq_replicate_iff, Buffer.integers.injEq, ← Array.toList_inj,
    Array.toList_replicate]

/-! ## Sums and differences -/

/-- An answer of intervals is an interval. -/
theorem exists_arithmetic_answer (ha : a.ActsAs i) (hb : b.ActsAs j)
    (hone : (a.interval?.isSome || b.interval?.isSome) = true) (hop : op = .plus ∨ op = .minus)
    (h : binary op a b = .ok w) : ∃ z, w = ofInterval z ∧ i.arithmetic op j = .ok z := by
  have hdirect : intervals? op i j = some (ofInterval <$> i.arithmetic op j) := by
    rcases hop with rfl | rfl <;> rfl
  rw [binary_intervals ha hb hone hdirect] at h
  obtain ⟨z, hz, rfl⟩ := Result.map_eq_ok_iff.mp h
  exact ⟨z, rfl, hz⟩

namespace StandsFor

variable (hk : k.StandsFor n)
include hk

/-- **A scalar that is added or subtracted** moves both ends and all members alike. -/
theorem moved_right (hop : op = .plus ∨ op = .minus) (h : i.arithmetic op (.single n) = .ok j) :
    binary op (members i) k = .ok (members j) := by
  rcases hop with rfl | rfl
  · obtain ⟨hhead, htail⟩ : j.head = i.head + n ∧ j.tail = i.tail + n :=
      Interval.ofEnds_eq_ok_iff.mp h
    unfold members
    rw [Interval.toList_translate hhead htail]
    exact hk.arithmetic_members_right rfl rfl fun _ => rfl
  · obtain ⟨hhead, htail⟩ : j.head = i.head - n ∧ j.tail = i.tail - n :=
      Interval.ofEnds_eq_ok_iff.mp h
    rw [Int32.sub_eq_add_neg] at hhead htail
    unfold members
    rw [Interval.toList_translate hhead htail]
    exact hk.arithmetic_members_right rfl rfl fun m =>
      congrArg (Except.ok ∘ Element.integer) (Int32.sub_eq_add_neg m n)

/-- A sum has the scalar on either side. -/
theorem moved_left (h : (Interval.single n).arithmetic .plus i = .ok j) :
    binary .plus k (members i) = .ok (members j) := by
  obtain ⟨hhead, htail⟩ : j.head = n + i.head ∧ j.tail = n + i.tail :=
    Interval.ofEnds_eq_ok_iff.mp h
  rw [Int32.add_comm] at hhead htail
  unfold members
  rw [Interval.toList_translate hhead htail]
  exact hk.arithmetic_members_left rfl rfl fun m =>
    congrArg (Except.ok ∘ Element.integer) (Int32.add_comm n m)

/-- **A scalar that is subtracted from** turns the members around. -/
theorem mirrored (h : (Interval.single n).arithmetic .minus i = .ok j) :
    ∃ ns : List Int32, binary .minus k (members i) = .ok (vector (.integers ns.toArray)) ∧
      j.toList = ns.reverse := by
  obtain ⟨hhead, htail⟩ := Interval.ofEnds_eq_ok_iff.mp h
  exact ⟨_, hk.arithmetic_members_left rfl rfl (f := (n - ·)) fun _ => rfl,
    Interval.toList_mirror hhead htail⟩

end StandsFor

/-- A minus turns them around as well. -/
theorem minus_mirrored (h : unary .minus (ofInterval i) = .ok w) :
    ∃ (j : Interval) (ns : List Int32), w = ofInterval j ∧
      unary .minus (members i) = .ok (vector (.integers ns.toArray)) ∧ j.toList = ns.reverse := by
  have hends : (i.unary .minus >>= fun j => Except.ok (ofInterval j)) = .ok w := h
  obtain ⟨j, hj, hw⟩ := Result.bind_eq_ok_iff.mp hends
  obtain ⟨hhead, htail⟩ := Interval.ofEnds_eq_ok_iff.mp hj
  refine ⟨j, _, (Except.ok.inj hw).symm, unary_minus_members i, ?_⟩
  rw [Interval.toList_mirror (n := 0) (hhead.trans (Int32.zero_sub _).symm)
    (htail.trans (Int32.zero_sub _).symm)]
  simp only [Int32.zero_sub]

/-- **Operators on intervals are those on vectors.** Beside an integer, null or identity scalar, an
interval and the vector of its members answer `==` and `!=` alike, in either order. Where the sum
with the scalar, on either side, or what remains when the scalar is subtracted is an interval, the
vector's answer has the members of that one. Where the interval is subtracted from the scalar, or
negated, it has them in the opposite order. Intervals of as many members compare as their vectors do.
-/
theorem interval_agrees_with_members (i : Interval) (hk : k.WellFormed)
    (hrank : k.rank? = some .scalar) (hkind : k.kind? = some .integer ∨ k.isSentinel = true) :
    (∀ op, op = .equal ∨ op = .unequal → ∃ w, binary op (ofInterval i) k = .ok w ∧
      binary op (members i) k = .ok w ∧ binary op k (ofInterval i) = .ok w ∧
      binary op k (members i) = .ok w) ∧
    (∀ op w, op = .plus ∨ op = .minus → binary op (ofInterval i) k = .ok w →
      ∃ j, w = ofInterval j ∧ binary op (members i) k = .ok (members j)) ∧
    (∀ w, binary .plus k (ofInterval i) = .ok w →
      ∃ j, w = ofInterval j ∧ binary .plus k (members i) = .ok (members j)) ∧
    (∀ w, binary .minus k (ofInterval i) = .ok w → ∃ (j : Interval) (ns : List Int32),
      w = ofInterval j ∧ binary .minus k (members i) = .ok (vector (.integers ns.toArray)) ∧
      j.toList = ns.reverse) ∧
    (∀ w, unary .minus (ofInterval i) = .ok w → ∃ (j : Interval) (ns : List Int32),
      w = ofInterval j ∧ unary .minus (members i) = .ok (vector (.integers ns.toArray)) ∧
      j.toList = ns.reverse) ∧
    ∀ z : Interval, z.length = i.length → ∀ op, op = .equal ∨ op = .unequal →
      ∃ w, binary op (ofInterval i) (ofInterval z) = .ok w ∧
        binary op (members i) (members z) = .ok w := by
  obtain ⟨n, hn⟩ := hk.exists_standsFor hrank hkind
  have hi := actsAs_interval i
  have hinterval (j : Interval) : (ofInterval j).WellFormed := .interval .integer j
  have hmembers (j : Interval) : (members j).WellFormed := .stored ⟨rfl, rfl⟩ rfl
  have hafter : ((ofInterval i).interval?.isSome || k.interval?.isSome) = true := rfl
  have hbefore : (k.interval?.isSome || (ofInterval i).interval?.isSome) = true := Bool.or_true _
  refine ⟨fun op hop => ?_, fun op w hop h => ?_, fun w h => ?_, fun w h => ?_, fun w h => ?_,
    fun z hlength op hop => ?_⟩
  · exact ((hinterval i).settled hk).agree ((hmembers i).settled hk)
      (binary_intervals hi hn.acts hafter rfl) (hn.equal_members i) hop
  · obtain ⟨j, rfl, hj⟩ := exists_arithmetic_answer hi hn.acts hafter hop h
    exact ⟨j, rfl, hn.moved_right hop hj⟩
  · obtain ⟨j, rfl, hj⟩ := exists_arithmetic_answer hn.acts hi hbefore (.inl rfl) h
    exact ⟨j, rfl, hn.moved_left hj⟩
  · obtain ⟨j, rfl, hj⟩ := exists_arithmetic_answer hn.acts hi hbefore (.inr rfl) h
    obtain ⟨ns, hns, hreverse⟩ := hn.mirrored hj
    exact ⟨j, ns, rfl, hns, hreverse⟩
  · exact minus_mirrored h
  · obtain ⟨w, hleft, hright, -, -⟩ := ((hinterval i).settled (hinterval z)).agree
      ((hmembers i).settled (hmembers z))
      (binary_intervals hi (actsAs_interval z) rfl rfl) (compare_members hlength) hop
    exact ⟨w, hleft, hright⟩

/-- Integers next to the limit that all come around in a sum are the entries of the vector's sum. A
sum of which only some do is refused. A difference from a scalar comes in the opposite order, and the
identity equals the vector that has one as its only entry. -/
theorem interval_agrees_with_members_around :
    let high : Interval := ⟨Int32.maxValue - 1, Int32.maxValue, by decide⟩
    let low : Interval := ⟨Int32.minValue + 9, Int32.minValue + 10, by decide⟩
    let one : Interval := ⟨1, 1, by decide⟩
    (integer 11).WellFormed ∧ identity.WellFormed ∧
      binary .plus (ofInterval high) (integer 11) = .ok (ofInterval low) ∧
      binary .plus (members high) (integer 11) = .ok (members low) ∧
      binary .plus (ofInterval high) identity =
        .error (.invalidInterval Int32.maxValue Int32.minValue) ∧
      binary .minus (integer 11) (members high) =
        .ok (vector (.integers #[Int32.minValue + 13, Int32.minValue + 12])) ∧
      binary .equal (members one) identity = .ok (boolean true) := by
  intro high low one
  have heleven : (integer 11).WellFormed := .stored ⟨rfl, rfl⟩ rfl
  have hidentity : identity.WellFormed := .sentinel rfl rfl
  have hacts : (integer 11).ActsAs (.single 11) := ⟨fun _ => rfl, rfl, rfl, rfl⟩
  have hacts' : identity.ActsAs (.single 1) := ⟨fun _ => rfl, rfl, rfl, rfl⟩
  have hsum : binary .plus (ofInterval high) (integer 11) = .ok (ofInterval low) := by
    rw [binary_intervals (actsAs_interval high) hacts rfl rfl]
    exact congrArg (ofInterval <$> ·) (Interval.ofEnds_eq_ok_iff.mpr ⟨by decide, by decide⟩)
  have hdifference : binary .minus (integer 11) (ofInterval high) =
      .ok (ofInterval ⟨Int32.minValue + 12, Int32.minValue + 13, by decide⟩) := by
    rw [binary_intervals hacts (actsAs_interval high) rfl rfl]
    exact congrArg (ofInterval <$> ·) (Interval.ofEnds_eq_ok_iff.mpr ⟨by decide, by decide⟩)
  have hrefused : binary .plus (ofInterval high) identity =
      .error (.invalidInterval Int32.maxValue Int32.minValue) := by
    have hhead : high.head + 1 = Int32.maxValue := by decide
    have htail : high.tail + 1 = Int32.minValue := by decide
    have hfault : high.arithmetic .plus (.single 1) =
        .error (.invalidInterval Int32.maxValue Int32.minValue) := by
      show Interval.ofEnds (high.head + 1) (high.tail + 1) = _
      rw [hhead, htail]
      exact dif_neg (by decide)
    rw [binary_intervals (actsAs_interval high) hacts' rfl rfl]
    exact congrArg (ofInterval <$> ·) hfault
  have hone : binary .equal (ofInterval one) identity = .ok (boolean true) :=
    binary_intervals (actsAs_interval one) hacts' rfl rfl
  obtain ⟨-, hmoved, -, hturned, -⟩ :=
    interval_agrees_with_members high heleven rfl (.inl rfl)
  obtain ⟨hequal, -⟩ := interval_agrees_with_members one hidentity rfl (.inr rfl)
  obtain ⟨j, hj, hmembers⟩ := hmoved .plus _ (.inl rfl) hsum
  obtain rfl : low = j := Payload.interval.inj (congrArg Value.payload hj)
  obtain ⟨t, ns, ht, hns, hreverse⟩ := hturned _ hdifference
  obtain rfl := Payload.interval.inj (congrArg Value.payload ht)
  obtain ⟨w, hw, hwmembers, -⟩ := hequal .equal (.inl rfl)
  obtain rfl := Except.ok.inj (hone.symm.trans hw)
  obtain rfl : ns = [Int32.minValue + 13, Int32.minValue + 12] := by
    rw [← List.reverse_reverse ns, ← hreverse]
    decide
  exact ⟨heleven, hidentity, hsum, hmembers, hrefused, hns, hwmembers⟩

end Value

end ArrayMachine
