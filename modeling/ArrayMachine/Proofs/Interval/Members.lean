import ArrayMachine.Proofs.Operators.Stepping

/-!
# The members of an interval

An interval holds the integers from its head to its tail, and its length, its positions, its
reversal and its steps are all reckoned from the two ends. They agree with the one list of members:
none of them wraps around, be the head the least integer or the tail the greatest one. So whatever
reads an interval may as well read the vector of its members.

* `mem_toList`, `eq_of_toList_eq`: the list has all members and tells the interval.
* `getElem?_toList`, `getElem?_reversed`: the members by position, from either end.
* `Value.picked_members`: what is picked of the vector of members.
* `access_as_members`: length, positions, reversal and steps.
-/

namespace ArrayMachine

variable {i j : Interval} {n k : Int32} {pos : Nat} {positions : List Nat}

namespace Interval

/-! ## Membership -/

/-- The members are the integers from the head to the tail. -/
instance : Membership Int32 Interval := ⟨fun i n => i.head ≤ n ∧ n ≤ i.tail⟩

instance (n : Int32) (i : Interval) : Decidable (n ∈ i) := inferInstanceAs (Decidable (_ ∧ _))

theorem mem_iff : n ∈ i ↔ i.head.toInt ≤ n.toInt ∧ n.toInt ≤ i.tail.toInt :=
  and_congr Int32.le_iff_toInt_le Int32.le_iff_toInt_le

theorem head_mem (i : Interval) : i.head ∈ i := ⟨Int32.le_refl _, i.head_le_tail⟩

theorem tail_mem (i : Interval) : i.tail ∈ i := ⟨i.head_le_tail, Int32.le_refl _⟩

/-- Ends in order are those of an interval. -/
theorem ofEnds_eq_ok_iff {head tail : Int32} :
    ofEnds head tail = .ok i ↔ i.head = head ∧ i.tail = tail := by
  unfold ofEnds
  constructor
  · intro h
    split at h
    · obtain rfl := Except.ok.inj h
      exact ⟨rfl, rfl⟩
    · cases h
  · rintro ⟨rfl, rfl⟩
    rw [dif_pos i.head_le_tail]

/-- Ends that are not in order are refused. -/
theorem fault_of_ofEnds {head tail : Int32} {fault : Fault}
    (h : ofEnds head tail = .error fault) : fault = .invalidInterval head tail := by
  unfold ofEnds at h
  split at h
  · cases h
  · exact (Except.error.inj h).symm

/-- Every integer between the ends is a member. -/
theorem exists_mem {z : Int} (hhead : i.head.toInt ≤ z) (htail : z ≤ i.tail.toInt) :
    ∃ n ∈ i, n.toInt = z := by
  have hleast := i.head.le_toInt
  have hgreatest := i.tail.toInt_lt
  have hword : (Int32.ofInt z).toInt = z := Int32.toInt_ofInt_of_le (by omega) (by omega)
  refine ⟨Int32.ofInt z, ?_, hword⟩
  rw [mem_iff, hword]
  exact ⟨hhead, htail⟩

/-- There is one more member than lies between the ends, also where no word can tell how many. -/
theorem length_eq (i : Interval) : (i.length : Int) = i.tail.toInt - i.head.toInt + 1 := by
  have hends := (mem_iff.mp i.head_mem).2
  unfold length
  omega

/-- There are no more members than words. -/
theorem length_le (i : Interval) : i.length ≤ 2 ^ 32 := by
  have hlength := i.length_eq
  have hleast := i.head.le_toInt
  have hgreatest := i.tail.toInt_lt
  omega

/-- The list has the members and nothing else. -/
theorem mem_toList : n ∈ i.toList ↔ n ∈ i := by
  have hlength := i.length_eq
  rw [mem_iff]
  constructor
  · intro h
    obtain ⟨offset, hoffset, rfl⟩ := List.mem_map.mp h
    have hmember := toInt_member (List.mem_range.mp hoffset)
    have hlt := List.mem_range.mp hoffset
    omega
  · rintro ⟨hhead, htail⟩
    have hoffset : (n.toInt - i.head.toInt).toNat < i.length := by omega
    refine List.mem_map.mpr ⟨_, List.mem_range.mpr hoffset, ?_⟩
    rw [← Int32.toInt_inj, toInt_member hoffset]
    omega

/-- Intervals with the same members are the same. -/
theorem eq_of_toList_eq (h : i.toList = j.toList) : i = j := by
  have hmem (n : Int32) : n ∈ i ↔ n ∈ j := by rw [← mem_toList, h, mem_toList]
  have hhead := mem_iff.mp ((hmem _).mp i.head_mem)
  have hhead' := mem_iff.mp ((hmem _).mpr j.head_mem)
  have htail := mem_iff.mp ((hmem _).mp i.tail_mem)
  have htail' := mem_iff.mp ((hmem _).mpr j.tail_mem)
  have heads : i.head = j.head := Int32.toInt_inj.mp (by omega)
  have tails : i.tail = j.tail := Int32.toInt_inj.mp (by omega)
  obtain ⟨head, tail, hle⟩ := i
  obtain ⟨head', tail', hle'⟩ := j
  obtain rfl : head = head' := heads
  obtain rfl : tail = tail' := tails
  rfl

/-! ## Positions -/

/-- A member is as many words above the head. -/
theorem member_eq (i : Interval) (offset : Nat) :
    i.member offset = i.head + Int32.ofInt offset := by
  unfold member
  rw [Int32.ofInt_add, Int32.ofInt_toInt]

theorem getElem?_toList (hpos : pos < i.length) : i.toList[pos]? = some (i.member pos) := by
  unfold toList
  rw [List.getElem?_map, List.getElem?_range hpos]
  rfl

theorem get_of_lt (hpos : pos < i.length) : i.get pos = .ok (i.member pos) := if_pos hpos

theorem get_of_le (hpos : i.length ≤ pos) : i.get pos = .error (.outOfRange pos i.length) :=
  if_neg (Nat.not_lt.mpr hpos)

theorem length_reversed (i : Interval) : i.reversed.length = i.length := by
  unfold reversed
  rw [List.length_reverse, length_toList]

theorem getElem?_reversed (hpos : pos < i.length) :
    i.reversed[pos]? = some (i.member (i.length - 1 - pos)) := by
  unfold reversed
  rw [List.getElem?_reverse (by rwa [length_toList]), length_toList,
    getElem?_toList (Nat.lt_of_le_of_lt (Nat.sub_le _ _) (Nat.sub_one_lt_of_lt hpos))]

/-- Counted from the end, a member lies below the tail. -/
theorem toInt_member_reversed (hpos : pos < i.length) :
    (i.member (i.length - 1 - pos)).toInt = i.tail.toInt - pos := by
  have hlength := i.length_eq
  rw [toInt_member (by omega)]
  omega

/-! ## Steps -/

theorem every_of_nonpos (hk : k ≤ 0) :
    i.every k = .error (.invalidSize s!"interval step must be positive, found {k}") := if_pos hk

/-- A step through an interval has the members at the multiples of the step. -/
theorem exists_every (hk : 1 ≤ k) (i : Interval) :
    ∃ ns, i.every k = .ok ns ∧ ∀ j : Nat, ns[j]? = i.toList[j * k.toInt.toNat]? := by
  refine ⟨_, every_eq_everyNth hk, fun j => ?_⟩
  rw [getElem?_everyNth (toNat_pos hk), Nat.zero_add]

end Interval

namespace Value

/-! ## The vector of members -/

/-- The shape of the vector of members. -/
def membersShape (i : Interval) : Shape := Shape.vector .integer i.toList.toArray.size

theorem isVector_members (i : Interval) : IsVector (membersShape i) (members i) :=
  .stored ⟨rfl, rfl⟩

theorem size_membersShape (i : Interval) : (membersShape i).size = i.length :=
  List.size_toArray.trans i.length_toList

/-- **What is picked** of the vector of members are members. -/
theorem picked_members (hpositions : ∀ p ∈ positions, p < i.length) :
    (members i).picked (membersShape i) positions =
      .ok (vector (.integers (positions.map i.member).toArray)) := by
  have hread : positions.mapM (members i).element =
      .ok ((positions.map i.member).map .integer) := by
    rw [Result.mapM_eq_ok_iff, List.map_map, List.map_map]
    refine List.map_congr_left fun p hp => ?_
    rw [element_members, element_interval (hpositions p hp)]
    rfl
  have hstored : Buffer.ofElements .integer ((positions.map i.member).map .integer) =
      .ok (.integers (positions.map i.member).toArray) :=
    Buffer.ofElements_elements (.integers (positions.map i.member).toArray)
  have hlength : ((positions.map i.member).map Element.integer).length =
      (positions.map i.member).toArray.size := List.length_map _
  unfold picked
  rw [hread]
  show (Buffer.ofElements .integer ((positions.map i.member).map .integer) >>= ofBuffer
    (Shape.ofExtents .integer [some ((positions.map i.member).map Element.integer).length] false)) = _
  rw [hstored, hlength]
  show ofBuffer (Shape.vector .integer (positions.map i.member).toArray.size)
    (.integers (positions.map i.member).toArray) = _
  exact ofBuffer_eq_ok_iff.mpr ⟨⟨rfl, rfl⟩, rfl, rfl⟩

/-- A step through the interval asks for every so many members. -/
theorem step_interval (i : Interval) (k : Int32) :
    binary .step (ofInterval i) (integer k) =
      i.every k >>= fun ns => Except.ok (vector (.integers ns.toArray)) := by
  unfold binary
  rfl

/-- **A step** through the interval and one through the vector of members take the same members. -/
theorem step_members (hk : 1 ≤ k) {ns : List Int32} (h : i.every k = .ok ns) :
    binary .step (members i) (integer k) = .ok (vector (.integers ns.toArray)) ∧
      binary .step (ofInterval i) (integer k) = .ok (vector (.integers ns.toArray)) := by
  constructor
  · have hbelow : ∀ p ∈ steppedPositions i.length k.toInt.toNat, p < i.length := fun p hp =>
      lt_of_mem_steppedPositions (Interval.toNat_pos hk) hp
    obtain rfl := Except.ok.inj ((Interval.every_eq hk).symm.trans h)
    rw [stepped_positions (isVector_members i) rfl hk, size_membersShape]
    exact picked_members hbelow
  · rw [step_interval, h]
    rfl

/-- A step that does not go forward is refused for both. -/
theorem step_members_of_nonpos (hk : k ≤ 0) :
    binary .step (members i) (integer k) =
        .error (.invalidSize s!"`by` step must be positive, found {k}") ∧
      binary .step (ofInterval i) (integer k) =
        .error (.invalidSize s!"interval step must be positive, found {k}") := by
  constructor
  · have hplain : binary .step (members i) (integer k) = stepped (members i) (integer k) := by
      unfold binary
      rfl
    rw [hplain]
    exact if_pos hk
  · rw [step_interval, Interval.every_of_nonpos hk]
    rfl

/-- Reversed, both have the same members. -/
theorem reverse_members (i : Interval) : (members i).reverse = (ofInterval i).reverse := by
  have hbelow : ∀ p ∈ (List.range i.length).reverse, p < i.length := fun p hp =>
    List.mem_range.mp (List.mem_reverse.mp hp)
  rw [reverse_positions (isVector_members i) rfl rfl, size_membersShape, picked_members hbelow]
  show _ = Except.ok (vector (.integers i.reversed.toArray))
  unfold Interval.reversed Interval.toList
  rw [List.map_reverse]

end Value

/-- **An interval under every access** is the vector of its members. -/
theorem Interval.access_as_members (i : Interval) :
    (i.length : Int) = i.tail.toInt - i.head.toInt + 1 ∧ i.toList.length = i.length ∧
    (∀ pos < i.length, ∃ n, i.get pos = .ok n ∧ i.toList[pos]? = some n ∧
      n.toInt = i.head.toInt + pos) ∧
    (∀ pos, i.length ≤ pos → i.get pos = .error (.outOfRange pos i.length)) ∧
    (i.reversed.length = i.length ∧ ∀ pos < i.length, ∃ n, i.reversed[pos]? = some n ∧
      i.toList[i.length - 1 - pos]? = some n ∧ n.toInt = i.tail.toInt - pos) ∧
    (∀ k ≤ 0, (∃ text, i.every k = .error (.invalidSize text)) ∧
      (∃ text, Value.binary .step (Value.members i) (Value.integer k) =
        .error (.invalidSize text)) ∧
      ∃ text, Value.binary .step (Value.ofInterval i) (Value.integer k) =
        .error (.invalidSize text)) ∧
    (∀ k, 1 ≤ k → ∃ ns, i.every k = .ok ns ∧ (∀ j : Nat, ns[j]? = i.toList[j * k.toInt.toNat]?) ∧
      Value.binary .step (Value.members i) (Value.integer k) =
        .ok (Value.vector (.integers ns.toArray)) ∧
      Value.binary .step (Value.ofInterval i) (Value.integer k) =
        .ok (Value.vector (.integers ns.toArray))) ∧
    (Value.ofInterval i).length = (Value.members i).length ∧
    (∀ pos, (Value.ofInterval i).element pos = (Value.members i).element pos) ∧
    (Value.ofInterval i).reverse = (Value.members i).reverse := by
  refine ⟨i.length_eq, i.length_toList, fun pos hpos => ?_, fun pos hpos => get_of_le hpos,
    ⟨i.length_reversed, fun pos hpos => ?_⟩, fun k hk => ?_, fun k hk => ?_, ?_,
    fun pos => (Value.element_members i pos).symm, (Value.reverse_members i).symm⟩
  · exact ⟨_, get_of_lt hpos, getElem?_toList hpos, toInt_member hpos⟩
  · have hmirror : i.length - 1 - pos < i.length := by omega
    exact ⟨_, getElem?_reversed hpos, getElem?_toList hmirror, toInt_member_reversed hpos⟩
  · obtain ⟨hmembers, hinterval⟩ := Value.step_members_of_nonpos (i := i) hk
    exact ⟨⟨_, every_of_nonpos hk⟩, ⟨_, hmembers⟩, _, hinterval⟩
  · obtain ⟨ns, hns, hmultiples⟩ := exists_every hk i
    exact ⟨ns, hns, hmultiples, Value.step_members hk hns⟩
  · rw [(Value.isVector_members i).length_eq, Value.size_membersShape]
    rfl

/-- The widest interval has as many members as there are words. A step through it ends below the
greatest integer, however long it is. -/
theorem Interval.access_as_members_widest :
    let i : Interval := ⟨Int32.minValue, Int32.maxValue, by decide⟩
    i.length = 2 ^ 32 ∧ i.get (2 ^ 32 - 1) = .ok Int32.maxValue ∧
      i.get (2 ^ 32) = .error (.outOfRange (2 ^ 32) (2 ^ 32)) ∧
      i.reversed[2 ^ 32 - 1]? = some Int32.minValue ∧
      Value.binary .step (Value.members i) (Value.integer Int32.maxValue) =
        .ok (Value.vector (.integers #[Int32.minValue, -1, Int32.maxValue - 1])) := by
  intro i
  obtain ⟨hlength, -, hget, hbeyond, ⟨-, hreversed⟩, -, hsteps, -⟩ := access_as_members i
  have hends : i.tail.toInt - i.head.toInt + 1 = 2 ^ 32 := by decide
  have hcount : i.length = 2 ^ 32 := by omega
  rw [hcount] at hget hbeyond hreversed
  obtain ⟨last, hlast, -, hgreatest⟩ := hget (2 ^ 32 - 1) (by decide)
  obtain ⟨first, hfirst, -, hleast⟩ := hreversed (2 ^ 32 - 1) (by decide)
  obtain rfl : last = Int32.maxValue := Int32.toInt_inj.mp (hgreatest.trans (by decide))
  obtain rfl : first = Int32.minValue := Int32.toInt_inj.mp (hleast.trans (by decide))
  obtain ⟨ns, hns, -, hstep, -⟩ := hsteps Int32.maxValue (by decide)
  have htaken : (Value.steppedPositions i.length Int32.maxValue.toInt.toNat).map i.member =
      [Int32.minValue, -1, Int32.maxValue - 1] := by
    decide +kernel
  rw [every_eq (by decide), htaken] at hns
  obtain rfl := Except.ok.inj hns
  exact ⟨hcount, hlast, hbeyond _ (Nat.le_refl _), hfirst, hstep⟩

end ArrayMachine
