import Mathlib.Algebra.Group.Nat.Defs
import ArrayMachine.Proofs.Indexing.Chain
import ArrayMachine.Proofs.Operators.Operands

/-!
# Stepping and reversal are indexing

A step through a vector takes its first element, skips some, takes the next one and so on, and a
reversal takes all of them from the last to the first. An interval from one to the length of the
vector can be stepped through and reversed just as well, and its members are indices. Both ways pick
the same positions (`Value.picked`), also where the step is longer than the vector and where the
length is the greatest integer there is.

* `getElem?_everyNth`: the walk that takes one member and skips the next ones.
* `steppedPositions_eq_everyNth`, `Interval.every_eq_everyNth`: both steps are this walk.
* `exists_picked`: what is picked of a vector.
* `index_positions`: indexing picks the positions below the indices.
* `stepping_is_indexing`: steps and reversals of a vector, by the interval of its indices.
-/

namespace ArrayMachine

variable {α β : Type} {stride : Nat}

/-! ## A walk that skips -/

/-- The members that a walk takes: after each, it skips all but the last of the next `stride` ones.
The first `skip` ones are skipped before it takes any. -/
def everyNth (stride : Nat) : Nat → List α → List α
  | _, [] => []
  | 0, x :: xs => x :: everyNth stride (stride - 1) xs
  | skip + 1, _ :: xs => everyNth stride skip xs

/-- **The walk takes the members at the multiples of the stride**, counted from the first it takes. -/
theorem getElem?_everyNth (hstride : 1 ≤ stride) (skip : Nat) (xs : List α) (j : Nat) :
    (everyNth stride skip xs)[j]? = xs[skip + j * stride]? := by
  induction xs generalizing skip j with
  | nil => cases skip <;> rfl
  | cons x xs ih =>
    cases skip with
    | zero =>
      cases j with
      | zero => simp [everyNth]
      | succ j =>
        have hnext : 0 + (j + 1) * stride = stride - 1 + j * stride + 1 := by
          rw [Nat.succ_mul]
          omega
        rw [hnext, everyNth, List.getElem?_cons_succ, List.getElem?_cons_succ, ih]
    | succ skip =>
      rw [everyNth, ih, Nat.succ_add, List.getElem?_cons_succ]

/-- What the walk takes does not depend on the members. -/
theorem everyNth_map (f : α → β) (skip : Nat) (xs : List α) :
    everyNth stride skip (xs.map f) = (everyNth stride skip xs).map f := by
  induction xs generalizing skip with
  | nil => cases skip <;> rfl
  | cons x xs ih => cases skip <;> simp [everyNth, ih]

/-- There are as many multiples of a stride below a bound as the bound holds strides, begun ones
included. -/
theorem lt_steps_iff (hstride : 1 ≤ stride) (n j : Nat) :
    j < (n + stride - 1) / stride ↔ j * stride < n := by
  rw [Nat.lt_div_iff_mul_lt hstride]
  omega

namespace Value

/-- **A step through a vector** is the walk over its positions. -/
theorem steppedPositions_eq_everyNth (hstride : 1 ≤ stride) (n : Nat) :
    steppedPositions n stride = everyNth stride 0 (List.range n) := by
  refine List.ext_getElem? fun j => ?_
  rw [getElem?_everyNth hstride, Nat.zero_add]
  unfold steppedPositions
  rw [List.getElem?_map]
  by_cases hj : j * stride < n
  · have hj' := (lt_steps_iff hstride n j).mpr hj
    simp [hj, hj']
  · have hj' := mt (lt_steps_iff hstride n j).mp hj
    simp only [Nat.not_lt] at hj hj'
    simp [hj, hj']

end Value

/-! ## Steps through intervals -/

namespace Interval

variable {i : Interval} {k : Int32} {offset n : Nat}

theorem toNat_pos (hk : 1 ≤ k) : 1 ≤ k.toInt.toNat := by
  have hone : (1 : Int32).toInt ≤ k.toInt := Int32.le_iff_toInt_le.mp hk
  have hself : (1 : Int32).toInt = 1 := rfl
  omega

theorem not_le_zero (hk : 1 ≤ k) : ¬k ≤ 0 := by
  intro hle
  have hone := toNat_pos hk
  have hzero : k.toInt ≤ (0 : Int32).toInt := Int32.le_iff_toInt_le.mp hle
  have hself : (0 : Int32).toInt = 0 := rfl
  omega

/-- A step through an interval takes the members at the stepped positions. -/
theorem every_eq (hk : 1 ≤ k) :
    i.every k = .ok ((Value.steppedPositions i.length k.toInt.toNat).map i.member) := by
  unfold every Value.steppedPositions
  rw [if_neg (not_le_zero hk), List.map_map]
  rfl

/-- **A step through an interval** is the walk over its members. -/
theorem every_eq_everyNth (hk : 1 ≤ k) :
    i.every k = .ok (everyNth k.toInt.toNat 0 i.toList) := by
  rw [every_eq hk, Value.steppedPositions_eq_everyNth (toNat_pos hk), ← everyNth_map]
  rfl

/-- A member is a word above the head, and none is too large for one. -/
theorem toInt_member (h : offset < i.length) : (i.member offset).toInt = i.head.toInt + offset := by
  have hleast := i.head.le_toInt
  have hgreatest := i.tail.toInt_lt
  unfold length at h
  exact Int32.toInt_ofInt_of_le (by omega) (by omega)

/-- **The interval from one to a number** that is an integer. Its members are the one-based
indices. -/
theorem exists_fromOne (hpos : 1 ≤ n) (hmax : n ≤ 2 ^ 31 - 1) :
    ∃ i, ofEnds 1 (Int32.ofNat n) = .ok i ∧ i.length = n ∧
      ∀ offset < n, (i.member offset).toInt = offset + 1 := by
  have htail : (Int32.ofNat n).toInt = n := Int32.toInt_ofNat_of_lt (by omega)
  have hhead : (1 : Int32).toInt = 1 := rfl
  have horder : 1 ≤ Int32.ofNat n := by
    rw [Int32.le_iff_toInt_le]
    omega
  have hlength : length ⟨1, Int32.ofNat n, horder⟩ = n := by
    show ((Int32.ofNat n).toInt - (1 : Int32).toInt + 1).toNat = n
    omega
  refine ⟨⟨1, Int32.ofNat n, horder⟩, dif_pos horder, hlength, fun offset hoffset => ?_⟩
  rw [toInt_member (Nat.lt_of_lt_of_eq hoffset hlength.symm)]
  show (1 : Int32).toInt + (offset : Int) = offset + 1
  omega

end Interval

namespace Value

variable {v : Value} {s : Shape} {n : Nat} {positions : List Nat}

/-! ## Vectors -/

/-- A vector of the given shape: stored, or of nulls or identities. -/
inductive IsVector (s : Shape) : Value → Prop where
  | stored {b : Buffer} : s.Fits b → IsVector s (Value.stored s b)
  | sentinel : s.element.isSentinel = true → IsVector s (Value.sentinel s)

theorem WellFormed.isVector (hv : v.WellFormed) (hs : v.shape? = some s) (hrank : s.rank = .vector)
    (hmixed : v.isMixed = false) : IsVector s v := by
  have hempty : s.isEmptyArray = false := Shape.isEmptyArray_of_rank (.inl hrank)
  cases hsentinel : v.isSentinel with
  | true =>
    obtain ⟨shape, rfl, hkind⟩ := hv.eq_sentinel hsentinel
    obtain rfl := Option.some.inj hs
    exact .sentinel hkind
  | false =>
    obtain ⟨b, hb, rfl⟩ := hv.isOperand hs ((isEmptyArray_eq hs).trans hempty) hsentinel hmixed
    exact .stored hb.fits

theorem IsVector.shape?_eq (h : IsVector s v) : v.shape? = some s := by
  cases h <;> rfl

theorem IsVector.length_eq (h : IsVector s v) : v.length = .ok s.size := by
  cases h <;> rfl

theorem IsVector.operand_eq (h : IsVector s v) (role : String) : v.operand role = .ok v := by
  cases h <;> rfl

theorem IsVector.interval?_eq (h : IsVector s v) : v.interval? = none := by
  cases h <;> rfl

theorem IsVector.arrayShape_eq (h : IsVector s v) : v.arrayShape = .ok s := by
  cases h <;> rfl

theorem IsVector.exists_element (h : IsVector s v) {pos : Nat} (hpos : pos < s.size) :
    ∃ e, v.element pos = .ok e ∧ e.kind = s.element := by
  cases h with
  | @stored b hb =>
    have hlt : pos < b.elements.length := by rwa [Buffer.length_elements, hb.size]
    exact ⟨_, element_stored_of_lt hb hlt,
      (Buffer.kind_of_mem_elements (List.getElem_mem hlt)).trans hb.kind⟩
  | sentinel hkind => exact exists_element_sentinel hkind hpos

theorem IsVector.exists_elements (h : IsVector s v) (hpositions : ∀ p ∈ positions, p < s.size) :
    ∃ es, positions.mapM v.element = .ok es :=
  Result.exists_mapM_eq_ok fun p hp =>
    have ⟨e, he, _⟩ := h.exists_element (hpositions p hp)
    ⟨e, he⟩

/-! ## What is picked -/

/-- The elements of a vector at some positions, under the vector's kind and text flag. -/
def picked (v : Value) (s : Shape) (positions : List Nat) : Result Value := do
  let elements ← positions.mapM v.element
  let shape := Shape.ofExtents s.element [some elements.length] s.isString
  if v.isSentinel then return sentinel shape
  else ofBuffer shape (← Buffer.ofElements s.element elements)

/-- **What is picked of a vector** is a vector with the elements at the positions. -/
theorem exists_picked (h : IsVector s v) (hpositions : ∀ p ∈ positions, p < s.size) :
    ∃ w, v.picked s positions = .ok w ∧
      w.shape? = some (Shape.ofExtents s.element [some positions.length] s.isString) ∧
      ∀ j p, positions[j]? = some p → w.element j = v.element p := by
  obtain ⟨es, hes⟩ := h.exists_elements hpositions
  have hlength := Result.length_of_mapM hes
  unfold picked
  rw [hes, ← hlength]
  cases h with
  | @stored b hb =>
    have hkinds : ∀ e ∈ es, e.kind = s.element := by
      intro e he
      obtain ⟨p, -, hp⟩ := Result.exists_of_mem_mapM hes he
      rw [element_stored_eq_ok_iff hb] at hp
      exact (Buffer.kind_of_mem_elements (List.mem_of_getElem? hp)).trans hb.kind
    obtain ⟨c, hc, hkind, rfl⟩ := Buffer.ofElements_of_kind (hb.kind ▸ b.isBasic_kind) hkinds
    have hfits : (Shape.ofExtents s.element [some c.elements.length] s.isString).Fits c :=
      ⟨hkind, c.length_elements.symm⟩
    refine ⟨stored (Shape.ofExtents s.element [some c.elements.length] s.isString) c, ?_, rfl,
      fun j p hj => ?_⟩
    · show (if (stored s b).isSentinel then _ else _) = _
      rw [isSentinel_stored hb, hc]
      exact ofBuffer_eq_ok_iff.mpr ⟨hfits, rfl, rfl⟩
    · obtain ⟨hlt, rfl⟩ := List.getElem?_eq_some_iff.mp hj
      rw [element_stored_of_lt hfits (hlength ▸ hlt), Result.getElem_of_mapM hes hlt]
  | sentinel hkind =>
    refine ⟨sentinel (Shape.ofExtents s.element [some es.length] s.isString), if_pos hkind, rfl,
      fun j p hj => ?_⟩
    obtain ⟨hlt, rfl⟩ := List.getElem?_eq_some_iff.mp hj
    have hsize : j < (Shape.ofExtents s.element [some es.length] s.isString).size := hlength ▸ hlt
    have hp := hpositions _ (List.getElem_mem hlt)
    exact element_sentinel_congr rfl hsize hp

/-- **A step through a vector** picks the stepped positions. -/
theorem stepped_positions (h : IsVector s v) (hrank : s.rank = .vector) {k : Int32} (hk : 1 ≤ k) :
    binary .step v (integer k) = v.picked s (steppedPositions s.size k.toInt.toNat) := by
  have hoperands : binary .step v (integer k) = stepped v (integer k) := by
    have hfields : v.fields? = none := by cases h <;> rfl
    rw [binary_of_operands h.operand_eq (fun _ => rfl) (.inl hfields)]
    cases h <;> rfl
  rw [hoperands]
  unfold stepped picked
  rw [show (integer k).scalarInteger "`by` step" = .ok k from rfl, h.interval?_eq, h.arrayShape_eq,
    Shape.size_of_vector hrank]
  show (if s.rank ≠ .vector then _ else if k ≤ 0 then _ else _) = _
  rw [if_neg (fun hne => hne hrank), if_neg (Interval.not_le_zero hk)]

theorem reverse_eq (h : IsVector s v) (hrank : s.rank = .vector) :
    v.reverse = if v.isSentinel then .ok v
      else v.elements >>= fun es => Buffer.ofElements s.element es.reverse >>= ofBuffer s := by
  unfold reverse
  rw [h.operand_eq]
  simp only [bind, Except.bind, h.interval?_eq, h.arrayShape_eq, hrank]
  rfl

/-- **A reversal** picks the positions from the last to the first. -/
theorem reverse_positions (h : IsVector s v) (hrank : s.rank = .vector)
    (hknown : s.hasOpenExtent = false) : v.reverse = v.picked s (List.range s.size).reverse := by
  obtain ⟨es, hread⟩ := h.exists_elements fun p hp => List.mem_range.mp hp
  have hes : v.elements = .ok es := by
    unfold elements
    rwa [h.length_eq]
  have hreversed : (List.range s.size).reverse.mapM v.element = .ok es.reverse := by
    rw [Result.mapM_eq_ok_iff] at hread ⊢
    rw [List.map_reverse, List.map_reverse, hread]
  have hshape : Shape.ofExtents s.element [some es.reverse.length] s.isString = s := by
    rw [List.length_reverse, Result.length_of_mapM hread, List.length_range,
      ← Shape.eq_vector hrank hknown]
  rw [reverse_eq h hrank]
  unfold picked
  rw [hes, hreversed]
  show _ = if v.isSentinel then Except.ok (sentinel (Shape.ofExtents s.element
    [some es.reverse.length] s.isString)) else _
  cases h with
  | stored hb =>
    rw [isSentinel_stored hb]
    show (Buffer.ofElements s.element es.reverse >>= ofBuffer s) =
      (Buffer.ofElements s.element es.reverse >>= ofBuffer (Shape.ofExtents s.element
        [some es.reverse.length] s.isString))
    rw [hshape]
  | sentinel _ =>
    rw [hshape]
    rfl

/-- The positions below indices are the ones that the indices select. -/
theorem select_positions (hpositions : ∀ p ∈ positions, p < n) :
    (IndexList.many (positions.map (· + 1 : Nat → Int))).select n =
      .ok (.many positions.toArray) := by
  refine Result.map_eq_ok_iff.mpr ⟨positions, ?_, rfl⟩
  rw [Result.mapM_eq_ok_iff, List.map_map]
  refine List.map_congr_left fun p hp => ?_
  have hlt := hpositions p hp
  show (if 1 ≤ (p : Int) + 1 ∧ (p : Int) + 1 ≤ n then Except.ok ((p : Int) + 1 - 1).toNat else _) = _
  rw [if_pos (by omega)]
  congr
  omega

/-- A selection by positions copies what is picked. -/
theorem gather_positions (h : IsVector s v) (hpositions : ∀ p ∈ positions, p < s.size) :
    (Selection.vector (.many positions.toArray)).gather v = v.picked s positions := by
  have hflat : (List.range positions.length).mapM
      ((Selection.vector (.many positions.toArray)).flatPosition v) = .ok positions :=
    Result.mapM_range_eq_ok fun pos hpos => Selector.get_of_lt hpos
  have hread : (List.range positions.length).mapM (fun pos =>
      (Selection.vector (.many positions.toArray)).flatPosition v pos >>= v.element) =
      positions.mapM v.element :=
    Result.mapM_range fun pos hpos => by
      rw [show (Selection.vector (.many positions.toArray)).flatPosition v pos =
        .ok positions[pos] from Selector.get_of_lt hpos]
      rfl
  obtain ⟨es, hes⟩ := h.exists_elements hpositions
  have hshape : (Selection.vector (.many positions.toArray)).shape s s.size =
      Shape.ofExtents s.element [some es.length] s.isString := by
    rw [Result.length_of_mapM hes]
    rfl
  unfold Selection.gather picked
  rw [h.shape?_eq, h.length_eq]
  show (if v.isSentinel then (List.range positions.length).mapM _ >>= fun _ => _
    else (List.range positions.length).mapM _ >>= fun es => _) = _
  rw [hflat, hread, hes, hshape]
  rfl

/-- **Indexing** picks the positions below the indices. -/
theorem index_positions (scope : Scope) (h : IsVector s v) (hrank : s.rank = .vector)
    (hpositions : ∀ p ∈ positions, p < s.size) {indices : List Int32}
    (hindices : indices.map Int32.toInt = positions.map (· + 1 : Nat → Int)) :
    scope.index (.value v) [.value (vector (.integers indices.toArray))] =
      v.picked s positions := by
  have hempty : v.isEmptyArray = false :=
    (isEmptyArray_eq h.shape?_eq).trans (Shape.isEmptyArray_of_rank (.inl hrank))
  have hfits : (Shape.vector .integer indices.length).Fits (.integers indices.toArray) := ⟨rfl, rfl⟩
  have hlist : IndexList.ofValue (vector (.integers indices.toArray)) =
      .ok (.many (positions.map (· + 1 : Nat → Int))) :=
    hindices ▸ Scope.ofValue_integers hfits rfl
  have hlists : scope.indexLists [.value (vector (.integers indices.toArray))] =
      .ok [.many (positions.map (· + 1 : Nat → Int))] :=
    Result.mapM_eq_ok_iff.mpr (congrArg (fun r => [r]) hlist)
  have hcopy (lists : List IndexList) : scope.indexBy (.value v) v lists =
      Selection.ofIndices v lists >>= fun σ => σ.gather v := by
    cases h <;> rfl
  rw [Scope.index_eq rfl hempty rfl, hlists]
  show scope.indexBy (.value v) v [.many (positions.map (· + 1 : Nat → Int))] = _
  rw [hcopy, Selection.ofIndices_vector h.shape?_eq hrank, select_positions hpositions]
  exact gather_positions h hpositions

/-- Indices are members of the interval from one, at the positions below them. -/
theorem indices_of_members {i : Interval}
    (hmember : ∀ offset < n, (i.member offset).toInt = offset + 1)
    (hpositions : ∀ p ∈ positions, p < n) :
    (positions.map i.member).map Int32.toInt = positions.map (· + 1 : Nat → Int) := by
  rw [List.map_map]
  exact List.map_congr_left fun p hp => hmember p (hpositions p hp)

theorem lt_of_mem_steppedPositions {stride p : Nat} (hstride : 1 ≤ stride)
    (hp : p ∈ steppedPositions n stride) : p < n := by
  obtain ⟨j, hj, rfl⟩ := List.mem_map.mp hp
  exact (lt_steps_iff hstride n j).mp (List.mem_range.mp hj)

/-- **Steps and reversals are indexing.** For a vector as long as an integer can tell, there is the
interval from one to its length. Each step through the vector is indexing it by the interval stepped
through alike, and its reversal is indexing it by the interval reversed. The answers have the kind
and the text flag of the vector, and the elements at the multiples of the step, or all elements from
the last to the first. -/
theorem stepping_is_indexing (scope : Scope) (hv : v.WellFormed) (hs : v.shape? = some s)
    (hrank : s.rank = .vector) (hmixed : v.isMixed = false) (hn : v.length = .ok n)
    (hpos : 1 ≤ n) (hmax : n ≤ 2 ^ 31 - 1) :
    ∃ i, Interval.ofEnds 1 (Int32.ofNat n) = .ok i ∧
      (∀ k : Int32, 1 ≤ k → ∃ indices w, i.every k = .ok indices ∧
        binary .step v (integer k) = .ok w ∧
        scope.index (.value v) [.value (vector (.integers indices.toArray))] = .ok w ∧
        w.shape? = some (Shape.ofExtents s.element [some indices.length] s.isString) ∧
        ∀ j, j * k.toInt.toNat < n → w.element j = v.element (j * k.toInt.toNat)) ∧
      ∃ w, v.reverse = .ok w ∧
        scope.index (.value v) [.value (vector (.integers i.reversed.toArray))] = .ok w ∧
        w.shape? = some s ∧ ∀ j < n, w.element j = v.element (n - 1 - j) := by
  have h : IsVector s v := hv.isVector hs hrank hmixed
  obtain rfl := Except.ok.inj (h.length_eq.symm.trans hn)
  obtain ⟨i, hi, hlength, hmember⟩ := Interval.exists_fromOne hpos hmax
  refine ⟨i, hi, fun k hk => ?_, ?_⟩
  · have hstride := Interval.toNat_pos hk
    have hbelow : ∀ p ∈ steppedPositions s.size k.toInt.toNat, p < s.size := fun p hp =>
      lt_of_mem_steppedPositions hstride hp
    obtain ⟨w, hw, hshape, helement⟩ := exists_picked h hbelow
    refine ⟨_, w, hlength ▸ Interval.every_eq hk, (stepped_positions h hrank hk).trans hw,
      (index_positions scope h hrank hbelow (indices_of_members hmember hbelow)).trans hw, ?_,
      fun j hj => helement j _ ?_⟩
    · rw [hshape, List.length_map]
    · rw [steppedPositions_eq_everyNth hstride, getElem?_everyNth hstride, Nat.zero_add,
        List.getElem?_range hj]
  · have hbelow : ∀ p ∈ (List.range s.size).reverse, p < s.size := fun p hp =>
      List.mem_range.mp (List.mem_reverse.mp hp)
    obtain ⟨w, hw, hshape, helement⟩ := exists_picked h hbelow
    have hreversed : i.reversed = ((List.range s.size).reverse).map i.member := by
      unfold Interval.reversed Interval.toList
      rw [hlength, List.map_reverse]
    refine ⟨w, (reverse_positions h hrank (hv.known hs)).trans hw, ?_, ?_, fun j hj => ?_⟩
    · rw [hreversed]
      exact (index_positions scope h hrank hbelow (indices_of_members hmember hbelow)).trans hw
    · rw [hshape, List.length_reverse, List.length_range, ← Shape.eq_vector hrank (hv.known hs)]
    · refine helement j _ ?_
      rw [List.getElem?_reverse (by rwa [List.length_range]), List.length_range,
        List.getElem?_range (by omega)]

/-- Every second character of a text of five, and the one null that a step longer than the vector
takes. -/
theorem stepping_is_indexing_word :
    let word := string [118, 119, 120, 121, 122]
    let nulls := sentinel (Shape.vector .null 3)
    word.WellFormed ∧ nulls.WellFormed ∧
      binary .step word (integer 2) = .ok (string [118, 120, 122]) ∧
      (Scope.empty 8).index (.value word) [.value (vector (.integers #[1, 3, 5]))] =
        .ok (string [118, 120, 122]) ∧
      word.reverse = .ok (string [122, 121, 120, 119, 118]) ∧
      (Scope.empty 8).index (.value nulls) [.value (vector (.integers #[1]))] =
        binary .step nulls (integer 7) := by
  intro word nulls
  have hword : word.WellFormed := .stored ⟨rfl, rfl⟩ rfl
  have hnulls : nulls.WellFormed := .sentinel rfl rfl
  obtain ⟨i, hi, hsteps, -⟩ := stepping_is_indexing (Scope.empty 8) hword rfl rfl rfl rfl (by decide)
    (by decide)
  obtain ⟨j, hj, hlong, -⟩ := stepping_is_indexing (Scope.empty 8) hnulls rfl rfl rfl rfl (by decide)
    (by decide)
  have hfive : Interval.ofEnds 1 5 = .ok ⟨1, 5, by decide⟩ := rfl
  have hthree : Interval.ofEnds 1 3 = .ok ⟨1, 3, by decide⟩ := rfl
  obtain rfl := Except.ok.inj (hfive.symm.trans hi)
  obtain rfl := Except.ok.inj (hthree.symm.trans hj)
  obtain ⟨indices, w, hindices, hw, hindexed, -⟩ := hsteps 2 (by decide)
  obtain ⟨first, u, hfirst, hu, hsame, -⟩ := hlong 7 (by decide)
  obtain rfl := Except.ok.inj (hindices.symm.trans rfl)
  obtain rfl := Except.ok.inj (hfirst.symm.trans rfl)
  have hstep : binary .step word (integer 2) = .ok (string [118, 120, 122]) := by
    unfold binary
    rfl
  refine ⟨hword, hnulls, hstep, ?_, rfl, hsame.trans hu.symm⟩
  rw [← hstep, hw, ← hindexed]
  rfl

end Value

end ArrayMachine
