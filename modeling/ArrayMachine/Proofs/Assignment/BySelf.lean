import ArrayMachine.Proofs.Assignment.Through
import ArrayMachine.Proofs.Indexing.Chain

/-!
# Assignment through a vector indexed by itself

Indexed by itself or by a copy of itself, a vector of indices selects the same elements. To store
through the two views is not the same. The positions of the one are those that the copy lists. The
other reads each position anew when it comes to it, and meets what the stores before have left.

* `Undisturbed`: no store changes an entry from which a later position is read.
* `Selection.storeAll_bySelf`: then the two loops are the same.
* `Selection.entries_of_storeAll_zero`: storing zeros, the loop fails at an entry it has changed.
* `Session.assign_bySelf`: when the two assignments are the same.
-/

namespace ArrayMachine

/-- The zero-based position that an entry is the index of. -/
def entryPosition (n : Int32) : Nat := (n.toInt - 1).toNat

/-- No store changes an entry from which a later position is read: a store that goes to a later
position, and is the last one to go there before that position is read, leaves the integer that was
there. -/
def Undisturbed (data : Array Int32) (supply : Nat → Result Element) : Prop :=
  ∀ (p q : Nat) (n m : Int32), p < q → data[p]? = some n → data[q]? = some m →
    entryPosition n = q →
    (∀ (i : Nat) (k : Int32), p < i → i < q → data[i]? = some k → entryPosition k ≠ q) →
    ∀ e r, supply p = .ok e → e.promote .integer = .ok r → r = .integer m

/-- No entry is the index of a position behind its own. -/
def NoneAhead (data : Array Int32) : Prop :=
  ∀ (pos : Nat) (n : Int32), data[pos]? = some n → entryPosition n ≤ pos

/-- If no entry points ahead, there is nothing to disturb. -/
theorem NoneAhead.undisturbed {data : Array Int32} (h : NoneAhead data)
    (supply : Nat → Result Element) : Undisturbed data supply := by
  intro p q n m hpq hn hm hq
  have hle := h p n hn
  omega

namespace Selection

/-- The positions that the entries are the indices of. -/
def listed (data : Array Int32) : Selection :=
  .vector (.many (data.toList.map entryPosition).toArray)

variable {σ τ : Selection} {rs : Shape} {data : Array Int32} {d d' : Buffer} {x r : Value}
  {single : Bool} {count pos p : Nat} {n : Int32}

theorem position_eq {bound : Nat} (h : 1 ≤ n.toInt ∧ n.toInt ≤ bound) :
    IndexList.position bound n.toInt = .ok (entryPosition n) := if_pos h

theorem flatPosition_listed (hn : data[pos]? = some n) (root : Value) :
    (listed data).flatPosition root pos = .ok (entryPosition n) := by
  show (Selector.many (data.toList.map entryPosition).toArray).get pos = _
  rw [Selector.get_eq]
  simp [Selector.positions, hn]

/-- What a vector indexed by itself reaches, its element there is the index of. -/
theorem flatPosition_bySelf_eq_ok (hd : rs.Fits d)
    (h : bySelf.flatPosition (Value.stored rs d) pos = .ok p) :
    ∃ n : Int32, d.elements[pos]? = some (.integer n) ∧ n.toInt = p + 1 ∧ p < rs.size := by
  obtain ⟨length, hlength, h⟩ := Result.bind_eq_ok_iff.mp h
  obtain rfl : rs.size = length := Except.ok.inj hlength
  obtain ⟨e, he, h⟩ := Result.bind_eq_ok_iff.mp h
  rw [Value.element_stored_eq_ok_iff hd] at he
  split at h
  · rename_i n
    refine ⟨n, he, ?_⟩
    unfold IndexList.position at h
    split at h
    · obtain rfl := Except.ok.inj h
      omega
    · cases h
  · cases h

/-- Selections of one shape that reach the same position store the same. -/
theorem storeNext_congr {b : Buffer} (hshape : σ.shape rs rs.size = τ.shape rs rs.size)
    (hflat : σ.flatPosition (Value.stored rs b) pos = τ.flatPosition (Value.stored rs b) pos)
    (x : Value) (single : Bool) :
    σ.storeNext x single (Value.stored rs b) pos =
      τ.storeNext x single (Value.stored rs b) pos := by
  have hselected : Scope.selectedShape σ (Value.stored rs b) =
      Scope.selectedShape τ (Value.stored rs b) := congrArg Except.ok hshape
  unfold storeNext store
  rw [hselected, hflat]

/-! ## Undisturbed stores -/

/-- From a position on, the root has the entries, but for those that are written over before they
are read. -/
def Ahead (data : Array Int32) (d : Buffer) (pos : Nat) : Prop :=
  ∀ (q : Nat) (m : Int32), pos ≤ q → data[q]? = some m →
    (∀ (i : Nat) (k : Int32), pos ≤ i → i < q → data[i]? = some k → entryPosition k ≠ q) →
    d.elements[q]? = some (.integer m)

theorem ahead_start (data : Array Int32) (pos : Nat) : Ahead data (.integers data) pos := by
  intro q m _ hm _
  simp [Buffer.elements, hm]

/-- An undisturbed store keeps ahead what will be read. -/
theorem Ahead.set {e v : Element} (h : Ahead data d pos)
    (hundisturbed : Undisturbed data (x.supply single)) (hn : data[pos]? = some n)
    (hsupply : x.supply single pos = .ok e) (hv : e.promote .integer = .ok v)
    (hlt : entryPosition n < d.elements.length)
    (hd' : d'.elements = d.elements.set (entryPosition n) v) : Ahead data d' (pos + 1) := by
  intro q m hq hm hlater
  rw [hd']
  by_cases heq : entryPosition n = q
  · -- the store at `pos` is the last to go to `q`
    have hsame : v = .integer m :=
      hundisturbed pos q n m hq hn hm heq (fun i k hi => hlater i k hi) e v hsupply hv
    rw [← heq, List.getElem?_set_self hlt, hsame]
  · rw [List.getElem?_set_ne heq]
    refine h q m (by omega) hm fun i k hi hiq hk => ?_
    by_cases hpos : i = pos
    · subst hpos
      obtain rfl := Option.some.inj (hn.symm.trans hk)
      exact heq
    · exact hlater i k (by omega) hiq hk

theorem shape_listed (hsize : data.size = rs.size) :
    bySelf.shape rs rs.size = (listed data).shape rs rs.size := by
  simp [shape, listed, hsize]

/-- **Undisturbed, the loop through the vector indexed by itself** is the loop through the positions
that its entries list. -/
theorem storeAll_bySelf (hsize : data.size = rs.size) (hinteger : rs.element = .integer)
    (hin : ∀ n ∈ data, 1 ≤ n.toInt ∧ n.toInt ≤ rs.size)
    (hundisturbed : Undisturbed data (x.supply single)) (hd : rs.Fits d)
    (hahead : Ahead data d pos) (hcount : pos + count ≤ rs.size) :
    bySelf.storeAll x single (Value.stored rs d) count pos =
      (listed data).storeAll x single (Value.stored rs d) count pos := by
  induction count generalizing d pos with
  | zero => rfl
  | succ count ih =>
    have hpos : pos < data.size := by omega
    have hn : data[pos]? = some data[pos] := Array.getElem?_eq_getElem hpos
    have hread : d.elements[pos]? = some (.integer data[pos]) :=
      hahead pos _ (Nat.le_refl pos) hn fun i k hi hlt => absurd hi (Nat.not_le.mpr hlt)
    have hflat : bySelf.flatPosition (Value.stored rs d) pos =
        (listed data).flatPosition (Value.stored rs d) pos := by
      rw [flatPosition_bySelf_eq hd hread, flatPosition_listed hn,
        position_eq (hin _ (Array.getElem_mem hpos))]
    have hsame := storeNext_congr (shape_listed hsize) hflat x single
    cases hnext : (listed data).storeNext x single (Value.stored rs d) pos with
    | error fault => rw [storeAll_of_error hnext, storeAll_of_error (hsame.trans hnext)]
    | ok root =>
      rw [storeAll_of_ok hnext, storeAll_of_ok (hsame.trans hnext)]
      obtain ⟨-, p, v, d', hp, hlt, hv, hkind, hd', rfl⟩ := storeNext_eq_ok_iff.mp hnext
      obtain rfl := Except.ok.inj ((flatPosition_listed hn _).symm.trans hp)
      obtain ⟨e, he, hv⟩ := Result.bind_eq_ok_iff.mp hv
      rw [hd.kind, hinteger] at hv
      rw [← Buffer.length_elements] at hlt
      have hfits : rs.Fits d' :=
        ⟨hkind.trans hd.kind, (Buffer.length_of_set_elements hd').trans hd.size⟩
      exact ih hfits (hahead.set hundisturbed hn he hv hlt hd') (by omega)

/-! ## Stores of zeros -/

/-- **Storing zeros through a vector indexed by itself** comes to the end only if no entry points
ahead: a zero that is met is no index. -/
theorem entries_of_storeAll_zero (hd : rs.Fits d) (hcount : pos + count = rs.size)
    (h : bySelf.storeAll (Value.integer 0) true (Value.stored rs d) count pos = (.ok (), r)) :
    ∀ i, pos ≤ i → i < rs.size →
      ∃ n : Int32, d.elements[i]? = some (.integer n) ∧ 1 ≤ n.toInt ∧ n.toInt ≤ i + 1 := by
  induction count generalizing d pos with
  | zero =>
    intro i hi hlt
    omega
  | succ count ih =>
    cases hnext : bySelf.storeNext (Value.integer 0) true (Value.stored rs d) pos with
    | error fault =>
      rw [storeAll_of_error hnext] at h
      cases (Prod.mk.inj h).1
    | ok root =>
      rw [storeAll_of_ok hnext] at h
      obtain ⟨-, p, v, d', hp, hlt, hv, hkind, hd', rfl⟩ := storeNext_eq_ok_iff.mp hnext
      obtain ⟨n, hn, hindex, hpsize⟩ := flatPosition_bySelf_eq_ok hd hp
      have hinteger : d.kind = .integer :=
        (Buffer.kind_of_mem_elements (List.mem_of_getElem? hn)).symm
      rw [hinteger] at hv
      obtain rfl : Element.integer 0 = v := Except.ok.inj hv
      have hrest := ih ⟨hkind.trans hd.kind, (Buffer.length_of_set_elements hd').trans hd.size⟩
        (by omega) h
      have hbehind : p ≤ pos := by
        refine Nat.le_of_not_lt fun hahead => ?_
        obtain ⟨k, hk, hpositive, -⟩ := hrest p hahead hpsize
        rw [hd', List.getElem?_set_self (by rwa [Buffer.length_elements])] at hk
        obtain rfl : 0 = k := by simpa using hk
        simp at hpositive
      intro i hi hlt
      by_cases hpos : i = pos
      · subst hpos
        exact ⟨n, hn, by omega, by omega⟩
      · obtain ⟨k, hk, hbounds⟩ := hrest i (by omega) hlt
        rw [hd', List.getElem?_set_ne (by omega)] at hk
        exact ⟨k, hk, hbounds⟩

/-- Zeros are stored through the positions that the entries list without a fault. -/
theorem exists_storeAll_listed (hsize : data.size = rs.size) (hinteger : rs.element = .integer)
    (hin : ∀ n ∈ data, 1 ≤ n.toInt ∧ n.toInt ≤ rs.size) (hd : rs.Fits d) :
    ∃ r, (listed data).storeAll (Value.integer 0) true (Value.stored rs d) rs.size 0 =
      (.ok (), r) := by
  have hcount : (listed data).count rs.size = rs.size := by
    simp [listed, Selection.count, Selector.length, hsize]
  refine exists_storeAll (by simp [listed]) (by omega) ?_ ?_
  · intro i hi
    have hlt : i < data.size := by omega
    obtain ⟨hpositive, hle⟩ := hin _ (Array.getElem_mem hlt)
    refine ⟨_, flatPosition_listed (Array.getElem?_eq_getElem hlt) _, ?_⟩
    rw [hd.size]
    unfold entryPosition
    omega
  · intro i _
    rw [hd.kind, hinteger]
    exact ⟨.integer 0, rfl⟩

end Selection

/-! ## The two views -/

namespace Scope

variable {scope : Scope} {v : Handle} {rs : Shape} {data : Array Int32} {operand : IndexOperand}

/-- The index list that a vector of integers stands for. -/
theorem indexLists_integers (hrank : rs.rank = .vector) (hfits : rs.Fits (.integers data))
    (hoperand : scope.operandValue operand = .ok (Value.stored rs (.integers data))) :
    scope.indexLists [operand] = .ok [.many (data.toList.map Int32.toInt)] := by
  unfold indexLists
  rw [List.mapM_cons, hoperand]
  show ((IndexList.ofValue (Value.stored rs (.integers data))) >>= _) = _
  rw [ofValue_integers hfits hrank]
  rfl

/-- Entries that are all indices are those of positions. -/
theorem mapM_position (hin : ∀ n ∈ data, 1 ≤ n.toInt ∧ n.toInt ≤ rs.size) :
    (data.toList.map Int32.toInt).mapM (IndexList.position rs.size) =
      .ok (data.toList.map entryPosition) := by
  rw [Result.mapM_eq_ok_iff, List.map_map, List.map_map]
  refine List.map_congr_left fun n hn => ?_
  exact Selection.position_eq (hin n (Array.mem_toList_iff.mp hn))

/-- **Indexed by itself**, a vector of indices gives the view that reads it anew. -/
theorem index_bySelf (hrank : rs.rank = .vector) (hfits : rs.Fits (.integers data))
    (hin : ∀ n ∈ data, 1 ≤ n.toInt ∧ n.toInt ≤ rs.size)
    (hv : scope.get v = .ok (Value.stored rs (.integers data))) :
    scope.index (.anchored v) [.anchored v] =
      .ok (Value.ofView (Selection.bySelf.shape rs rs.size) ⟨v, .bySelf⟩) := by
  have hempty := Shape.isEmptyArray_of_rank (.inl hrank)
  have hbase : scope.operandValue (.anchored v) = .ok (Value.stored rs (.integers data)) := hv
  have hself : selfIndexed? (.anchored v) (Value.stored rs (.integers data)) [.anchored v] =
      some v := by
    simp [selfIndexed?, isIntegerVector, Value.rank?, Value.shape?, Value.stored,
      ValueType.shape?, Value.buffer?, hrank, Buffer.kind]
  rw [index_self hbase hempty hself, indexLists_integers hrank hfits hbase]
  show ((List.range rs.size).mapM (Selection.bySelf.flatPosition _) >>= fun _ => _) = _
  rw [mapM_flatPosition_bySelf hfits, mapM_position hin]
  rfl

/-- **Indexed by a copy of itself**, it gives the view of the positions that it lists. -/
theorem index_listed (hrank : rs.rank = .vector) (hfits : rs.Fits (.integers data))
    (hin : ∀ n ∈ data, 1 ≤ n.toInt ∧ n.toInt ≤ rs.size)
    (hv : scope.get v = .ok (Value.stored rs (.integers data)))
    (hcopy : scope.operandValue operand = .ok (Value.stored rs (.integers data)))
    (hother : operand ≠ .anchored v) :
    scope.index (.anchored v) [operand] =
      .ok (Value.ofView ((Selection.listed data).shape rs rs.size) ⟨v, .listed data⟩) := by
  have hempty := Shape.isEmptyArray_of_rank (.inl hrank)
  have hbase : scope.operandValue (.anchored v) = .ok (Value.stored rs (.integers data)) := hv
  have hself : selfIndexed? (.anchored v) (Value.stored rs (.integers data)) [operand] = none := by
    cases operand with
    | anchored other =>
      have hne : v ≠ other := fun heq => hother (heq ▸ rfl)
      simp [selfIndexed?, hne]
    | value x => rfl
  rw [index_eq hbase hempty hself, indexLists_integers hrank hfits hcopy]
  show (Selection.ofIndices (Value.stored rs (.integers data)) _ >>= _) = _
  have hselect : (IndexList.many (data.toList.map Int32.toInt)).select rs.size =
      .ok (.many (data.toList.map entryPosition).toArray) := by
    show (Selector.many ∘ List.toArray) <$> _ = _
    rw [mapM_position hin]
    rfl
  rw [Selection.ofIndices_vector rfl hrank, hselect]
  rfl

end Scope

/-! ## The two assignments -/

namespace Session

variable {s : Session} {u v w target : Handle} {rs : Shape} {b : Buffer}
  {data : Array Int32} {operand : IndexOperand}

/-- A zero in every position of a view. -/
theorem assign_zero (σ : Selection) (hcount : σ.count rs.size = rs.size)
    (htarget : s.scope.get target = .ok (Value.ofView (σ.shape rs rs.size) ⟨v, σ⟩))
    (hv : s.scope.get v = .ok (Value.stored rs b)) :
    (s.assign target (Value.integer 0)).1 =
      (σ.storeAll (Value.integer 0) true (Value.stored rs b) rs.size 0).1 := by
  have hlength : (Value.ofView (σ.shape rs rs.size) ⟨v, σ⟩).length = .ok rs.size := by
    show Except.ok (σ.shape rs rs.size).size = _
    rw [Selection.size_shape, hcount]
  have hcopy : s.copy (Value.integer 0) = .ok (Value.integer 0) := rfl
  rw [assign_eq hcopy, assignCopy_view htarget rfl hlength, assignThrough_fit hv rfl (.inl rfl)]
  rfl

/-- **Assignment through a vector indexed by itself** is assignment through the positions that its
entries list, faults included, if the stores leave undisturbed what is read after them. That is so
of every value just if no entry points ahead: otherwise the one finds a zero where the other does
not look any more. In any case only the elements of the vector are changed. -/
theorem assign_bySelf (hrank : rs.rank = .vector) (hfits : rs.Fits (.integers data))
    (hin : ∀ n ∈ data, 1 ≤ n.toInt ∧ n.toInt ≤ rs.size)
    (hv : s.scope.get v = .ok (Value.stored rs (.integers data)))
    (hcopy : s.scope.operandValue operand = .ok (Value.stored rs (.integers data)))
    (hother : operand ≠ .anchored v) :
    ∃ own listed : Value, s.scope.index (.anchored v) [.anchored v] = .ok own ∧
      s.scope.index (.anchored v) [operand] = .ok listed ∧
      ∀ {u w : Handle}, s.scope.get u = .ok own → s.scope.get w = .ok listed →
        (∀ x : Value,
          (∀ (copy : Value) (supplied : Nat), s.copy x = .ok copy → copy.length = .ok supplied →
            Undisturbed data (copy.supply (supplied = 1))) →
          s.assign u x = s.assign w x) ∧
        ((∀ x : Value, s.assign u x = s.assign w x) ↔ NoneAhead data) ∧
        ∀ target : Handle, target = u ∨ target = w → ∀ x : Value, ∃ c : Buffer, rs.Fits c ∧
          (s.assign target x).2 =
            { s with scope := s.scope.write v (Value.stored rs c) } := by
  have hsize : data.size = rs.size := hfits.size
  have hinteger : rs.element = .integer := hfits.kind.symm
  have hcount : (Selection.listed data).count rs.size = rs.size := by
    rw [← Selection.size_shape _ rs, ← Selection.shape_listed hsize]
    rfl
  refine ⟨_, _, Scope.index_bySelf hrank hfits hin hv,
    Scope.index_listed hrank hfits hin hv hcopy hother, fun {u w} hu hw => ?_⟩
  have hsame : ∀ x : Value,
      (∀ (copy : Value) (supplied : Nat), s.copy x = .ok copy → copy.length = .ok supplied →
        Undisturbed data (copy.supply (supplied = 1))) → s.assign u x = s.assign w x := by
    intro x hundisturbed
    refine assign_through_congr hu rfl hw rfl ?_ hv fun copy length supplied hx hlength hs => ?_
    · rw [Selection.shape_listed hsize]
      rfl
    · obtain rfl : rs.size = length := Except.ok.inj hlength
      exact Selection.storeAll_bySelf hsize hinteger hin (hundisturbed copy supplied hx hs) hfits
        (Selection.ahead_start data 0) (Nat.le_of_eq (Nat.zero_add _))
  refine ⟨hsame, ⟨fun hall => ?_, fun hnone x => ?_⟩, ?_⟩
  · obtain ⟨r, hr⟩ := Selection.exists_storeAll_listed hsize hinteger hin hfits
    have hown : (Selection.bySelf.storeAll (Value.integer 0) true
        (Value.stored rs (.integers data)) rs.size 0).1 = .ok () := by
      rw [← assign_zero .bySelf rfl hu hv, hall, assign_zero _ hcount hw hv, hr]
    intro pos n hn
    have hpos : pos < rs.size := hsize ▸ (Array.getElem?_eq_some_iff.mp hn).1
    obtain ⟨k, hk, -, hle⟩ := Selection.entries_of_storeAll_zero hfits (Nat.zero_add _)
      (Prod.ext hown rfl) pos (Nat.zero_le pos) hpos
    obtain rfl : n = k := by simpa [Buffer.elements, hn] using hk
    unfold entryPosition
    omega
  · exact hsame x fun copy supplied _ _ => hnone.undisturbed _
  · rintro target htarget x
    have hkeeps : ∃ c : Buffer, c.kind = (Buffer.integers data).kind ∧
        c.length = (Buffer.integers data).length ∧ (s.assign target x).2 =
          { s with scope := s.scope.write v (Value.stored rs c) } := by
      rcases htarget with rfl | rfl
      · exact assign_through_keeps hu rfl hv x
      · exact assign_through_keeps hw rfl hv x
    obtain ⟨c, hkind, hlength, hc⟩ := hkeeps
    exact ⟨c, ⟨hkind.trans hfits.kind, hlength.trans hfits.size⟩, hc⟩

/-- The first entry points ahead, but what is stored there is the index that was there. -/
theorem assign_bySelf_undisturbed :
    let start := Session.start Settings.default [] Sink.empty
    let v := Value.vector (.integers #[2, 2, 1])
    let own := Value.ofView (Shape.vector .integer 3) ⟨⟨0, 0⟩, .bySelf⟩
    let listed := Value.ofView (Shape.vector .integer 3) ⟨⟨0, 0⟩, .vector (.many #[1, 1, 0])⟩
    let x := Value.vector (.integers #[2, 7, 9])
    let s := (((start.allocate v).2.allocate own).2.allocate listed).2
    s.scope.get ⟨0, 0⟩ = .ok v ∧ s.scope.index (.anchored ⟨0, 0⟩) [.anchored ⟨0, 0⟩] = .ok own ∧
      s.scope.index (.anchored ⟨0, 0⟩) [.value v] = .ok listed ∧
      Undisturbed #[2, 2, 1] (x.supply false) ∧ s.assign ⟨1, 1⟩ x = s.assign ⟨2, 2⟩ x ∧
      (s.assign ⟨1, 1⟩ x).2.scope.get ⟨0, 0⟩ = .ok (Value.vector (.integers #[9, 7, 1])) := by
  intro start v own listed x s
  have hundisturbed : Undisturbed #[2, 2, 1] (x.supply false) := by
    intro p q n m hpq hn hm hq _ e r he hr
    have hlt : q < 3 := (Array.getElem?_eq_some_iff.mp hm).1
    have hcases : (p = 0 ∧ q = 1) ∨ (p = 0 ∧ q = 2) ∨ (p = 1 ∧ q = 2) := by omega
    rcases hcases with ⟨rfl, rfl⟩ | ⟨rfl, rfl⟩ | ⟨rfl, rfl⟩
    · obtain rfl := Option.some.inj hm
      obtain rfl := Except.ok.inj he
      exact (Except.ok.inj hr).symm
    · obtain rfl := Option.some.inj hn
      cases hq
    · obtain rfl := Option.some.inj hn
      cases hq
  have hrank : (Shape.vector .integer 3).rank = .vector := rfl
  have hfits : (Shape.vector .integer 3).Fits (.integers #[2, 2, 1]) := ⟨rfl, rfl⟩
  have hin : ∀ n ∈ #[(2 : Int32), 2, 1], 1 ≤ n.toInt ∧ n.toInt ≤ (3 : Nat) := by
    intro n hn
    obtain rfl | rfl : n = 2 ∨ n = 1 := by simpa using hn
    · decide
    · decide
  have hv : s.scope.get ⟨0, 0⟩ = .ok v := rfl
  have hcopy : s.scope.operandValue (.value v) = .ok v := rfl
  obtain ⟨own', listed', hown, hlisted, hassign⟩ :=
    assign_bySelf hrank hfits hin hv hcopy nofun
  obtain rfl := Except.ok.inj hown
  obtain rfl := Except.ok.inj hlisted
  refine ⟨rfl, rfl, rfl, hundisturbed, (hassign rfl rfl).1 x ?_, rfl⟩
  rintro copy supplied hcopy hsupplied
  obtain rfl := Except.ok.inj hcopy
  obtain rfl := Except.ok.inj hsupplied
  exact hundisturbed

/-- **A store through a vector indexed by itself does not go to the positions selected at first**:
the first of these two stores changes the position of the second. -/
theorem assign_bySelf_disturbed :
    let start := Session.start Settings.default [] Sink.empty
    let v := Value.vector (.integers #[2, 1])
    let own := Value.ofView (Shape.vector .integer 2) ⟨⟨0, 0⟩, .bySelf⟩
    let listed := Value.ofView (Shape.vector .integer 2) ⟨⟨0, 0⟩, .vector (.many #[1, 0])⟩
    let x := Value.vector (.integers #[2, 7])
    let s := (((start.allocate v).2.allocate own).2.allocate listed).2
    s.scope.get ⟨0, 0⟩ = .ok v ∧ s.scope.index (.anchored ⟨0, 0⟩) [.anchored ⟨0, 0⟩] = .ok own ∧
      s.scope.index (.anchored ⟨0, 0⟩) [.value v] = .ok listed ∧
      s.scope.get ⟨1, 1⟩ = .ok own ∧ s.scope.get ⟨2, 2⟩ = .ok listed ∧
      (s.assign ⟨1, 1⟩ x).1 = .ok () ∧ (s.assign ⟨2, 2⟩ x).1 = .ok () ∧
      (s.assign ⟨1, 1⟩ x).2.scope.get ⟨0, 0⟩ = .ok (Value.vector (.integers #[2, 7])) ∧
      (s.assign ⟨2, 2⟩ x).2.scope.get ⟨0, 0⟩ = .ok (Value.vector (.integers #[7, 2])) ∧
      s.assign ⟨1, 1⟩ x ≠ s.assign ⟨2, 2⟩ x := by
  intro start v own listed x s
  refine ⟨rfl, rfl, rfl, rfl, rfl, rfl, rfl, rfl, rfl, fun hsame => ?_⟩
  have hroots : (s.assign ⟨1, 1⟩ x).2.scope.get ⟨0, 0⟩ =
      (s.assign ⟨2, 2⟩ x).2.scope.get ⟨0, 0⟩ := by rw [hsame]
  obtain ⟨-, hbuffers⟩ := Value.mk.inj (Except.ok.inj hroots)
  exact absurd (Buffer.integers.inj (Payload.elements.inj hbuffers)) (by decide)

end Session

end ArrayMachine
