import ArrayMachine.Proofs.Indexing.Compose

/-!
# A chain of views is a chain of copies

Indexing a stored array on the stack gives a view of it, and indexing that view another one. Here is
what each of these steps would give if it indexed a plain copy of its base instead: the same, or a
fault of the same sort. A view is worth its copy, however long the chain that has led to it. This
holds as long as a word counts the elements of each base. A matrix whose rows times columns come
around has fewer elements than positions, and then a view of it cannot be copied
(`index_chain_uncounted`).

* `indexedAlike_root`, `indexedAlike_view`: one step, from the root and from a view of it.
* `linked_of_chain`: what a chain of any length leads to is a view of the root that can be copied.
* `index_chain_alike`: any step of a chain, compared with indexing a copy.
-/

namespace ArrayMachine

namespace Scope

variable {scope : Scope} {root : Handle} {operand : IndexOperand} {indices : List IndexOperand}
  {value base v : Value} {rs : Shape} {b : Buffer} {σ : Selection}

/-! ## Indexing in parts -/

/-- The index lists that the operands stand for. -/
def indexLists (scope : Scope) (indices : List IndexOperand) : Result (List IndexList) :=
  indices.mapM fun operand => do
    IndexList.ofValue (← scope.materialize (← scope.operandValue operand))

theorem index_eq (hbase : scope.operandValue operand = .ok base) (hempty : base.isEmptyArray = false)
    (hself : selfIndexed? operand base indices = none) :
    scope.index operand indices = scope.indexLists indices >>= scope.indexBy operand base := by
  unfold index
  rw [hbase]
  show (scope.indexLists indices >>= fun lists => _) = _
  rw [hempty, hself]
  rfl

theorem index_self (hbase : scope.operandValue operand = .ok base)
    (hempty : base.isEmptyArray = false) {other : Handle}
    (hself : selfIndexed? operand base indices = some other) :
    scope.index operand indices = scope.indexLists indices >>= fun _ =>
      base.length >>= fun length =>
        (List.range length).mapM (Selection.bySelf.flatPosition base) >>= fun _ =>
          viewOf base other .bySelf := by
  unfold index
  rw [hbase]
  show (scope.indexLists indices >>= fun lists => _) = _
  rw [hempty, hself]
  rfl

/-- Only a variable that holds integers is indexed by itself. -/
theorem selfIndexed?_eq_some {other : Handle}
    (h : selfIndexed? operand base indices = some other) :
    operand = .anchored other ∧ indices = [.anchored other] ∧ isIntegerVector base = true := by
  unfold selfIndexed? at h
  split at h
  · split at h
    · rename_i hin
      obtain ⟨heq, hvector⟩ := Bool.and_eq_true_iff.mp hin
      obtain rfl := Option.some.inj h
      obtain rfl := of_decide_eq_true heq
      exact ⟨rfl, rfl, hvector⟩
    · cases h
  · cases h

/-- **What an index step gives**: the empty array, what index lists select, or a variable that holds
integers seen by itself. -/
theorem index_eq_ok (hbase : scope.operandValue operand = .ok base)
    (h : scope.index operand indices = .ok v) :
    v = Value.emptyArray ∨ (∃ lists, scope.indexBy operand base lists = .ok v) ∨
      ∃ other, operand = .anchored other ∧ isIntegerVector base = true ∧
        viewOf base other .bySelf = .ok v := by
  cases hempty : base.isEmptyArray with
  | true =>
    obtain ⟨base', hbase', h⟩ := Result.bind_eq_ok_iff.mp h
    obtain rfl := Except.ok.inj (hbase.symm.trans hbase')
    obtain ⟨lists, -, h⟩ := Result.bind_eq_ok_iff.mp h
    rw [if_pos hempty] at h
    split at h
    · exact .inl (Except.ok.inj h).symm
    · cases h
  | false =>
    cases hself : selfIndexed? operand base indices with
    | none =>
      rw [index_eq hbase hempty hself] at h
      obtain ⟨lists, -, h⟩ := Result.bind_eq_ok_iff.mp h
      exact .inr (.inl ⟨lists, h⟩)
    | some other =>
      rw [index_self hbase hempty hself] at h
      obtain ⟨lists, -, h⟩ := Result.bind_eq_ok_iff.mp h
      obtain ⟨n, -, h⟩ := Result.bind_eq_ok_iff.mp h
      obtain ⟨positions, -, h⟩ := Result.bind_eq_ok_iff.mp h
      obtain ⟨hother, -, hvector⟩ := selfIndexed?_eq_some hself
      exact .inr (.inr ⟨other, hother, hvector, h⟩)

theorem of_isIntegerVector (h : isIntegerVector (Value.stored rs b) = true) :
    rs.rank = .vector ∧ ∃ data, b = .integers data := by
  obtain ⟨hrank, hkind⟩ := Bool.and_eq_true_iff.mp h
  constructor
  · simpa [Value.rank?, Value.shape?, Value.stored, ValueType.shape?] using hrank
  · cases b with
    | integers data => exact ⟨data, rfl⟩
    | _ => cases hkind

/-- Indexing a copy that is not on the stack. -/
theorem index_value (hempty : rs.isEmptyArray = false) :
    scope.index (.value (Value.stored rs b)) indices =
      scope.indexLists indices >>= fun lists =>
        Selection.ofIndices (Value.stored rs b) lists >>=
          fun τ => τ.gather (Value.stored rs b) := by
  have hbase : scope.operandValue (.value (Value.stored rs b)) = .ok (Value.stored rs b) := rfl
  rw [index_eq hbase hempty rfl]
  rfl

/-- The first place of a matrix without elements is refused. -/
theorem index_uncounted (scope : Scope) :
    scope.index
        (.value (Value.stored (Shape.matrix .integer 4294967296 4294967296) (.integers #[])))
        [.value (Value.integer 1), .value (Value.integer 1)] = .error (.indexOutOfRange 1 0) := by
  have hlists : scope.indexLists [.value (Value.integer 1), .value (Value.integer 1)] =
    .ok [.single 1, .single 1] := rfl
  have hselected : Selection.ofIndices
      (Value.stored (Shape.matrix .integer 4294967296 4294967296) (.integers #[]))
      [.single 1, .single 1] = .ok (.matrix (.single 0) (.single 0)) := rfl
  rw [index_value rfl, hlists]
  simp only [bind, Except.bind, hselected]
  exact Selection.gather_uncounted

theorem viewOf_stored (rs : Shape) (b : Buffer) (root : Handle) (σ : Selection) :
    viewOf (Value.stored rs b) root σ = .ok (Value.ofView (σ.shape rs rs.size) ⟨root, σ⟩) := rfl

theorem materialize_ofView (hroot : scope.get root = .ok value) (shape : Shape) (σ : Selection) :
    scope.materialize (Value.ofView shape ⟨root, σ⟩) = σ.gather value := by
  show (scope.get root >>= fun r => σ.gather r) = _
  rw [hroot]
  rfl

/-! ## Chains -/

/-- The views that chains of index steps from a root lead to, a word counting the elements of each
base. At each step the root holds the same value, and the base, which is the latest view, is a
temporary or anywhere on the stack; all else may be another stack. -/
inductive Chain (root : Handle) (value : Value) : Value → Prop where
  | first {scope : Scope} {indices : List IndexOperand} {v : Value} :
    value.Countable → scope.get root = .ok value →
    scope.index (.anchored root) indices = .ok v → Chain root value v
  | next {scope : Scope} {base v : Value} {operand : IndexOperand} {indices : List IndexOperand} :
    Chain root value base → base.Countable → scope.get root = .ok value →
    scope.operandValue operand = .ok base → scope.index operand indices = .ok v →
    Chain root value v

/-- The base of the next step: the root, or a view that a chain has led to. -/
inductive ChainBase (scope : Scope) (root : Handle) (value : Value) :
    IndexOperand → Value → Prop where
  | root : ChainBase scope root value (.anchored root) value
  | view {operand : IndexOperand} {base : Value} : Chain root value base →
    scope.operandValue operand = .ok base → ChainBase scope root value operand base

/-- What indexing in place and indexing a copy give: faults of one sort, or a view of the root and
the copy it is worth, of the same type. -/
inductive IndexedAlike (scope : Scope) (root : Handle) : Result Value → Result Value → Prop where
  | fault {f g : Fault} : f.code = g.code → IndexedAlike scope root (.error f) (.error g)
  | view {shape : Shape} {selection : Selection} {copy : Value} : copy.type = .array shape →
    scope.materialize (Value.ofView shape ⟨root, selection⟩) = .ok copy →
    IndexedAlike scope root (.ok (Value.ofView shape ⟨root, selection⟩)) (.ok copy)

/-! ## Selections that agree -/

/-- Selections that agree make a view and its copy. -/
theorem indexedAlike_of_agree (hroot : scope.get root = .ok (Value.stored rs b)) {cs : Shape}
    {c : Buffer} (h : rs.Fits b) (hc : cs.Fits c) (hcount : cs.Countable)
    {x y : Result Selection} {lists : List IndexList}
    (hy : y = Selection.ofIndices (Value.stored cs c) lists)
    (hagree : Selection.Agree (Value.stored rs b) rs (Value.stored cs c) cs x y) :
    IndexedAlike scope root (x >>= viewOf (Value.stored rs b) root)
      (y >>= fun τ => τ.gather (Value.stored cs c)) := by
  cases hagree with
  | fault hcode => exact .fault hcode
  | @same ρ τ hshape hreach =>
    have hcopy : (Value.stored cs c).shape? = some cs := rfl
    obtain ⟨hwithin, hne⟩ := Selection.within_ofIndices hcopy hy.symm
    obtain ⟨d, hd, hgather⟩ := Selection.gather_of_within hc hcount hwithin hne
    have hcongr := Selection.gather_congr h hc hshape hreach
    show IndexedAlike scope root (.ok (Value.ofView (ρ.shape rs rs.size) ⟨root, ρ⟩))
      (τ.gather (Value.stored cs c))
    rw [hgather, hshape]
    refine .view rfl ?_
    rw [materialize_ofView hroot, hcongr, hgather]

/-! ## A vector indexed by itself -/

section Self

variable {data : Array Int32}

/-- Stored integers as indices. -/
theorem ofValue_integers (h : rs.Fits (.integers data)) (hrank : rs.rank = .vector) :
    IndexList.ofValue (Value.stored rs (.integers data)) =
      .ok (.many (data.toList.map Int32.toInt)) := by
  have helements := Value.elements_stored h
  have hindices : ((Buffer.integers data).elements).mapM IndexList.ofElement =
      .ok (data.toList.map Int32.toInt) := by
    rw [Result.mapM_eq_ok_iff, Buffer.elements, List.map_map, List.map_map]
    rfl
  have hpromoted : (Value.stored rs (.integers data)).promoteMixed =
      .ok (Value.stored rs (.integers data)) := rfl
  simp only [IndexList.ofValue, hpromoted, helements, hindices, bind, Except.bind, pure,
    Except.pure]
  simp only [Value.stored, Value.interval?, Value.shape?, ValueType.shape?, hrank]

/-- The positions of a vector of integers indexed by itself are those of its elements as indices. -/
theorem mapM_flatPosition_bySelf (h : rs.Fits (.integers data)) :
    (List.range rs.size).mapM (Selection.bySelf.flatPosition (Value.stored rs (.integers data))) =
      (data.toList.map Int32.toInt).mapM (IndexList.position rs.size) := by
  have hlen : rs.size = data.toList.length := h.size.symm
  rw [List.mapM_map]
  conv => lhs; rw [hlen]
  refine Result.mapM_range fun pos hpos => ?_
  have hpos' : pos < (Buffer.integers data).elements.length := by simpa [Buffer.elements] using hpos
  show ((Value.stored rs (.integers data)).element pos >>= _) = _
  rw [Value.element_stored_of_lt h hpos']
  simp only [Buffer.elements, List.getElem_map]
  rfl

/-- The selection of a vector by itself agrees with the one by its elements. -/
theorem agree_self (h : rs.Fits (.integers data)) (hrank : rs.rank = .vector) :
    Selection.Agree (Value.stored rs (.integers data)) rs (Value.stored rs (.integers data)) rs
      ((List.range rs.size).mapM
          (Selection.bySelf.flatPosition (Value.stored rs (.integers data))) >>= fun _ =>
        .ok .bySelf)
      (Selection.ofIndices (Value.stored rs (.integers data))
        [.many (data.toList.map Int32.toInt)]) := by
  have hof : Selection.ofIndices (Value.stored rs (.integers data))
      [.many (data.toList.map Int32.toInt)] =
        ((data.toList.map Int32.toInt).mapM (IndexList.position rs.size) >>= fun ps =>
          .ok (.vector (.many ps.toArray))) := by
    rw [Selection.ofIndices_vector rfl hrank]
    show ((Selector.many ∘ List.toArray) <$> _ >>= fun s => _) = _
    cases (data.toList.map Int32.toInt).mapM (IndexList.position rs.size) <;> rfl
  rw [hof, mapM_flatPosition_bySelf h]
  cases hps : (data.toList.map Int32.toInt).mapM (IndexList.position rs.size) with
  | error fault => exact .fault rfl
  | ok ps =>
    have hself := (mapM_flatPosition_bySelf h).trans hps
    have hlen := Result.length_of_mapM hself
    rw [List.length_range] at hlen
    refine .same ?_ fun pos hpos => ?_
    · simp [Selection.shape, hlen]
    · have hpos' : pos < ps.length := hpos
      unfold Selection.reach
      rw [Selection.flatPosition_bySelf hself (by omega)]

end Self

/-! ## One step -/

/-- **A first step** agrees with indexing a copy of the root. -/
theorem indexedAlike_root (h : rs.Fits b) (hrank : rs.rank = .vector ∨ rs.rank = .matrix)
    (hcount : rs.Countable) (hroot : scope.get root = .ok (Value.stored rs b)) :
    IndexedAlike scope root (scope.index (.anchored root) indices)
      (scope.index (.value (Value.stored rs b)) indices) := by
  have hempty := Shape.isEmptyArray_of_rank hrank
  have hbase : scope.operandValue (.anchored root) = .ok (Value.stored rs b) := hroot
  rw [index_value hempty]
  cases hself : selfIndexed? (.anchored root) (Value.stored rs b) indices with
  | none =>
    rw [index_eq hbase hempty hself]
    cases scope.indexLists indices with
    | error fault => exact .fault rfl
    | ok lists => exact indexedAlike_of_agree hroot h h hcount rfl .refl
  | some other =>
    rw [index_self hbase hempty hself]
    obtain ⟨hother, rfl, hvector⟩ := selfIndexed?_eq_some hself
    obtain rfl := IndexOperand.anchored.inj hother
    obtain ⟨hvec, data, rfl⟩ := of_isIntegerVector hvector
    have hlists : scope.indexLists [.anchored root] =
        .ok [.many (data.toList.map Int32.toInt)] := by
      have hone : (do IndexList.ofValue (← scope.materialize (← scope.operandValue (.anchored root))))
          = .ok (.many (data.toList.map Int32.toInt)) := by
        show (scope.get root >>= fun v => scope.materialize v >>= IndexList.ofValue) = _
        rw [hroot]
        exact ofValue_integers h hvec
      exact Result.mapM_eq_ok_iff.mpr (by rw [List.map_singleton, List.map_singleton, hone])
    have halike := indexedAlike_of_agree hroot h h hcount rfl (agree_self h hvec)
    rw [bind_assoc] at halike
    rw [hlists]
    exact halike

/-- **A further step** agrees with indexing a copy of the view. -/
theorem indexedAlike_view (h : rs.Fits b) (hroot : scope.get root = .ok (Value.stored rs b))
    (hbase : scope.operandValue operand = .ok (Value.ofView (σ.shape rs rs.size) ⟨root, σ⟩))
    (hcount : (σ.shape rs rs.size).Countable) {copy : Value}
    (hg : σ.gather (Value.stored rs b) = .ok copy) :
    IndexedAlike scope root (scope.index operand indices) (scope.index (.value copy) indices) := by
  obtain ⟨c, hc, rfl, -⟩ := (Selection.gather_eq_ok_iff h).mp hg
  have hempty := Selection.isEmptyArray_shape σ rs rs.size
  have hself : selfIndexed? operand (Value.ofView (σ.shape rs rs.size) ⟨root, σ⟩) indices = none := by
    cases hs : selfIndexed? operand (Value.ofView (σ.shape rs rs.size) ⟨root, σ⟩) indices with
    | none => rfl
    | some other =>
      have := (selfIndexed?_eq_some hs).2.2
      simp [isIntegerVector, Value.buffer?, Value.ofView] at this
  rw [index_value hempty, index_eq hbase hempty hself]
  cases scope.indexLists indices with
  | error fault => exact .fault rfl
  | ok lists =>
    show IndexedAlike scope root (scope.get root >>= fun r =>
      σ.compose r lists >>= viewOf r root) _
    rw [hroot]
    exact indexedAlike_of_agree hroot h hc hcount rfl (Selection.compose_agrees h hg hcount lists)

/-! ## Chains of steps -/

/-- What a chain has led to: a view of the root that can be copied, with the type of its copy. -/
def Linked (root : Handle) (rs : Shape) (b : Buffer) (v : Value) : Prop :=
  ∃ σ copy, v = Value.ofView (σ.shape rs rs.size) ⟨root, σ⟩ ∧
    Selection.gather σ (Value.stored rs b) = .ok copy

theorem linked_of_alike (h : rs.Fits b) (hroot : scope.get root = .ok (Value.stored rs b))
    {r : Result Value} (halike : IndexedAlike scope root (.ok v) r) : Linked root rs b v := by
  cases halike with
  | @view shape σ copy htype hcopy =>
    rw [materialize_ofView hroot] at hcopy
    obtain ⟨c, -, rfl, -⟩ := (Selection.gather_eq_ok_iff h).mp hcopy
    obtain rfl := ValueType.array.inj htype
    exact ⟨σ, _, rfl, hcopy⟩

/-- **A chain of any length leads to a view of the root** that can be copied. -/
theorem linked_of_chain (h : rs.Fits b) (hrank : rs.rank = .vector ∨ rs.rank = .matrix)
    (hchain : Chain root (Value.stored rs b) v) : Linked root rs b v := by
  induction hchain with
  | first hcount hroot hindex =>
    exact linked_of_alike h hroot (hindex ▸ indexedAlike_root h hrank (hcount.shape rfl) hroot)
  | next _ hcount hroot hbase hindex ih =>
    obtain ⟨σ, copy, rfl, hg⟩ := ih
    exact linked_of_alike h hroot (hindex ▸ indexedAlike_view h hroot hbase (hcount.shape rfl) hg)

/-- **A chain of views is a chain of copies.** However a view of a stored vector or matrix was made,
it can be copied, and indexing it agrees with indexing its copy: both are refused with the same sort
of fault, or the one gives a view of the same root and the other the copy of that view, of the same
type. A word must count the elements of what is indexed, here and at each step before. -/
theorem index_chain_alike (hvalue : value.Concrete) (hroot : scope.get root = .ok value)
    (hbase : ChainBase scope root value operand base) (hcount : base.Countable)
    (indices : List IndexOperand) :
    ∃ copy, scope.materialize base = .ok copy ∧
      IndexedAlike scope root (scope.index operand indices) (scope.index (.value copy) indices) := by
  obtain ⟨rs, b, rfl, h, hrank⟩ := hvalue
  cases hbase with
  | root => exact ⟨Value.stored rs b, rfl, indexedAlike_root h hrank (hcount.shape rfl) hroot⟩
  | view hchain hbase =>
    obtain ⟨σ, copy, rfl, hg⟩ := linked_of_chain h hrank hchain
    exact ⟨copy, (materialize_ofView hroot _ σ).trans hg,
      indexedAlike_view h hroot hbase (hcount.shape rfl) hg⟩

/-- The second row of a matrix, and an element of that row. -/
theorem index_chain_alike_row :
    let matrix := Value.stored (Shape.matrix .integer 2 2) (.integers #[1, 2, 3, 4])
    let grid := ((Scope.empty 1).pushVariable matrix).2
    let row := Value.ofView (Shape.vector .integer 2) ⟨⟨0, 0⟩, .matrix (.single 1) (.many #[0, 1])⟩
    matrix.Countable ∧ row.Countable ∧
    grid.index (.anchored ⟨0, 0⟩) [.value (Value.integer 2),
      .value (Value.vector (.integers #[1, 2]))] = .ok row ∧
    ∃ copy, grid.materialize row = .ok copy ∧
      IndexedAlike grid ⟨0, 0⟩ (grid.index (.value row) [.value (Value.integer 1)])
        (grid.index (.value copy) [.value (Value.integer 1)]) := by
  intro matrix grid row
  have hrow : grid.index (.anchored ⟨0, 0⟩) [.value (Value.integer 2),
      .value (Value.vector (.integers #[1, 2]))] = .ok row := rfl
  have hgrid : matrix.Concrete := ⟨_, _, rfl, ⟨rfl, rfl⟩, .inr rfl⟩
  have hmatrix : matrix.Countable := ValueType.Countable.array (by decide)
  have hcount : row.Countable := ValueType.Countable.array (by decide)
  exact ⟨hmatrix, hcount, hrow, index_chain_alike hgrid rfl (.view (.first hmatrix rfl hrow) rfl)
    hcount [.value (Value.integer 1)]⟩

/-- Rows and columns whose product comes around to zero, over no elements. There is a view of the
first element, but none in a copy. -/
theorem index_chain_uncounted :
    let wide := Value.stored (Shape.matrix .integer 4294967296 4294967296) (.integers #[])
    let s := ((Scope.empty 1).pushVariable wide).2
    let corner : List IndexOperand := [.value (Value.integer 1), .value (Value.integer 1)]
    Value.matrix (.integers #[]) 4294967296 4294967296 = .ok wide ∧ wide.Concrete ∧
      s.get ⟨0, 0⟩ = .ok wide ∧
      s.index (.anchored ⟨0, 0⟩) corner = .ok (Value.ofView (Shape.scalar .integer)
        ⟨⟨0, 0⟩, .matrix (.single 0) (.single 0)⟩) ∧
      s.index (.value wide) corner = .error (.indexOutOfRange 1 0) := by
  intro wide s corner
  exact ⟨rfl, ⟨_, _, rfl, ⟨rfl, rfl⟩, .inr rfl⟩, rfl, rfl, index_uncounted s⟩

end Scope

end ArrayMachine
