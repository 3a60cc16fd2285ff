import ArrayMachine.Proofs.Indexing.Gather

/-!
# Indexing a view is indexing its copy

A further index on a view is folded into the positions of the root. `compose_agrees` compares this
with indexing a copy of what the view selects: both accept the same indices, refuse the others with
the same sort of fault, and reach the same elements at the same positions.

* `selectThrough_cases`: an index selects through a list of positions as it selects among as many.
* `follows_vector`, `follows_row`, `follows_column`, `follows_grid`: where the positions of an index
  lie in the root, for each way a selection can be indexed further.
* `Within.compose`: they are the root's again.
-/

namespace ArrayMachine

/-! ## Selectors through selectors -/

namespace Selector

/-- `t` lists what the positions of `s` stand for in `outer`. -/
inductive Through (outer : Selector) : Selector → Selector → Prop where
  | single {p q : Nat} : outer.get p = .ok q → Through outer (.single p) (.single q)
  | many {ps qs : List Nat} : ps.mapM outer.get = .ok qs →
    Through outer (.many ps.toArray) (.many qs.toArray)

variable {outer s t : Selector}

theorem Through.length_eq (h : Through outer s t) : t.length = s.length := by
  cases h with
  | single _ => rfl
  | many h => simpa [length] using Result.length_of_mapM h

theorem Through.get_eq (h : Through outer s t) {pos : Nat} (hpos : pos < s.length) :
    ∃ p ∈ s.positions, s.get pos = .ok p ∧ t.get pos = outer.get p := by
  cases h with
  | @single p q h =>
    obtain rfl : pos = 0 := Nat.lt_one_iff.mp hpos
    exact ⟨p, List.mem_singleton_self p, rfl, h.symm⟩
  | @many ps qs h =>
    have hlen := Result.length_of_mapM h
    have hps : pos < ps.length := by simpa [length] using hpos
    have hqs : pos < qs.length := by omega
    refine ⟨ps[pos], List.getElem_mem hps, ?_, ?_⟩
    · exact get_of_lt (s := .many ps.toArray) hps
    · rw [Result.getElem_of_mapM h hps hqs]
      exact get_of_lt (s := .many qs.toArray) hqs

theorem Through.mem (h : Through outer s t) : ∀ q ∈ t.positions, q ∈ outer.positions := by
  intro q hq
  cases h with
  | single h =>
    obtain rfl := List.mem_singleton.mp hq
    exact mem_of_get h
  | many h =>
    obtain ⟨p, -, hp⟩ := Result.exists_of_mem_mapM h hq
    exact mem_of_get hp

end Selector

namespace IndexList

/-- **Selecting through positions** accepts what selecting among as many accepts, and lists what is
selected of them. -/
theorem selectThrough_cases (list : IndexList) (outer : Selector) :
    (∃ fault, list.select outer.length = .error fault ∧
      list.selectThrough outer = .error fault) ∨
    ∃ s t, list.select outer.length = .ok s ∧ list.selectThrough outer = .ok t ∧
      Selector.Through outer s t := by
  unfold selectThrough
  cases hs : list.select outer.length with
  | error fault => exact Or.inl ⟨fault, rfl, rfl⟩
  | ok s =>
    right
    have hlt := select_lt hs
    cases s with
    | single p =>
      obtain ⟨q, -, hq⟩ := Selector.exists_get (hlt p (by simp [Selector.positions]))
      refine ⟨.single p, .single q, rfl, ?_, .single hq⟩
      show (outer.get p >>= fun r => _) = _
      rw [hq]
      rfl
    | many ps =>
      obtain ⟨qs, hqs⟩ : ∃ qs, ps.toList.mapM outer.get = .ok qs := by
        refine Result.exists_mapM_eq_ok fun p hp => ?_
        obtain ⟨q, -, hq⟩ := Selector.exists_get (hlt p hp)
        exact ⟨q, hq⟩
      refine ⟨.many ps, .many qs.toArray, rfl, ?_, .many hqs⟩
      show (ps.toList.mapM outer.get >>= fun r => _) = _
      rw [hqs]
      rfl

/-- Selecting through positions gives some of them. -/
theorem mem_of_selectThrough {list : IndexList} {outer t : Selector}
    (h : list.selectThrough outer = .ok t) : ∀ q ∈ t.positions, q ∈ outer.positions := by
  rcases list.selectThrough_cases outer with ⟨fault, -, hfault⟩ | ⟨s, t', -, ht', hthrough⟩
  · rw [hfault] at h
    cases h
  · rw [ht'] at h
    obtain rfl := Except.ok.inj h
    exact hthrough.mem

end IndexList

namespace Selection

variable {σ : Selection} {rs cs : Shape} {b c : Buffer} {root copy : Value}
  {outer s t : Selector} {pos : Nat}

/-! ## Positions through positions -/

/-- Where `τ` selects position `p` of a copy of what `σ` selects, `ρ` selects of the root what `σ`
has at `p`. -/
def Follows (σ : Selection) (root : Value) (ρ τ : Selection) (copy : Value) (pos bound : Nat) :
    Prop :=
  ∃ p, p < bound ∧ τ.flatPosition copy pos = .ok p ∧
    ρ.flatPosition root pos = σ.flatPosition root p

theorem flatPosition_matrix_eq {rows columns : Selector} (hne : columns.length ≠ 0) :
    (matrix rows columns).flatPosition root pos = do
      let row ← rows.get (pos / columns.length)
      let column ← columns.get (pos % columns.length)
      return rowMajor ((root.shape?.map (·.extent 1)).getD 0) row column := by
  unfold flatPosition
  exact if_neg hne

theorem flatPosition_row {row : Nat} {columns : Selector} (hpos : pos < columns.length) :
    (matrix (.single row) columns).flatPosition root pos = do
      return rowMajor ((root.shape?.map (·.extent 1)).getD 0) row (← columns.get pos) := by
  rw [flatPosition_matrix_eq (by omega), Nat.div_eq_of_lt hpos, Nat.mod_eq_of_lt hpos]
  rfl

theorem flatPosition_column {column : Nat} {rows : Selector} :
    (matrix rows (.single column)).flatPosition root pos = do
      return rowMajor ((root.shape?.map (·.extent 1)).getD 0) (← rows.get pos) column := by
  rw [flatPosition_matrix_eq (by simp [Selector.length])]
  simp only [Selector.length, Nat.div_one, Nat.mod_one]
  rfl

/-- A vector selection through another. -/
theorem follows_vector (ht : Selector.Through outer s t)
    (hs : ∀ p ∈ s.positions, p < outer.length) (hpos : pos < s.length) :
    (vector outer).Follows root (vector t) (vector s) copy pos outer.length := by
  obtain ⟨p, hmem, hp, htp⟩ := ht.get_eq hpos
  exact ⟨p, hs p hmem, hp, htp⟩

/-- A vector selection through a row. -/
theorem follows_row (ht : Selector.Through outer s t)
    (hs : ∀ p ∈ s.positions, p < outer.length) (hpos : pos < s.length) (row : Nat) :
    (matrix (.single row) outer).Follows root (matrix (.single row) t) (vector s) copy pos
      outer.length := by
  obtain ⟨p, hmem, hp, htp⟩ := ht.get_eq hpos
  refine ⟨p, hs p hmem, hp, ?_⟩
  rw [flatPosition_row (by rwa [ht.length_eq]), flatPosition_row (hs p hmem), htp]

/-- A vector selection through a column. -/
theorem follows_column (ht : Selector.Through outer s t)
    (hs : ∀ p ∈ s.positions, p < outer.length) (hpos : pos < s.length) (column : Nat) :
    (matrix outer (.single column)).Follows root (matrix t (.single column)) (vector s) copy pos
      outer.length := by
  obtain ⟨p, hmem, hp, htp⟩ := ht.get_eq hpos
  refine ⟨p, hs p hmem, hp, ?_⟩
  rw [flatPosition_column, flatPosition_column, htp]

/-- A matrix selection through another, of a copy with the columns of the outer one. -/
theorem follows_grid {outer' s' t' : Selector} (ht : Selector.Through outer s t)
    (ht' : Selector.Through outer' s' t') (hs : ∀ p ∈ s.positions, p < outer.length)
    (hs' : ∀ p ∈ s'.positions, p < outer'.length) (hcopy : copy.shape? = some cs)
    (hcolumns : cs.extent 1 = outer'.length)
    (hcount : outer.length * outer'.length < UInt64.size) (hpos : pos < s.length * s'.length) :
    (matrix outer outer').Follows root (matrix t t') (matrix s s') copy pos
      (outer.length * outer'.length) := by
  have hne : s'.length ≠ 0 := by
    intro h0
    simp [h0] at hpos
  have hrow : pos / s'.length < s.length := Nat.div_lt_of_lt_mul (by rwa [Nat.mul_comm])
  obtain ⟨r, hrmem, hr, htr⟩ := ht.get_eq hrow
  obtain ⟨q, hqmem, hq, htq⟩ := ht'.get_eq (Nat.mod_lt pos (Nat.pos_of_ne_zero hne))
  have hq_lt := hs' q hqmem
  refine ⟨r * outer'.length + q, place_lt (hs r hrmem) hq_lt, ?_, ?_⟩
  · rw [flatPosition_matrix hcopy hne hr hq, hcolumns, rowMajor_eq (hs r hrmem) hq_lt hcount]
  · obtain ⟨hdiv, hmod⟩ := div_mod_place r hq_lt
    rw [flatPosition_matrix_eq (by rwa [ht'.length_eq]), flatPosition_matrix_eq (by omega),
      ht'.length_eq, htr, htq, hdiv, hmod]

/-- Following positions reach the elements that reading the copy does. -/
theorem reach_of_follows {ρ τ : Selection} {bound : Nat}
    (hf : σ.Follows root ρ τ copy pos bound)
    (hcopy : ∀ p, p < bound → ∃ e, σ.reach root p = .ok e ∧ copy.element p = .ok e) :
    ρ.reach root pos = τ.reach copy pos := by
  obtain ⟨p, hlt, hτ, hρ⟩ := hf
  obtain ⟨e, he, hce⟩ := hcopy p hlt
  have hrho : ρ.reach root pos = σ.reach root p := by
    unfold reach
    rw [hρ]
  have htau : τ.reach copy pos = copy.element p := by
    unfold reach
    rw [hτ]
    rfl
  rw [hrho, htau, he, hce]

/-! ## Further indices -/

/-- A selection of the root and one of its copy, or the faults instead of them, that cannot be told
apart by what they copy. -/
inductive Agree (root : Value) (rs : Shape) (copy : Value) (cs : Shape) :
    Result Selection → Result Selection → Prop where
  | fault {f g : Fault} : f.code = g.code → Agree root rs copy cs (.error f) (.error g)
  | same {ρ τ : Selection} : ρ.shape rs rs.size = τ.shape cs cs.size →
    (∀ pos, pos < τ.count cs.size → ρ.reach root pos = τ.reach copy pos) →
    Agree root rs copy cs (.ok ρ) (.ok τ)

/-- A vector selection through another has the shape that it has of the copy. -/
theorem shape_vector_through (ht : Selector.Through outer s t) (rs : Shape) (n m : Nat) :
    (vector t).shape rs n = (vector s).shape (Shape.ofExtents rs.element [some m] rs.isString) m := by
  cases ht with
  | single _ => rfl
  | many hps => simp [shape, Shape.ofExtents, Result.length_of_mapM hps]

/-- So has one through a row or a column. -/
theorem shape_line_through (ht : Selector.Through outer s t) (rs : Shape) (n m line : Nat) :
    (matrix (.single line) t).shape rs n = (vector s).shape (Shape.vector rs.element m) m ∧
      (matrix t (.single line)).shape rs n = (vector s).shape (Shape.vector rs.element m) m := by
  cases ht with
  | single _ => exact ⟨rfl, rfl⟩
  | many hps => simp [shape, Shape.vector, Shape.ofExtents, Result.length_of_mapM hps]

theorem Agree.refl {x : Result Selection} : Agree root rs root rs x x := by
  cases x with
  | error fault => exact .fault rfl
  | ok ρ => exact .same rfl fun _ _ => rfl

/-- One more index, where the selection is a vector to it. `wrap` is what becomes of the selection
if its long axis becomes another. -/
theorem agree_of_vector (wrap : Selector → Selection) {index : IndexList} {n : Nat} {isString : Bool}
    (hcopy : copy.shape? = some (Shape.ofExtents rs.element [some n] isString))
    (hn : outer.length = n)
    (hread : ∀ p, p < n → ∃ e, σ.reach root p = .ok e ∧ copy.element p = .ok e)
    (hshape : ∀ s t, Selector.Through outer s t →
      (wrap t).shape rs rs.size = (vector s).shape (Shape.ofExtents rs.element [some n] isString) n)
    (hfollows : ∀ s t, Selector.Through outer s t → (∀ p ∈ s.positions, p < outer.length) →
      ∀ pos, pos < s.length → σ.Follows root (wrap t) (vector s) copy pos outer.length) :
    Agree root rs copy (Shape.ofExtents rs.element [some n] isString)
      (index.selectThrough outer >>= fun t => .ok (wrap t)) (ofIndices copy [index]) := by
  have hof : ofIndices copy [index] = (index.select n >>= fun s => .ok (vector s)) := by
    unfold ofIndices
    rw [hcopy]
    rfl
  rw [hof]
  subst hn
  rcases index.selectThrough_cases outer with ⟨fault, hs, ht⟩ | ⟨s, t, hs, ht, hthrough⟩
  · rw [hs, ht]
    exact .fault rfl
  · rw [hs, ht]
    refine .same (hshape s t hthrough) fun pos hpos => ?_
    exact reach_of_follows (hfollows s t hthrough (IndexList.select_lt hs) pos hpos) hread

/-- Two more indices, where the selection is a matrix. -/
theorem agree_of_matrix {outer' : Selector} {i j : IndexList} {rows columns : Nat}
    (hcopy : copy.shape? = some (Shape.matrix rs.element rows columns))
    (hrows : outer.length = rows) (hcolumns : outer'.length = columns)
    (hcount : rows * columns < UInt64.size) (hread : ∀ p, p < rows * columns →
      ∃ e, (matrix outer outer').reach root p = .ok e ∧ copy.element p = .ok e) :
    Agree root rs copy (Shape.matrix rs.element rows columns)
      (i.selectThrough outer >>= fun t => j.selectThrough outer' >>= fun t' => .ok (matrix t t'))
      (ofIndices copy [i, j]) := by
  have hof : ofIndices copy [i, j] =
      (i.select rows >>= fun s => j.select columns >>= fun s' => .ok (matrix s s')) := by
    unfold ofIndices
    rw [hcopy]
    rfl
  rw [hof]
  subst hrows hcolumns
  rcases i.selectThrough_cases outer with ⟨fault, hs, ht⟩ | ⟨s, t, hs, ht, hthrough⟩
  · rw [hs, ht]
    exact .fault rfl
  · rcases j.selectThrough_cases outer' with ⟨fault, hs', ht'⟩ | ⟨s', t', hs', ht', hthrough'⟩
    · rw [hs, ht, hs', ht']
      exact .fault rfl
    · rw [hs, ht, hs', ht']
      refine .same ?_ fun pos hpos => ?_
      · cases hthrough with
        | single _ =>
          cases hthrough' with
          | single _ => rfl
          | many hqs => simp [shape, Shape.matrix, Shape.ofExtents, Result.length_of_mapM hqs]
        | many hps =>
          have hlen := Result.length_of_mapM hps
          cases hthrough' with
          | single _ => simp [shape, Shape.matrix, Shape.ofExtents, hlen]
          | many hqs =>
            simp [shape, Shape.matrix, Shape.ofExtents, hlen, Result.length_of_mapM hqs]
      · exact reach_of_follows (follows_grid hthrough hthrough' (IndexList.select_lt hs)
          (IndexList.select_lt hs') hcopy rfl hcount
          (Nat.lt_of_lt_of_le hpos (count_matrix_le s s' _))) hread

/-- The positions of a vector indexed by itself are those of a selector that lists them. -/
theorem flatPosition_bySelf {n : Nat} {ps : List Nat}
    (hps : (List.range n).mapM (bySelf.flatPosition root) = .ok ps) (hpos : pos < n) :
    bySelf.flatPosition root pos = (vector (.many ps.toArray)).flatPosition root pos := by
  have hlen := Result.length_of_mapM hps
  rw [List.length_range] at hlen
  have hpos' : pos < ps.length := by omega
  have hget := Result.getElem_of_mapM hps (by rwa [List.length_range]) hpos'
  rw [List.getElem_range] at hget
  rw [hget]
  exact (Selector.get_of_lt (s := .many ps.toArray) hpos').symm

/-- A vector indexed by itself selects positions of its own. -/
theorem flatPosition_bySelf_lt {n p : Nat} (hlength : root.length = .ok n)
    (h : bySelf.flatPosition root pos = .ok p) : p < n := by
  obtain ⟨m, hm, h⟩ := Result.bind_eq_ok_iff.mp h
  obtain rfl := Except.ok.inj (hlength.symm.trans hm)
  obtain ⟨e, -, h⟩ := Result.bind_eq_ok_iff.mp h
  split at h
  · exact IndexList.position_lt h
  · cases h

theorem exists_positions_bySelf {n : Nat}
    (hread : ∀ p, p < n → ∃ e, bySelf.reach root p = .ok e) :
    ∃ ps : List Nat, (List.range n).mapM (bySelf.flatPosition root) = .ok ps := by
  refine Result.exists_mapM_eq_ok fun p hp => ?_
  obtain ⟨e, he⟩ := hread p (List.mem_range.mp hp)
  obtain ⟨q, hq, -⟩ := Result.bind_eq_ok_iff.mp he
  exact ⟨q, hq⟩

/-- One more index on a vector indexed by itself. -/
theorem agree_bySelf {index : IndexList}
    (hcopy : copy.shape? = some (Shape.ofExtents rs.element [some rs.size] rs.isString))
    (hread : ∀ p, p < rs.size →
      ∃ e, bySelf.reach (Value.stored rs b) p = .ok e ∧ copy.element p = .ok e) :
    Agree (Value.stored rs b) rs copy (Shape.ofExtents rs.element [some rs.size] rs.isString)
      (bySelf.compose (Value.stored rs b) [index]) (ofIndices copy [index]) := by
  obtain ⟨ps, hps⟩ := exists_positions_bySelf (n := rs.size) fun p hp =>
    (hread p hp).imp fun e he => he.1
  have hlen := Result.length_of_mapM hps
  rw [List.length_range] at hlen
  have hcompose : bySelf.compose (Value.stored rs b) [index] =
      (index.selectThrough (.many ps.toArray) >>= fun t => .ok (vector t)) := by
    show ((List.range rs.size).mapM (bySelf.flatPosition (Value.stored rs b)) >>= _) = _
    rw [hps]
    rfl
  rw [hcompose]
  refine agree_of_vector vector hcopy hlen hread
    (fun s t ht => shape_vector_through ht rs _ _) fun s t ht hs pos hpos => ?_
  obtain ⟨p, hmem, hp, htp⟩ := ht.get_eq hpos
  have hlt : p < ps.length := hs p hmem
  exact ⟨p, hlt, hp, htp.trans (flatPosition_bySelf hps (by omega)).symm⟩

/-- **A further index on a view agrees with indexing its copy**, if a word counts the elements. -/
theorem compose_agrees (h : rs.Fits b) (hg : σ.gather (Value.stored rs b) = .ok copy)
    (hcount : (σ.shape rs rs.size).Countable) (lists : List IndexList) :
    Agree (Value.stored rs b) rs copy (σ.shape rs rs.size) (σ.compose (Value.stored rs b) lists)
      (ofIndices copy lists) := by
  have hread := fun p (hp : p < σ.count rs.size) => reach_of_gather h hg hp
  obtain ⟨c, -, rfl, -⟩ := (gather_eq_ok_iff h).mp hg
  -- any other number of indices is refused on both sides
  cases σ with
  | bySelf =>
    rcases lists with _ | ⟨index, _ | ⟨j, rest⟩⟩
    · exact .fault rfl
    · exact agree_bySelf rfl hread
    · exact .fault rfl
  | vector positions =>
    cases positions with
    | single p => rcases lists with _ | ⟨i, _ | ⟨j, rest⟩⟩ <;> exact .fault rfl
    | many ps =>
      rcases lists with _ | ⟨index, _ | ⟨j, rest⟩⟩
      · exact .fault rfl
      · exact agree_of_vector vector rfl rfl hread
          (fun s t ht => shape_vector_through ht rs _ _)
          fun s t ht hs pos hpos => follows_vector ht hs hpos
      · exact .fault rfl
  | matrix rows columns =>
    cases rows with
    | single row =>
      cases columns with
      | single column => rcases lists with _ | ⟨i, _ | ⟨j, rest⟩⟩ <;> exact .fault rfl
      | many columns =>
        rcases lists with _ | ⟨index, _ | ⟨j, rest⟩⟩
        · exact .fault rfl
        · refine agree_of_vector (matrix (.single row)) rfl rfl ?_
            (fun s t ht => (shape_line_through ht rs _ _ row).1)
            fun s t ht hs pos hpos => follows_row ht hs hpos row
          intro p hp
          exact hread p (by simpa [count, Selector.length] using hp)
        · exact .fault rfl
    | many rows =>
      cases columns with
      | single column =>
        rcases lists with _ | ⟨index, _ | ⟨j, rest⟩⟩
        · exact .fault rfl
        · refine agree_of_vector (fun t => matrix t (.single column)) rfl rfl ?_
            (fun s t ht => (shape_line_through ht rs _ _ column).2)
            fun s t ht hs pos hpos => follows_column ht hs hpos column
          intro p hp
          exact hread p (by simpa [count, Selector.length] using hp)
        · exact .fault rfl
      | many columns =>
        rcases lists with _ | ⟨i, _ | ⟨j, _ | ⟨k, rest⟩⟩⟩
        · exact .fault rfl
        · exact .fault rfl
        · have hcells : rows.size * columns.size < UInt64.size := hcount
          refine agree_of_matrix rfl rfl rfl hcells fun p hp => hread p ?_
          rwa [count, inWord_of_lt hcells]
        · exact .fault rfl

/-! ## Within the root -/

/-- **A further index stays within the shape**: what it selects is among what was selected. -/
theorem Within.compose {ρ : Selection} {lists : List IndexList} (hσ : σ.Within rs)
    (hlength : root.length = .ok rs.size) (h : σ.compose root lists = .ok ρ) : ρ.Within rs := by
  unfold Selection.compose at h
  split at h
  · obtain ⟨n, hn, h⟩ := Result.bind_eq_ok_iff.mp h
    obtain rfl := Except.ok.inj (hlength.symm.trans hn)
    obtain ⟨ps, hps, h⟩ := Result.bind_eq_ok_iff.mp h
    obtain ⟨t, ht, h⟩ := Result.bind_eq_ok_iff.mp h
    obtain rfl := Except.ok.inj h
    refine ⟨hσ, fun q hq => ?_⟩
    obtain ⟨pos, -, hpos⟩ := Result.exists_of_mem_mapM hps (IndexList.mem_of_selectThrough ht q hq)
    rw [← Shape.size_of_vector hσ]
    exact flatPosition_bySelf_lt hlength hpos
  · obtain ⟨t, ht, h⟩ := Result.bind_eq_ok_iff.mp h
    obtain rfl := Except.ok.inj h
    exact ⟨hσ.1, fun q hq => hσ.2 q (IndexList.mem_of_selectThrough ht q hq)⟩
  · obtain ⟨t, ht, h⟩ := Result.bind_eq_ok_iff.mp h
    obtain rfl := Except.ok.inj h
    exact ⟨hσ.1, hσ.2.1, fun q hq => hσ.2.2 q (IndexList.mem_of_selectThrough ht q hq)⟩
  · obtain ⟨t, ht, h⟩ := Result.bind_eq_ok_iff.mp h
    obtain rfl := Except.ok.inj h
    exact ⟨hσ.1, fun q hq => hσ.2.1 q (IndexList.mem_of_selectThrough ht q hq), hσ.2.2⟩
  · obtain ⟨t, ht, h⟩ := Result.bind_eq_ok_iff.mp h
    obtain ⟨t', ht', h⟩ := Result.bind_eq_ok_iff.mp h
    obtain rfl := Except.ok.inj h
    exact ⟨hσ.1, fun q hq => hσ.2.1 q (IndexList.mem_of_selectThrough ht q hq),
      fun q hq => hσ.2.2 q (IndexList.mem_of_selectThrough ht' q hq)⟩
  · cases h

end Selection

end ArrayMachine
