import ArrayMachine.Proofs.Conversion.Acceptance
import ArrayMachine.Proofs.Indexing.Chain

/-!
# Indexing and filling

What index lists select of a null or identity array is a null or identity array again: only the
extents are made, once all positions are found. A filled array is copied element by element. The one
and the other come to the same, so it does not matter whether an array is indexed first and filled
then, or filled first: indices are refused with the same fault, and what is selected has the same
extents and the same elements. A word must count the elements, or the filled array has fewer than
there are indices for.

* `Selection.gather_sentinel_of_within`, `Selection.gather_of_replicate`: the two copies.
* `index_filled`: indexing before and after filling.
-/

namespace ArrayMachine

variable {rs : Shape} {b : Buffer} {k : Kind} {r : Element} {σ : Selection}

/-! ## Two copies -/

namespace Selection

/-- The shape that is selected does not hang on the kind of the elements, but for its own. -/
theorem shape_withElement (σ : Selection) (rs : Shape) (k : Kind) (n : Nat) :
    (σ.shape rs n).withElement k = σ.shape (rs.withElement k) n := by
  unfold shape
  split <;> rfl

/-- A null or identity array is copied as one. -/
theorem gather_sentinel_of_within (hsentinel : rs.element.isSentinel = true)
    (hcount : rs.Countable) (hσ : σ.Within rs) (hself : σ ≠ bySelf) :
    σ.gather (Value.sentinel rs) = .ok (Value.sentinel (σ.shape rs rs.size)) := by
  obtain ⟨positions, hpositions⟩ := Result.exists_mapM_eq_ok fun pos hpos =>
    have hlt : pos < σ.count rs.size := List.mem_range.mp hpos
    (flatPosition_lt (Value.sentinel rs) rfl hcount hσ hself hlt).imp fun _ h => h.1
  have hroot : (Value.sentinel rs).isSentinel = true := hsentinel
  rw [gather_of_isSentinel rfl rfl hroot, hpositions]
  rfl

/-- A copy of an array that holds one element everywhere does so too. -/
theorem gather_of_replicate (hb : rs.Fits b) (hall : b.elements = List.replicate rs.size r)
    (hcount : rs.Countable) (hσ : σ.Within rs) (hself : σ ≠ bySelf) :
    ∃ c, (σ.shape rs rs.size).Fits c ∧ c.elements = List.replicate (σ.count rs.size) r ∧
      σ.gather (Value.stored rs b) = .ok (Value.stored (σ.shape rs rs.size) c) := by
  obtain ⟨c, hc, hgather⟩ := gather_of_within hb hcount hσ hself
  refine ⟨c, hc, ?_, hgather⟩
  obtain ⟨c', -, hcopy, hreach⟩ := (gather_eq_ok_iff hb).mp hgather
  obtain rfl : c = c' := Option.some.inj (congrArg Value.buffer? hcopy)
  have hsole : ∀ pos e, σ.reach (Value.stored rs b) pos = .ok e → e = r := by
    intro pos e he
    obtain ⟨p, -, hp⟩ := Result.bind_eq_ok_iff.mp he
    rw [Value.element_stored_eq_ok_iff hb, hall] at hp
    exact List.eq_of_mem_replicate (List.mem_of_getElem? hp)
  rw [Result.eq_map_of_mapM (g := fun _ => r) hsole hreach]
  simp

end Selection

/-! ## Before and after -/

namespace Value

/-- The second outcome is the first one with the kind filled in, and where one is a fault the other
is the same. -/
structure FillsTo (k : Kind) (before after : Result Value) : Prop where
  faults : ∀ fault, before = .error fault ↔ after = .error fault
  values : ∀ v, before = .ok v → ∃ w, v.fillSentinel k = .ok w ∧ after = .ok w

theorem fillsTo_fault (fault : Fault) : FillsTo k (.error fault) (.error fault) :=
  ⟨fun _ => Iff.rfl, nofun⟩

theorem fillsTo_ok {v w : Value} (h : v.fillSentinel k = .ok w) : FillsTo k (.ok v) (.ok w) := by
  refine ⟨fun _ => ⟨nofun, nofun⟩, fun u hu => ⟨w, ?_, rfl⟩⟩
  rwa [← Except.ok.inj hu]

/-- What comes before both is of no matter. -/
theorem fillsTo_bind {α : Type} {f g : α → Result Value} (r : Result α)
    (h : ∀ a, r = .ok a → FillsTo k (f a) (g a)) : FillsTo k (r >>= f) (r >>= g) := by
  cases r with
  | error fault => exact fillsTo_fault fault
  | ok a => exact h a rfl

/-- All arrays of one of the two kinds are filled with the same element. -/
theorem exists_filling (hsentinel : rs.element.isSentinel = true) (hk : k.isBasic = true) :
    ∃ r, ∀ shape : Shape, shape.element = rs.element →
      ∃ b, (shape.withElement k).Fits b ∧ b.elements = List.replicate shape.size r ∧
        (sentinel shape).fillSentinel k = .ok (stored (shape.withElement k) b) := by
  obtain ⟨e, he⟩ : ∃ e : Element, e.kind = rs.element :=
    (Kind.isSentinel_iff.mp hsentinel).elim (fun h => ⟨.null, h.symm⟩) fun h => ⟨.identity, h.symm⟩
  have hpromotes : e.kind.promotesTo k = true :=
    Kind.promotesTo_of_isSentinel (he ▸ hsentinel) hk
  obtain ⟨r, hr⟩ := Element.exists_promote hpromotes
  refine ⟨r, fun shape hshape => ?_⟩
  exact exists_filled_elements (he.trans hshape.symm) (hshape ▸ hsentinel) hr hk

end Value

namespace Scope

/-- Indexing a null or identity array that is not on the stack. -/
theorem index_sentinel (scope : Scope) (hempty : rs.isEmptyArray = false)
    (indices : List IndexOperand) :
    scope.index (.value (Value.sentinel rs)) indices =
      scope.indexLists indices >>= fun lists =>
        Selection.ofIndices (Value.sentinel rs) lists >>=
          fun σ => σ.gather (Value.sentinel rs) := by
  have hbase : scope.operandValue (.value (Value.sentinel rs)) = .ok (Value.sentinel rs) := rfl
  rw [index_eq hbase hempty rfl]
  rfl

/-- **Indexing commutes with filling.** A null or identity vector or matrix, its elements counted by
a word, is filled with the zeros or ones of any basic kind. Indexing the filled array and filling what
is indexed give the same array, whatever the indices are, and where the one is refused the other is
refused with the same fault. -/
theorem index_filled (hsentinel : rs.element.isSentinel = true)
    (hrank : rs.rank = .vector ∨ rs.rank = .matrix) (hcount : rs.Countable)
    (hk : k.isBasic = true) :
    ∃ w, (Value.sentinel rs).fillSentinel k = .ok w ∧
      ∀ (scope : Scope) (indices : List IndexOperand),
        Value.FillsTo k (scope.index (.value (Value.sentinel rs)) indices)
          (scope.index (.value w) indices) := by
  obtain ⟨r, hfill⟩ := Value.exists_filling hsentinel hk
  obtain ⟨b, hb, hall, hw⟩ := hfill rs rfl
  refine ⟨_, hw, fun scope indices => ?_⟩
  have hempty := Shape.isEmptyArray_of_rank hrank
  have hempty' : (rs.withElement k).isEmptyArray = false := hempty
  rw [index_sentinel scope hempty, index_value hempty']
  refine Value.fillsTo_bind _ fun lists _ => ?_
  -- the two are indexed alike, since their extents are the same
  have hindices : Selection.ofIndices (Value.sentinel rs) lists =
    Selection.ofIndices (Value.stored (rs.withElement k) b) lists := rfl
  rw [← hindices]
  refine Value.fillsTo_bind _ fun σ hσ => ?_
  have hshape : (Value.sentinel rs).shape? = some rs := rfl
  obtain ⟨hwithin, hself⟩ := Selection.within_ofIndices hshape hσ
  have hwithin' : σ.Within (rs.withElement k) := hwithin
  have hcount' : (rs.withElement k).Countable := hcount
  obtain ⟨c, hc, hcopies, hgather⟩ := Selection.gather_of_replicate hb hall hcount' hwithin' hself
  rw [Selection.gather_sentinel_of_within hsentinel hcount hwithin hself, hgather]
  obtain ⟨d, hd, hdcopies, hdfill⟩ := hfill (σ.shape rs rs.size) (Selection.element_shape σ rs _)
  refine Value.fillsTo_ok ?_
  rw [Selection.shape_withElement] at hd hdfill
  rw [Selection.size_shape] at hdcopies
  obtain rfl : c = d :=
    Buffer.ext_elements (hc.kind.trans hd.kind.symm) (hcopies.trans hdcopies.symm)
  exact hdfill

/-- Rows of an identity matrix selected by a literal on the stack, and columns by an interval. The
ones of the real kind are there before or after. A row that there is not is refused either way. -/
theorem index_filled_ones :
    let ones := Value.stored (Shape.matrix .real 2 3) (.reals (Array.replicate 6 Single.one))
    let picked := Value.stored (Shape.matrix .real 2 2) (.reals (Array.replicate 4 Single.one))
    let rows : Value := ⟨.array (Shape.vector .mixed 2), .mixed [.integer 2, .identity]⟩
    let columns : IndexOperand := .value (Value.ofInterval ⟨2, 3, by decide⟩)
    let s := ((empty 8).pushVariable rows).2
    let identity : IndexOperand := .value (Value.sentinel (Shape.matrix .identity 2 3))
    (Shape.matrix .identity 2 3).Countable ∧
      (Value.sentinel (Shape.matrix .identity 2 3)).fillSentinel .real = .ok ones ∧
      s.index identity [.anchored ⟨0, 0⟩, columns] =
        .ok (Value.sentinel (Shape.matrix .identity 2 2)) ∧
      s.index (.value ones) [.anchored ⟨0, 0⟩, columns] = .ok picked ∧
      s.index identity [columns, .anchored ⟨0, 0⟩] = .error (.indexOutOfRange 3 2) ∧
      s.index (.value ones) [columns, .anchored ⟨0, 0⟩] = .error (.indexOutOfRange 3 2) := by
  intro ones picked rows columns s identity
  have hcount : (Shape.matrix .identity 2 3).Countable := by decide
  obtain ⟨w, hw, hall⟩ := @index_filled (Shape.matrix .identity 2 3) .real rfl (.inr rfl) hcount rfl
  have hones : (Value.sentinel (Shape.matrix .identity 2 3)).fillSentinel .real = .ok ones := rfl
  obtain rfl : ones = w := Except.ok.inj (hones.symm.trans hw)
  have hindex : s.index identity [.anchored ⟨0, 0⟩, columns] =
      .ok (Value.sentinel (Shape.matrix .identity 2 2)) := rfl
  have hfault : s.index identity [columns, .anchored ⟨0, 0⟩] =
      .error (.indexOutOfRange 3 2) := rfl
  obtain ⟨u, hu, hfilled⟩ := (hall s [.anchored ⟨0, 0⟩, columns]).values _ hindex
  have hpicked : (Value.sentinel (Shape.matrix .identity 2 2)).fillSentinel .real =
      .ok picked := rfl
  obtain rfl : picked = u := Except.ok.inj (hpicked.symm.trans hu)
  exact ⟨hcount, hones, hindex, hfilled, hfault,
    ((hall s [columns, .anchored ⟨0, 0⟩]).faults _).mp hfault⟩

/-- Rows and columns whose product comes around to zero. The first element of a null matrix is null,
but filled it has no elements. -/
theorem index_filled_uncounted :
    let wide := Value.sentinel (Shape.matrix .null 4294967296 4294967296)
    let filled := Value.stored (Shape.matrix .integer 4294967296 4294967296) (.integers #[])
    let corner : List IndexOperand := [.value (Value.integer 1), .value (Value.integer 1)]
    wide.fillSentinel .integer = .ok filled ∧
      (empty 8).index (.value wide) corner = .ok Value.null ∧
      (empty 8).index (.value filled) corner = .error (.indexOutOfRange 1 0) := by
  intro wide filled corner
  exact ⟨rfl, rfl, index_uncounted (empty 8)⟩

end Scope

end ArrayMachine
