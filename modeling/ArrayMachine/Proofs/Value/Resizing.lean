import ArrayMachine.Buffer.Resize
import ArrayMachine.Proofs.Value.Promotion

/-!
# Resized buffers

Resizing starts from zeros and moves over them, one by one, the elements that stay. No position is
written twice, so the loops are told by the moves they make, in any order (`Buffer.copy_moves`): what
was moved to a position is there in the end, and the other positions hold zeros.

The flat positions of a matrix are exact as long as a word counts its elements. Where it does not,
some position comes around to one that is already taken or that no element has, and a matrix that is
resized to the extents it has already is not given back (`Buffer.resizeMatrix_same`).

* `Buffer.exists_resizeVector`, `Buffer.exists_resizeMatrix`: resized buffers, place by place.
* `Buffer.resizeVector_same`, `Buffer.resizeMatrix_same`: resizing to the size it has.
-/

namespace ArrayMachine.Buffer

variable {b c out : Buffer} {old new n length rows columns oldRows oldColumns : Nat}
  {moves : List (Nat × Nat)} {origin : Nat → Option Nat}

/-! ## Moves -/

/-- The moves from old to new positions, one after the other. -/
def copyAll (b : Buffer) (moves : List (Nat × Nat)) (out : Buffer) : Result Buffer :=
  moves.foldlM (fun out move => b.copyTo out move.1 move.2) out

/-- An element that is copied is there, and no other one changes. -/
theorem exists_copyTo (hkind : out.kind = b.kind) (hold : old < b.length)
    (hnew : new < out.length) :
    ∃ c, b.copyTo out old new = .ok c ∧ c.kind = b.kind ∧ c.length = out.length ∧
      ∀ pos, c.elements[pos]? = if pos = new then b.elements[old]? else out.elements[pos]? := by
  rw [← length_elements] at hold
  have helement : (b.elements[old]).promote out.kind = .ok b.elements[old] :=
    Element.promote_of_kind ((kind_of_mem_elements (List.getElem_mem hold)).trans hkind.symm)
  obtain ⟨c, hc, hckind, helements⟩ := exists_set hnew helement
  refine ⟨c, Result.bind_eq_ok_iff.mpr ⟨_, get_of_lt hold, hc⟩, hckind.trans hkind,
    length_of_set_elements helements, fun pos => ?_⟩
  rw [helements, List.getElem?_set]
  by_cases hpos : pos = new
  · rw [if_pos hpos.symm, if_pos hpos, if_pos (by rwa [length_elements]),
      List.getElem?_eq_getElem hold]
  · rw [if_neg (Ne.symm hpos), if_neg hpos]

/-- **What moves do**, whatever their order, if no position gets two different elements. -/
theorem copy_moves (hkind : out.kind = b.kind)
    (hmoves : ∀ move ∈ moves, move.1 < b.length ∧ move.2 < out.length ∧
      origin move.2 = some move.1) :
    ∃ c, b.copyAll moves out = .ok c ∧ c.kind = b.kind ∧ c.length = out.length ∧
      ∀ pos, c.elements[pos]? =
        if pos ∈ moves.map Prod.snd then (origin pos).bind (b.elements[·]?)
        else out.elements[pos]? := by
  induction moves generalizing out with
  | nil => exact ⟨out, rfl, hkind, rfl, fun pos => by simp⟩
  | cons move moves ih =>
    obtain ⟨⟨hold, hnew, horigin⟩, hrest⟩ := List.forall_mem_cons.mp hmoves
    obtain ⟨next, hnext, hnkind, hnlength, hnelements⟩ := exists_copyTo hkind hold hnew
    obtain ⟨c, hc, hckind, hclength, hcelements⟩ := ih hnkind (by rwa [hnlength])
    refine ⟨c, Result.bind_eq_ok_iff.mpr ⟨next, hnext, hc⟩, hckind, hclength.trans hnlength,
      fun pos => ?_⟩
    rw [hcelements, List.map_cons]
    by_cases hlater : pos ∈ moves.map Prod.snd
    · rw [if_pos hlater, if_pos (List.mem_cons_of_mem _ hlater)]
    · rw [if_neg hlater, hnelements]
      by_cases hpos : pos = move.2
      · rw [if_pos hpos, if_pos (by simp [hpos]), hpos, horigin]
        rfl
      · rw [if_neg hpos, if_neg (by simp only [List.mem_cons, not_or]; exact ⟨hpos, hlater⟩)]

/-- Only elements that are there are moved. -/
theorem lt_of_copyAll (h : b.copyAll moves out = .ok c) : ∀ move ∈ moves, move.1 < b.length := by
  induction moves generalizing out with
  | nil => exact List.forall_mem_nil _
  | cons move moves ih =>
    obtain ⟨next, hnext, hc⟩ := Result.bind_eq_ok_iff.mp h
    obtain ⟨e, he, -⟩ := Result.bind_eq_ok_iff.mp hnext
    refine List.forall_mem_cons.mpr ⟨?_, ih hc⟩
    rw [← length_elements]
    exact (List.getElem?_eq_some_iff.mp (get_eq_ok_iff.mp he)).1

theorem exists_zeros (b : Buffer) (n : Nat) :
    ∃ z out, Element.zero b.kind = .ok z ∧ zeros b.kind n = .ok out ∧
      out.kind = b.kind ∧ out.elements = List.replicate n z := by
  cases b
  all_goals exact ⟨_, _, rfl, rfl, rfl, by simp [elements]⟩

/-- Moves over zeros make the buffer of the elements that have an origin, and zeros elsewhere. -/
theorem exists_copyAll (origin : Nat → Option Nat)
    (hmoves : ∀ move ∈ moves, move.1 < b.length ∧ move.2 < n ∧ origin move.2 = some move.1)
    (hall : ∀ pos < n, ∀ old, origin pos = some old → (old, pos) ∈ moves) :
    ∃ c, (do b.copyAll moves (← zeros b.kind n)) = .ok c ∧ c.kind = b.kind ∧ c.length = n ∧
      ∀ pos < n, ∃ f, c.elements[pos]? = some f ∧
        match origin pos with
        | some old => b.elements[old]? = some f
        | none => Element.zero b.kind = .ok f := by
  obtain ⟨z, out, hz, hout, hokind, hoelements⟩ := exists_zeros b n
  have holength : out.length = n := by
    rw [← length_elements, hoelements, List.length_replicate]
  obtain ⟨c, hc, hckind, hclength, hcelements⟩ := copy_moves hokind (by rwa [holength])
  refine ⟨c, Result.bind_eq_ok_iff.mpr ⟨out, hout, hc⟩, hckind, hclength.trans holength,
    fun pos hpos => ?_⟩
  cases horigin : origin pos with
  | none =>
    have hunmoved : pos ∉ moves.map Prod.snd := by
      intro hmem
      obtain ⟨move, hmove, rfl⟩ := List.mem_map.mp hmem
      rw [(hmoves move hmove).2.2] at horigin
      cases horigin
    refine ⟨z, ?_, hz⟩
    rw [hcelements, if_neg hunmoved, hoelements, List.getElem?_replicate_of_lt hpos]
  | some old =>
    have hmove := hall pos hpos old horigin
    have hold : old < b.elements.length := by
      rw [length_elements]
      exact (hmoves _ hmove).1
    refine ⟨b.elements[old], ?_, List.getElem?_eq_getElem hold⟩
    rw [hcelements, if_pos (List.mem_map_of_mem hmove), horigin, Option.bind_some,
      List.getElem?_eq_getElem hold]

/-! ## Vectors -/

/-- **A resized vector** holds what it held from the front, and zeros behind it. -/
theorem exists_resizeVector (b : Buffer) (length : Nat) :
    ∃ c, b.resizeVector length = .ok c ∧ c.kind = b.kind ∧ c.length = length ∧
      ∀ i < length, ∃ f, c.elements[i]? = some f ∧
        if i < b.length then b.elements[i]? = some f
        else Element.zero b.kind = .ok f := by
  have hloop : b.resizeVector length = (do
      b.copyAll ((List.range (min b.length length)).map fun pos => (pos, pos))
        (← zeros b.kind length)) := by
    simp only [copyAll, List.foldlM_map]
    rfl
  have hmoves : ∀ move ∈ (List.range (min b.length length)).map fun pos => (pos, pos),
      move.1 < b.length ∧ move.2 < length ∧
        (if move.2 < b.length then some move.2 else none) = some move.1 := by
    intro move hmove
    obtain ⟨pos, hpos, rfl⟩ := List.mem_map.mp hmove
    have hpos := Nat.lt_min.mp (List.mem_range.mp hpos)
    exact ⟨hpos.1, hpos.2, if_pos hpos.1⟩
  have hall : ∀ pos < length, ∀ old, (if pos < b.length then some pos else none) = some old →
      (old, pos) ∈ (List.range (min b.length length)).map fun pos => (pos, pos) := by
    intro pos hpos old horigin
    obtain ⟨hold, hsame⟩ := Option.ite_none_right_eq_some.mp horigin
    obtain rfl := Option.some.inj hsame
    exact List.mem_map.mpr ⟨pos, List.mem_range.mpr (Nat.lt_min.mpr ⟨hold, hpos⟩), rfl⟩
  obtain ⟨c, hc, hkind, hlength, hplaces⟩ :=
    exists_copyAll (fun pos => if pos < b.length then some pos else none) hmoves hall
  refine ⟨c, hloop.trans hc, hkind, hlength, fun i hi => ?_⟩
  obtain ⟨f, hf, hplace⟩ := hplaces i hi
  refine ⟨f, hf, ?_⟩
  by_cases hin : i < b.length
  · simpa [hin] using hplace
  · simpa [hin] using hplace

theorem resizeVector_same : b.resizeVector b.length = .ok b := by
  obtain ⟨c, hc, hkind, hlength, hplaces⟩ := b.exists_resizeVector b.length
  have hsame : c = b := by
    refine ext_elements hkind (List.ext_getElem? fun i => ?_)
    by_cases hi : i < b.length
    · obtain ⟨f, hf, hplace⟩ := hplaces i hi
      rw [if_pos hi] at hplace
      rw [hf, hplace]
    · rw [List.getElem?_eq_none (by rw [length_elements]; omega),
        List.getElem?_eq_none (by rw [length_elements]; omega)]
  rw [hc, hsame]

/-! ## Matrices -/

/-- The moves of a matrix, row by row and column by column. -/
def matrixMoves (oldColumns columns keptColumns : Nat) (keptRows : List Nat) : List (Nat × Nat) :=
  keptRows.flatMap fun row => (List.range keptColumns).map fun column =>
    (rowMajor oldColumns row column, rowMajor columns row column)

theorem mem_matrixMoves {keptColumns : Nat} {keptRows : List Nat} {move : Nat × Nat} :
    move ∈ matrixMoves oldColumns columns keptColumns keptRows ↔
      ∃ row ∈ keptRows, ∃ column < keptColumns,
        (rowMajor oldColumns row column, rowMajor columns row column) = move := by
  simp [matrixMoves]

/-- The loop over rows makes the moves of the matrix. -/
theorem foldlM_copyRow (b : Buffer) (oldColumns columns : Nat) (keptRows : List Nat)
    (out : Buffer) :
    keptRows.foldlM (b.copyRow oldColumns columns) out =
      b.copyAll (matrixMoves oldColumns columns (min oldColumns columns) keptRows) out := by
  induction keptRows generalizing out with
  | nil => rfl
  | cons row keptRows ih =>
    have hrow : b.copyRow oldColumns columns out row =
        b.copyAll ((List.range (min oldColumns columns)).map fun column =>
          (rowMajor oldColumns row column, rowMajor columns row column)) out := by
      rw [copyAll, List.foldlM_map]
      rfl
    have hmoves : matrixMoves oldColumns columns (min oldColumns columns) (row :: keptRows) =
        (List.range (min oldColumns columns)).map (fun column =>
          (rowMajor oldColumns row column, rowMajor columns row column)) ++
        matrixMoves oldColumns columns (min oldColumns columns) keptRows := List.flatMap_cons
    rw [List.foldlM_cons, hrow, hmoves, copyAll, copyAll, List.foldlM_append]
    exact bind_congr ih

theorem resizeMatrix_eq (b : Buffer) (oldRows oldColumns rows columns : Nat) :
    b.resizeMatrix oldRows oldColumns rows columns = (do
      b.copyAll (matrixMoves oldColumns columns (min oldColumns columns)
        (List.range (min oldRows rows))) (← zeros b.kind (inWord (rows * columns)))) :=
  bind_congr fun out => foldlM_copyRow b oldColumns columns _ out

/-- Where the element at a position of the new matrix was in the old one. -/
def matrixOrigin (oldRows oldColumns columns pos : Nat) : Option Nat :=
  if pos / columns < oldRows ∧ pos % columns < oldColumns then
    some (pos / columns * oldColumns + pos % columns)
  else none

/-- The moves are within the bounds, and each is from where its element was. -/
theorem origin_of_mem_matrixMoves (hold : oldRows * oldColumns < UInt64.size)
    (hnew : rows * columns < UInt64.size) {move : Nat × Nat}
    (h : move ∈ matrixMoves oldColumns columns (min oldColumns columns)
      (List.range (min oldRows rows))) :
    move.1 < oldRows * oldColumns ∧ move.2 < rows * columns ∧
      matrixOrigin oldRows oldColumns columns move.2 = some move.1 := by
  obtain ⟨row, hrow, column, hcolumn, rfl⟩ := mem_matrixMoves.mp h
  have hrow := Nat.lt_min.mp (List.mem_range.mp hrow)
  have hcolumn := Nat.lt_min.mp hcolumn
  obtain ⟨hdiv, hmod⟩ := div_mod_place row hcolumn.2
  rw [rowMajor_eq hrow.1 hcolumn.1 hold, rowMajor_eq hrow.2 hcolumn.2 hnew]
  refine ⟨place_lt hrow.1 hcolumn.1, place_lt hrow.2 hcolumn.2, ?_⟩
  unfold matrixOrigin
  rw [hdiv, hmod, if_pos ⟨hrow.1, hcolumn.1⟩]

/-- Every position with an origin is moved to. -/
theorem mem_matrixMoves_of_origin (hold : oldRows * oldColumns < UInt64.size)
    (hnew : rows * columns < UInt64.size) {pos : Nat} (hpos : pos < rows * columns)
    (h : matrixOrigin oldRows oldColumns columns pos = some old) :
    (old, pos) ∈ matrixMoves oldColumns columns (min oldColumns columns)
      (List.range (min oldRows rows)) := by
  obtain ⟨⟨hrow, hcolumn⟩, hsame⟩ := Option.ite_none_right_eq_some.mp h
  obtain rfl := Option.some.inj hsame
  have hcolumns : 0 < columns := Nat.pos_of_mul_pos_left (Nat.zero_lt_of_lt hpos)
  have hrow' : pos / columns < rows := Nat.div_lt_of_lt_mul (by rwa [Nat.mul_comm])
  have hcolumn' := Nat.mod_lt pos hcolumns
  refine mem_matrixMoves.mpr ⟨pos / columns, ?_, pos % columns, ?_, ?_⟩
  · exact List.mem_range.mpr (Nat.lt_min.mpr ⟨hrow, hrow'⟩)
  · exact Nat.lt_min.mpr ⟨hcolumn, hcolumn'⟩
  · rw [rowMajor_eq hrow hcolumn hold, rowMajor_eq hrow' hcolumn' hnew, Nat.div_add_mod']

/-- **A resized matrix** holds what it held at each row and column it had, and zeros elsewhere, if a
word counts its elements before and after. -/
theorem exists_resizeMatrix (hlength : b.length = oldRows * oldColumns)
    (hold : oldRows * oldColumns < UInt64.size) (hnew : rows * columns < UInt64.size) :
    ∃ c, b.resizeMatrix oldRows oldColumns rows columns = .ok c ∧ c.kind = b.kind ∧
      c.length = rows * columns ∧
      ∀ row column, row < rows → column < columns →
        ∃ f, c.elements[row * columns + column]? = some f ∧
          if row < oldRows ∧ column < oldColumns then
            b.elements[row * oldColumns + column]? = some f
          else Element.zero b.kind = .ok f := by
  obtain ⟨c, hc, hkind, hclength, hplaces⟩ := exists_copyAll
    (matrixOrigin oldRows oldColumns columns)
    (fun move hmove => hlength.symm ▸ origin_of_mem_matrixMoves hold hnew hmove)
    (fun pos hpos old horigin => mem_matrixMoves_of_origin hold hnew hpos horigin)
  refine ⟨c, ?_, hkind, hclength, fun row column hrow hcolumn => ?_⟩
  · rw [resizeMatrix_eq, inWord_of_lt hnew]
    exact hc
  · obtain ⟨f, hf, hplace⟩ := hplaces _ (place_lt hrow hcolumn)
    obtain ⟨hdiv, hmod⟩ := div_mod_place row hcolumn
    simp only [matrixOrigin, hdiv, hmod] at hplace
    refine ⟨f, hf, ?_⟩
    by_cases hin : row < oldRows ∧ column < oldColumns
    · simpa only [if_pos hin] using hplace
    · simpa only [if_neg hin] using hplace

/-- A matrix that no word counts is not resized to the extents it has: the loop comes to the first
position behind its elements. -/
theorem countable_of_resizeMatrix (hlength : b.length = inWord (rows * columns))
    (h : b.resizeMatrix rows columns rows columns = .ok c) : rows * columns < UInt64.size := by
  refine Nat.lt_of_not_le fun hover => ?_
  have hword := inWord_lt (rows * columns)
  rw [← hlength] at hword
  have hcolumns : 0 < columns :=
    Nat.pos_of_mul_pos_left (Nat.lt_of_lt_of_le (Nat.zero_lt_of_lt hword) hover)
  have hmove : (b.length, b.length) ∈
      matrixMoves columns columns (min columns columns) (List.range (min rows rows)) := by
    refine mem_matrixMoves.mpr ⟨b.length / columns, ?_, b.length % columns, ?_, ?_⟩
    · rw [Nat.min_self, List.mem_range]
      exact Nat.div_lt_of_lt_mul (by rw [Nat.mul_comm]; omega)
    · rw [Nat.min_self]
      exact Nat.mod_lt _ hcolumns
    · rw [rowMajor, Nat.div_add_mod', inWord_of_lt hword]
  rw [resizeMatrix_eq] at h
  obtain ⟨out, -, hcopied⟩ := Result.bind_eq_ok_iff.mp h
  exact Nat.lt_irrefl _ (lt_of_copyAll hcopied _ hmove)

/-- **Resizing a matrix to the extents it has** gives it back, if a word counts its elements. -/
theorem resizeMatrix_same (hlength : b.length = rows * columns)
    (hcount : rows * columns < UInt64.size) : b.resizeMatrix rows columns rows columns = .ok b := by
  obtain ⟨c, hc, hkind, hclength, hplaces⟩ := exists_resizeMatrix hlength hcount hcount
  have hsame : c = b := by
    refine ext_elements hkind (List.ext_getElem? fun pos => ?_)
    by_cases hpos : pos < rows * columns
    · have hcolumns : 0 < columns := Nat.pos_of_mul_pos_left (Nat.zero_lt_of_lt hpos)
      have hrow : pos / columns < rows := Nat.div_lt_of_lt_mul (by rwa [Nat.mul_comm])
      have hcolumn := Nat.mod_lt pos hcolumns
      obtain ⟨f, hf, hplace⟩ := hplaces _ _ hrow hcolumn
      rw [if_pos ⟨hrow, hcolumn⟩] at hplace
      rw [Nat.div_add_mod'] at hf hplace
      rw [hf, hplace]
    · rw [List.getElem?_eq_none (by rw [length_elements]; omega),
        List.getElem?_eq_none (by rw [length_elements]; omega)]
  rw [hc, hsame]

end ArrayMachine.Buffer
