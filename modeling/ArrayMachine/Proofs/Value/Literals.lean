import ArrayMachine.Proofs.Value.Fresh
import ArrayMachine.Proofs.Value.Meeting
import ArrayMachine.Proofs.Value.Promotion

/-!
# What a literal becomes

A matrix literal is written in rows of any lengths. The short rows are filled up with nulls, the rows
are laid one after the other, and what comes of it is stored at once if it is all of one basic kind,
and otherwise kept as it is until it is promoted. On either way the element of a row and a column is
in the end the one that was written there, promoted to the kind that all elements and the nulls
between them have in common, or the zero of that kind where the row was too short
(`Value.LaidOut`). A vector literal is one row.

* `getElem?_cells`: the place of a row and a column.
* `exists_ofElements_meets`: the two ways to one kind.
* `literal_promoted`: literals of any number of rows of any lengths.
-/

namespace ArrayMachine

/-- The entry of lists of one length that are laid one after the other. -/
theorem getElem?_flatMap_of_length {α β : Type} {xs : List α} {f : α → List β} {n i j : Nat}
    (hlength : ∀ x ∈ xs, (f x).length = n) (hi : i < xs.length) (hj : j < n) :
    (xs.flatMap f)[i * n + j]? = (f xs[i])[j]? := by
  induction xs generalizing i with
  | nil => cases hi
  | cons x xs ih =>
    have hx : (f x).length = n := hlength x List.mem_cons_self
    rw [List.flatMap_cons]
    cases i with
    | zero =>
      rw [Nat.zero_mul, Nat.zero_add, List.getElem?_append_left (by omega), List.getElem_cons_zero]
    | succ i =>
      have hskip : (i + 1) * n + j = n + (i * n + j) := by rw [Nat.succ_mul]; omega
      rw [hskip, List.getElem?_append_right (by omega), hx, Nat.add_sub_cancel_left,
        List.getElem_cons_succ]
      exact ih (fun y hy => hlength y (List.mem_cons_of_mem x hy)) (Nat.lt_of_succ_lt_succ hi)

namespace Value

variable {rows : List (List Element)} {row es : List Element} {extents : List Extent} {v : Value}
  {k : Kind} {n r c : Nat}

/-! ## Padded rows -/

/-- The elements of a matrix literal, row by row, short rows filled up with nulls. -/
def cells (rows : List (List Element)) : List Element := rows.flatMap (padded (columnsOf rows))

theorem length_cells (rows : List (List Element)) :
    (cells rows).length = rows.length * columnsOf rows :=
  length_flatMap_padded rows

/-- Some row is as long as the longest one. -/
theorem exists_length_eq_columnsOf (h : rows ≠ []) : ∃ row ∈ rows, row.length = columnsOf rows := by
  induction rows with
  | nil => exact absurd rfl h
  | cons first rest ih =>
    show ∃ row ∈ first :: rest, row.length = max first.length (columnsOf rest)
    by_cases hrest : columnsOf rest ≤ first.length
    · exact ⟨first, List.mem_cons_self, (Nat.max_eq_left hrest).symm⟩
    · have hne : rest ≠ [] := by
        rintro rfl
        exact hrest (Nat.zero_le _)
      obtain ⟨row, hrow, hlength⟩ := ih hne
      refine ⟨row, List.mem_cons_of_mem first hrow, ?_⟩
      rw [Nat.max_eq_right (by omega), hlength]

/-- A padded row goes on with nulls. -/
theorem getElem?_padded (hc : c < n) : (padded n row)[c]? = some (row[c]?.getD .null) := by
  unfold padded
  by_cases hrow : c < row.length
  · rw [List.getElem?_append_left hrow, List.getElem?_eq_getElem hrow, Option.getD_some]
  · rw [List.getElem?_append_right (by omega), List.getElem?_replicate_of_lt (by omega),
      List.getElem?_eq_none (by omega), Option.getD_none]

/-- **The element of a row and a column**, or null where the row is too short. -/
theorem getElem?_cells (hr : r < rows.length) (hc : c < columnsOf rows) :
    (cells rows)[r * columnsOf rows + c]? = some (rows[r][c]?.getD .null) := by
  unfold cells
  rw [getElem?_flatMap_of_length (fun row hrow => length_padded hrow) hr hc, getElem?_padded hc]

/-! ## The two ways to one kind -/

/-- Elements that are all of one basic kind have that kind in common. -/
theorem commonKind?_of_kind (hne : es ≠ []) (hk : k.isBasic = true) (h : ∀ e ∈ es, e.kind = k) :
    Buffer.commonKind? es = some k := by
  obtain ⟨first, hfirst⟩ := List.exists_mem_of_ne_nil es hne
  have hself : k.promotesTo k = true := Kind.promotesTo_self (by rintro rfl; cases hk)
  refine (Buffer.commonKind?_eq_basic_iff.mpr ⟨⟨first, hfirst, ?_⟩, fun e he => ?_, fun l hl => ?_⟩).1
  · rwa [h first hfirst]
  · rwa [h e he]
  · rw [← h first hfirst]
    exact hl first hfirst

/-- Elements are stored at a basic kind that they have in common. -/
theorem exists_ofElements_of_commonKind? (hk : k.isBasic = true)
    (h : Buffer.commonKind? es = some k) : ∃ b, Buffer.ofElements k es = .ok b := by
  have hleast := Buffer.commonKind?_eq_basic_iff.mp ⟨h, hk⟩
  obtain ⟨fs, hfs⟩ := Result.exists_mapM_eq_ok fun e he =>
    Element.exists_promote (hleast.promotes e he)
  obtain ⟨b, hb, -⟩ := Buffer.exists_ofElements hk hfs
  exact ⟨b, hb⟩

/-- What promoting a literal comes to, by the kind that its elements have in common. -/
inductive Meets (es : List Element) (extents : List Extent) : Result Value → Prop where
  | refused {text : String} : Buffer.commonKind? es = none →
    Meets es extents (.error (.typeMismatch text))
  | sentinel {k : Kind} : Buffer.commonKind? es = some k → k.isSentinel = true →
    Meets es extents (.ok (sentinel (Shape.ofExtents k extents false)))
  | stored {k : Kind} {b : Buffer} : Buffer.commonKind? es = some k → k.isBasic = true →
    Buffer.ofElements k es = .ok b →
    Meets es extents (.ok (stored (Shape.ofExtents k extents false) b))

/-- Elements that are kept as they are until they are promoted. -/
theorem meets_mixed (es : List Element) (extents : List Extent) :
    Meets es extents
      (promoteMixed ⟨.array (Shape.ofExtents .mixed extents false), .mixed es⟩) := by
  simp only [promoteMixed, shape?, ValueType.shape?]
  cases hcommon : Buffer.commonKind? es with
  | none => exact .refused hcommon
  | some k =>
    dsimp only
    split
    · rename_i hsentinel
      exact .sentinel hcommon hsentinel
    · rename_i hnot
      have hbasic : k.isBasic = true :=
        (Buffer.isBasic_or_isSentinel_of_commonKind? hcommon).resolve_right hnot
      obtain ⟨b, hb⟩ := exists_ofElements_of_commonKind? hbasic hcommon
      rw [hb]
      exact .stored hcommon hbasic hb

/-- **Both ways lead to one kind.** Elements are stored at once or kept until they are promoted, and
what comes of it is the same. -/
theorem exists_ofElements_meets (extents : List Extent) (hne : es ≠ []) :
    ∃ v, ofElements extents es = .ok v ∧ Meets es extents v.promoteMixed := by
  obtain ⟨first, rest, rfl⟩ := List.exists_cons_of_ne_nil hne
  unfold ofElements
  dsimp only
  split
  · rename_i hall
    obtain ⟨hbasic, hrest⟩ := Bool.and_eq_true_iff.mp hall
    have hkinds : ∀ e ∈ first :: rest, e.kind = first.kind :=
      List.forall_mem_cons.mpr ⟨rfl, by simpa using hrest⟩
    obtain ⟨b, hb, -, -⟩ := Buffer.ofElements_of_kind hbasic hkinds
    refine ⟨stored (Shape.ofExtents first.kind extents false) b, ?_, ?_⟩
    · rw [hb]
      rfl
    · exact .stored (commonKind?_of_kind hne hbasic hkinds) hbasic hb
  · exact ⟨_, rfl, meets_mixed _ extents⟩

/-! ## Row by row -/

/-- What stands in a column of a row at the literal's kind: what was written there, or the zero of
the kind behind the end of the row. -/
inductive Cell (k : Kind) (row : List Element) (c : Nat) (f : Element) : Prop where
  | written (h : c < row.length) : row[c].promote k = .ok f → Cell k row c f
  | filled : row.length ≤ c → Element.zero k = .ok f → Cell k row c f

/-- What promoting a literal of the given rows comes to. The kind is the one that all elements have
in common, the nulls behind short rows included. -/
inductive LaidOut (rows : List (List Element)) (extents : List Extent) : Result Value → Prop where
  | refused {text : String} : (∀ k, ¬ Kind.IsCommon ((cells rows).map Element.kind) k) →
    LaidOut rows extents (.error (.typeMismatch text))
  | sentinel {k : Kind} : Kind.IsCommon ((cells rows).map Element.kind) k → k.isSentinel = true →
    LaidOut rows extents (.ok (sentinel (Shape.ofExtents k extents false)))
  | stored {k : Kind} {b : Buffer} : Kind.IsCommon ((cells rows).map Element.kind) k →
    k.isBasic = true → (Shape.ofExtents k extents false).Fits b →
    (∀ (r : Nat) (hr : r < rows.length) (c : Nat), c < columnsOf rows →
      ∃ f, (stored (Shape.ofExtents k extents false) b).element (r * columnsOf rows + c) = .ok f ∧
        Cell k rows[r] c f) →
    LaidOut rows extents (.ok (stored (Shape.ofExtents k extents false) b))

/-- A written element, or null where the row is too short, at the literal's kind. -/
theorem cell_of_promote {f : Element} (hk : k.isBasic = true)
    (h : (row[c]?.getD .null).promote k = .ok f) : Cell k row c f := by
  by_cases hc : c < row.length
  · rw [List.getElem?_eq_getElem hc, Option.getD_some] at h
    exact .written hc h
  · rw [List.getElem?_eq_none (by omega), Option.getD_none] at h
    exact .filled (by omega) (Element.zero_of_promote_null hk h)

/-- **The element of a row and a column**, among the stored elements of all rows. -/
theorem exists_cell {b : Buffer} (hb : Buffer.ofElements k (cells rows) = .ok b)
    (hr : r < rows.length) (hc : c < columnsOf rows) :
    ∃ f, b.elements[r * columnsOf rows + c]? = some f ∧ Cell k rows[r] c f := by
  have hmapM := (Buffer.ofElements_eq_ok_iff.mp hb).2
  have hcell := getElem?_cells hr hc
  obtain ⟨hpos, hwritten⟩ := List.getElem?_eq_some_iff.mp hcell
  have hlength : r * columnsOf rows + c < b.elements.length := by
    rwa [Result.length_of_mapM hmapM]
  have hpromote := Result.getElem_of_mapM hmapM hpos hlength
  rw [hwritten] at hpromote
  exact ⟨_, List.getElem?_eq_getElem hlength,
    cell_of_promote (Buffer.isBasic_of_ofElements hb) hpromote⟩

/-- Elements laid out in rows, once they are at one kind. -/
theorem Meets.laidOut {answer : Result Value}
    (hsize : ∀ kind, (Shape.ofExtents kind extents false).size = (cells rows).length)
    (h : Meets (cells rows) extents answer) : LaidOut rows extents answer := by
  cases h with
  | refused hnone =>
    refine .refused fun k hk => ?_
    rw [Buffer.commonKind?_eq_some_iff.mpr hk] at hnone
    cases hnone
  | sentinel hcommon hsentinel =>
    exact .sentinel (Buffer.commonKind?_eq_some_iff.mp hcommon) hsentinel
  | @stored k b hcommon hbasic hb =>
    have hfits : (Shape.ofExtents k extents false).Fits b :=
      ⟨Buffer.kind_of_ofElements hb, by rw [Buffer.length_of_ofElements hb, hsize]⟩
    refine .stored (Buffer.commonKind?_eq_some_iff.mp hcommon) hbasic hfits fun r hr c hc => ?_
    obtain ⟨f, hf, hcell⟩ := exists_cell hb hr hc
    exact ⟨f, (element_stored_eq_ok_iff hfits).mpr hf, hcell⟩

/-- There is a cell where there is a row with an element. -/
theorem cells_ne_nil (h : ∃ row ∈ rows, row ≠ []) : cells rows ≠ [] := by
  obtain ⟨row, hrow, hne⟩ := h
  obtain ⟨e, he⟩ := List.exists_mem_of_ne_nil row hne
  have hcell : e ∈ padded (columnsOf rows) row := List.mem_append_left _ he
  exact List.ne_nil_of_mem (List.mem_flatMap.mpr ⟨row, hrow, hcell⟩)

theorem cells_singleton (es : List Element) : cells [es] = es := by
  simp [cells, padded, columnsOf]

/-- **What a literal becomes.** A matrix literal with an element in some row has a row for each row
and a column for each element of the longest one, and a vector literal is one row. Promoted, it is
refused if the elements and the nulls behind short rows have no kind in common; it is the null or
identity array of that shape if they are all null or all identity; and otherwise the element of each
row and column is the one written there at the kind they have in common, or the zero of that kind
where the row is too short. -/
theorem literal_promoted :
    (∀ literal : Rows, let rows := literal.list
      (∃ row ∈ rows, row ≠ []) →
      (∀ row ∈ rows, row.length ≤ columnsOf rows) ∧ (∃ row ∈ rows, row.length = columnsOf rows) ∧
      ∃ v, matrixLiteral literal = .ok v ∧
        LaidOut rows [some rows.length, some (columnsOf rows)] v.promoteMixed) ∧
    (∀ es : List Element, es ≠ [] →
      ∃ v, literal es = .ok v ∧ LaidOut [es] [some es.length] v.promoteMixed) := by
  constructor
  · intro literal rows hrows
    obtain ⟨v, hv, hmeets⟩ :=
      exists_ofElements_meets [some rows.length, some (columnsOf rows)] (cells_ne_nil hrows)
    refine ⟨fun row => length_le_columnsOf, exists_length_eq_columnsOf ?_, v, hv,
      hmeets.laidOut fun kind => ?_⟩
    · obtain ⟨row, hrow, -⟩ := hrows
      exact List.ne_nil_of_mem hrow
    · rw [length_cells]
      exact inWord_of_lt literal.countable
  · intro es hes
    obtain ⟨v, hv, hmeets⟩ := exists_ofElements_meets [some es.length] hes
    have hrow : Meets (cells [es]) [some es.length] v.promoteMixed := by rwa [cells_singleton]
    refine ⟨v, hv, hrow.laidOut fun kind => ?_⟩
    rw [cells_singleton]
    rfl

/-- A short row before a long one, with a null and an identity that are written out. All elements
meet at integer, the null behind the short row too. -/
theorem literal_promoted_ragged :
    let rows : List (List Element) := [[.integer 7], [.null, .identity]]
    let literal : Rows := ⟨rows, by decide⟩
    (∃ row ∈ rows, row ≠ []) ∧
      (∃ v, matrixLiteral literal = .ok v ∧ LaidOut rows [some 2, some 2] v.promoteMixed) ∧
      matrixLiteral literal >>= promoteMixed =
        .ok (stored (Shape.matrix .integer 2 2) (.integers #[7, 0, 0, 1])) := by
  intro rows literal
  have hrows : ∃ row ∈ rows, row ≠ [] := ⟨_, List.mem_cons_self, nofun⟩
  exact ⟨hrows, (literal_promoted.1 literal hrows).2.2, rfl⟩

end Value

end ArrayMachine
