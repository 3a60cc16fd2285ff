import ArrayMachine.Proofs.Assignment.Through
import ArrayMachine.Proofs.Session.Soundness
import ArrayMachine.Proofs.Value.Assigned

/-!
# Assignment to the whole of a variable

A value that can be assigned to a vector or a matrix can be assigned to a view of the whole of it,
and does the same there. The two ways are quite different: the one converts the value and replaces
the variable, the other stores element by element. They agree because what a conversion stores is
what the value has for each position (`Value.Fills`), and a view of the whole
(`Selection.Whole`) stores for each position in that very position.

* `Selection.storeAll_whole`: the loop through a view of the whole.
* `Session.assign_whole_view`: the two assignments.
-/

namespace ArrayMachine

/-! ## Views of the whole -/

/-- Every index of each axis once, in order. A vector is the whole of itself by itself if its
elements are these indices. The extents of a matrix are words. -/
def Selection.Whole (rs : Shape) (b : Buffer) : Selection → Prop
  | .bySelf => rs.rank = .vector ∧ ∀ pos, pos < rs.size →
    ∃ n : Int32, b.elements[pos]? = some (.integer n) ∧ n.toInt = pos + 1
  | .vector positions => rs.rank = .vector ∧ positions.positions = List.range (rs.extent 0)
  | .matrix rows columns => rs.rank = .matrix ∧
    (rs.extent 0 < UInt64.size ∧ rs.extent 1 < UInt64.size) ∧
    rows.positions = List.range (rs.extent 0) ∧ columns.positions = List.range (rs.extent 1)

section Range

variable {s : Selector} {n pos : Nat}

theorem Selector.get_range (h : s.positions = List.range n) (hpos : pos < n) :
    s.get pos = .ok pos := by
  rw [get_eq, h, List.getElem?_range hpos]

theorem Selector.length_range (h : s.positions = List.range n) : s.length = n := by
  rw [← length_positions, h, List.length_range]

end Range

namespace Buffer

/-- `d` holds the elements of `c` in front of a position, and from there on those of `b`. -/
structure Between (b c d : Buffer) (pos : Nat) : Prop where
  kind : d.kind = b.kind
  length : d.length = b.length
  front : ∀ q, q < pos → d.elements[q]? = c.elements[q]?
  back : ∀ q, pos ≤ q → d.elements[q]? = b.elements[q]?

variable {b c d d' : Buffer} {pos : Nat} {e : Element}

theorem between_start (b c : Buffer) : b.Between c b 0 :=
  ⟨rfl, rfl, nofun, fun _ _ => rfl⟩

/-- One more element comes from `c`. -/
theorem Between.set (h : b.Between c d pos) (hc : c.elements[pos]? = some e)
    (hpos : pos < d.elements.length) (hkind : d'.kind = d.kind)
    (hd' : d'.elements = d.elements.set pos e) : b.Between c d' (pos + 1) := by
  constructor
  · exact hkind.trans h.kind
  · exact (length_of_set_elements hd').trans h.length
  · intro q hq
    rw [hd']
    by_cases heq : q = pos
    · rw [heq, List.getElem?_set_self hpos, hc]
    · rw [List.getElem?_set_ne (Ne.symm heq)]
      exact h.front q (by omega)
  · intro q hq
    rw [hd', List.getElem?_set_ne (by omega)]
    exact h.back q (by omega)

/-- With all elements from `c` it is `c`. -/
theorem Between.eq_end (h : b.Between c d pos) (hkind : c.kind = b.kind)
    (hlength : c.length = b.length) (hpos : b.length ≤ pos) : d = c := by
  refine ext_elements (h.kind.trans hkind.symm) (List.ext_getElem? ?_)
  intro q
  by_cases hq : q < pos
  · exact h.front q hq
  · rw [List.getElem?_eq_none, List.getElem?_eq_none]
    · rw [length_elements, hlength]
      omega
    · rw [length_elements, h.length]
      omega

end Buffer

namespace Selection

variable {σ : Selection} {rs : Shape} {b c d : Buffer} {x : Value} {n pos count : Nat}

theorem Whole.rank (h : σ.Whole rs b) : rs.rank = .vector ∨ rs.rank = .matrix := by
  cases σ with
  | bySelf => exact .inl h.1
  | vector positions => exact .inl h.1
  | matrix rows columns => exact .inr h.1

theorem Whole.count_eq (h : σ.Whole rs b) : σ.count rs.size = rs.size := by
  cases σ with
  | bySelf => rfl
  | vector positions =>
    obtain ⟨hrank, hpositions⟩ := h
    rw [Shape.size_of_vector hrank]
    exact Selector.length_range hpositions
  | matrix rows columns =>
    obtain ⟨hrank, hwords, hrows, hcolumns⟩ := h
    have hrows := Selector.length_range hrows
    have hcolumns := Selector.length_range hcolumns
    rw [Shape.size_of_matrix hrank, ← hrows, ← hcolumns]
    exact count_matrix (hrows ▸ hwords.1) (hcolumns ▸ hwords.2) _

/-- **A view of the whole has each position at its place**, as long as that is not overwritten. -/
theorem Whole.flatPosition_eq (h : σ.Whole rs b) (hd : rs.Fits d)
    (hback : d.elements[pos]? = b.elements[pos]?) (hpos : pos < rs.size) :
    σ.flatPosition (Value.stored rs d) pos = .ok pos := by
  cases σ with
  | bySelf =>
    obtain ⟨n, hn, hindex⟩ := h.2 pos hpos
    rw [flatPosition_bySelf_eq hd (hback.trans hn)]
    unfold IndexList.position
    rw [if_pos (by omega), hindex]
    simp
  | vector positions =>
    obtain ⟨hrank, hpositions⟩ := h
    rw [Shape.size_of_vector hrank] at hpos
    exact Selector.get_range hpositions hpos
  | matrix rows columns =>
    obtain ⟨hrank, hwords, hrows, hcolumns⟩ := h
    have hword : pos < UInt64.size := Nat.lt_trans hpos (Shape.size_of_matrix hrank ▸ inWord_lt _)
    have hpos : pos < rs.extent 0 * rs.extent 1 :=
      Nat.lt_of_lt_of_le hpos (Shape.size_of_matrix hrank ▸ inWord_le _)
    have hlength := Selector.length_range hcolumns
    have hpositive : 0 < rs.extent 1 := Nat.pos_of_mul_pos_left (Nat.zero_lt_of_lt hpos)
    have hrow : pos / rs.extent 1 < rs.extent 0 := Nat.div_lt_of_lt_mul (by rwa [Nat.mul_comm])
    rw [flatPosition_matrix rfl (by omega)
      (hlength ▸ Selector.get_range hrows hrow)
      (hlength ▸ Selector.get_range hcolumns (Nat.mod_lt pos hpositive)),
      hlength, rowMajor, Nat.div_add_mod', inWord_of_lt hword]

/-- **The loop through a view of the whole** leaves what fills the root. -/
theorem storeAll_whole (hwhole : σ.Whole rs b) (hb : rs.Fits b) (hx : x.Fills rs n c)
    (hd : b.Between c d pos) (hcount : pos + count = rs.size) :
    σ.storeAll x (n = 1) (Value.stored rs d) count pos = (.ok (), Value.stored rs c) := by
  have hfits : rs.Fits d := ⟨hd.kind.trans hb.kind, hd.length.trans hb.size⟩
  induction count generalizing d pos with
  | zero =>
    have hkind := hx.fits.kind.trans hb.kind.symm
    have hlength := hx.fits.size.trans hb.size.symm
    rw [hd.eq_end hkind hlength (by rw [hb.size, ← hcount]; exact Nat.le_refl pos)]
    rfl
  | succ count ih =>
    have hpos : pos < rs.size := by omega
    have hposc : pos < c.elements.length := by rwa [Buffer.length_elements, hx.fits.size]
    have hposd : pos < d.length := by rwa [hfits.size]
    have hflat := hwhole.flatPosition_eq hfits (hd.back pos (Nat.le_refl pos)) hpos
    have hsupply := Result.getElem_of_mapM hx.elements (by rwa [List.length_range]) hposc
    rw [List.getElem_range, ← hfits.kind] at hsupply
    obtain ⟨e, -, hpromote⟩ := Result.bind_eq_ok_iff.mp hsupply
    obtain ⟨d', -, hkind, hd'⟩ := Buffer.exists_set hposd hpromote
    have hnext : σ.storeNext x (n = 1) (Value.stored rs d) pos = .ok (Value.stored rs d') := by
      refine storeNext_eq_ok_iff.mpr ⟨?_, pos, _, d', hflat, hposd, hsupply, hkind, hd', rfl⟩
      rwa [hwhole.count_eq]
    have hbetween : b.Between c d' (pos + 1) :=
      hd.set (List.getElem?_eq_getElem hposc) (by rwa [Buffer.length_elements]) hkind hd'
    rw [storeAll_of_ok hnext]
    exact ih hbetween (by omega)
      ⟨hbetween.kind.trans hb.kind, hbetween.length.trans hb.size⟩

end Selection

/-! ## The two assignments -/

namespace Session

variable {s t : Session} {v w : Handle} {x copy current : Value} {σ : Selection} {rs : Shape}
  {b : Buffer}

/-- An assignment to a variable that holds no view succeeds if the source can be copied and the copy
converted to the type of the variable. -/
theorem assign_direct_eq_ok (hget : s.scope.get v = .ok current) (hview : current.view? = none)
    (h : s.assign v x = (.ok (), t)) :
    ∃ copy new, s.copy x = .ok copy ∧ Value.convert current.type copy .assignment = .ok new ∧
      t = { s with scope := s.scope.write v new } := by
  cases hcopy : s.copy x with
  | error fault =>
    unfold assign at h
    rw [hcopy] at h
    cases (Prod.mk.inj h).1
  | ok copy =>
    rw [assign_eq hcopy] at h
    unfold assignCopy at h
    rw [hget] at h
    simp only [hview] at h
    cases hnew : assignWhole s.scope v current copy with
    | error fault =>
      rw [hnew] at h
      cases (Prod.mk.inj h).1
    | ok scope =>
      rw [hnew] at h
      obtain ⟨-, rfl⟩ := Prod.mk.inj h
      obtain ⟨new, hconvert, hreplace⟩ := Result.bind_eq_ok_iff.mp hnew
      obtain ⟨pair, hpair, hscope⟩ := Result.bind_eq_ok_iff.mp hreplace
      obtain ⟨old, -, hpair⟩ := Result.bind_eq_ok_iff.mp hpair
      obtain rfl := Except.ok.inj hpair
      obtain rfl := Except.ok.inj hscope
      exact ⟨copy, new, rfl, hconvert, rfl⟩

/-- **A view of the whole of a vector or a matrix takes what the variable takes**, and the session
is left the same. -/
theorem assign_whole_view (hb : rs.Fits b) (hv : s.scope.get v = .ok (Value.stored rs b))
    (hwhole : σ.Whole rs b)
    (hw : s.scope.get w = .ok (Value.ofView (σ.shape rs rs.size) ⟨v, σ⟩))
    (hx : x.view? = none → x.Coherent) (h : s.assign v x = (.ok (), t)) :
    s.assign w x = (.ok (), t) := by
  obtain ⟨copy, new, hcopy, hconvert, rfl⟩ := assign_direct_eq_ok hv rfl h
  obtain ⟨n, c, hfills, rfl⟩ := Value.fills_convert (coherent_copy hx hcopy) hwhole.rank hconvert
  have hlength : (Value.ofView (σ.shape rs rs.size) ⟨v, σ⟩).length = .ok rs.size := by
    show Except.ok (σ.shape rs rs.size).size = _
    rw [Selection.size_shape, hwhole.count_eq]
  have hstore :=
    Selection.storeAll_whole hwhole hb hfills (Buffer.between_start b c) (Nat.zero_add _)
  rw [assign_eq hcopy, assignCopy_view hw rfl hlength,
    assignThrough_fit hv hfills.length hfills.many, hstore]

/-- A literal of numbers, a null and an identity, into a matrix of integers and into a view of all
its rows and columns. -/
theorem assign_whole_view_literal :
    let start := Session.start Settings.default [] Sink.empty
    let table := Value.stored (Shape.matrix .integer 2 2) (.integers #[5, 6, 7, 8])
    let σ : Selection := .matrix (.many #[0, 1]) (.many #[0, 1])
    let whole := Value.ofView (Shape.matrix .integer 2 2) ⟨⟨0, 0⟩, σ⟩
    let both := IndexOperand.value (Value.vector (.integers #[1, 2]))
    let x : Value :=
      ⟨.array (Shape.matrix .mixed 2 2), .mixed [.integer 1, .null, .identity, .integer 4]⟩
    let s := ((start.allocate table).2.allocate whole).2
    let filled := Value.stored (Shape.matrix .integer 2 2) (.integers #[1, 0, 1, 4])
    let t := { s with scope := s.scope.write ⟨0, 0⟩ filled }
    s.scope.index (.anchored ⟨0, 0⟩) [both, both] = .ok whole ∧
      s.scope.get ⟨0, 0⟩ = .ok table ∧ s.scope.get ⟨1, 1⟩ = .ok whole ∧
      s.assign ⟨0, 0⟩ x = (.ok (), t) ∧ s.assign ⟨1, 1⟩ x = (.ok (), t) := by
  intro start table σ whole both x s filled t
  have hdirect : s.assign ⟨0, 0⟩ x = (.ok (), t) := rfl
  have hwhole : σ.Whole (Shape.matrix .integer 2 2) (.integers #[5, 6, 7, 8]) :=
    ⟨rfl, by decide, rfl, rfl⟩
  exact ⟨rfl, rfl, rfl, hdirect,
    assign_whole_view (v := ⟨0, 0⟩) ⟨rfl, rfl⟩ rfl hwhole rfl (fun _ => .mixed rfl) hdirect⟩

end Session

end ArrayMachine
