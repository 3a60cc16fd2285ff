import ArrayMachine.Proofs.Conversion.Idempotence
import ArrayMachine.Proofs.Conversion.Modes
import ArrayMachine.Proofs.Conversion.Places

/-!
# Which arrays a conversion accepts

A mode accepts a vector or a matrix for a target of as many extents by two things: whether it takes
elements of the one kind to the other, and whether it permits the change of extents
(`Mode.Admits`). But the kinds are not compared at the outset, they are met element by element. So
an array without elements is accepted whatever its kind is.

A null or identity array is filled before it is converted, and is not cast: a cast refuses it for
every target that has dimensions. A target without dimensions only changes the kind, and there a
cast fills it as the other modes do.

* `exists_convertBuffer_iff`: the kinds.
* `admits_iff`: the extents.
* `accepted_iff`: vectors and matrices.
* `cast_sentinel`: null and identity arrays under a cast.
-/

namespace ArrayMachine

variable {mode : Mode} {kind : Kind} {rule : ResizeRule} {source target : Shape} {b : Buffer}

/-! ## Kinds -/

namespace Mode

/-- An element is converted exactly where the mode converts its kind. -/
theorem isOk_convertElement (mode : Mode) (kind : Kind) (e : Element) :
    (mode.convertElement kind e).isOk = mode.converts e.kind kind := by
  unfold convertElement converts
  split
  · exact e.isOk_cast kind
  · exact e.isOk_promote kind

theorem exists_convertElement {e : Element} (h : mode.converts e.kind kind = true) :
    ∃ f, mode.convertElement kind e = .ok f := by
  rw [← isOk_convertElement] at h
  cases hf : mode.convertElement kind e with
  | ok f => exact ⟨f, rfl⟩
  | error fault =>
    rw [hf] at h
    cases h

/-- Elements that can all be converted make a buffer. -/
theorem exists_convertBuffer (hkind : kind.isBasic = true)
    (h : ∀ e ∈ b.elements, ∃ f, mode.convertElement kind e = .ok f) :
    ∃ c, mode.convertBuffer b kind = .ok c := by
  obtain ⟨es, hes⟩ := Result.exists_mapM_eq_ok h
  unfold convertBuffer
  unfold convertElement at hes
  split
  · rename_i hcasts
    simp only [if_pos hcasts] at hes
    unfold Buffer.cast
    rw [if_neg (by simp [hkind] : ¬(!kind.isBasic) = true)]
    split
    · exact ⟨b, rfl⟩
    · obtain ⟨c, hc, -⟩ := Buffer.ofElements_of_kind hkind fun f hf => by
        obtain ⟨e, -, he⟩ := Result.exists_of_mem_mapM hes hf
        exact Element.kind_of_cast he
      exact ⟨c, Result.bind_eq_ok_iff.mpr ⟨es, hes, hc⟩⟩
  · rename_i hcasts
    simp only [if_neg hcasts] at hes
    exact Buffer.exists_promote hkind hes

/-- **A buffer is converted** if and only if its kind is, or there is nothing to convert. -/
theorem exists_convertBuffer_iff (hkind : kind.isBasic = true) :
    (∃ c, mode.convertBuffer b kind = .ok c) ↔
      mode.converts b.kind kind = true ∨ b.length = 0 := by
  constructor
  · rintro ⟨c, hc⟩
    by_cases hlength : b.length = 0
    · exact .inr hlength
    · left
      have hall := (convertBuffer_eq_ok hkind hc).2
      have hpos : 0 < b.elements.length := by rw [Buffer.length_elements]; omega
      have hfirst := Result.getElem_of_mapM hall hpos (by rwa [Result.length_of_mapM hall])
      rw [← Buffer.kind_of_mem_elements (List.getElem_mem hpos), ← isOk_convertElement, hfirst]
      rfl
  · intro h
    refine exists_convertBuffer hkind fun e he => ?_
    rcases h with hconverts | hlength
    · exact exists_convertElement (Buffer.kind_of_mem_elements he ▸ hconverts)
    · rw [← Buffer.length_elements] at hlength
      rw [List.length_eq_zero_iff.mp hlength] at he
      cases he

end Mode

/-! ## Extents -/

namespace ResizeRule

theorem le_anySize (rule : ResizeRule) : rule ≤ anySize := by
  cases rule <;> decide

end ResizeRule

namespace Shape

/-- The rule that is needed is the loosest that an axis needs. -/
theorem resizeNeeded_le_iff (hlength : source.extents.length = target.extents.length) :
    source.resizeNeeded target ≤ rule ↔
      ∀ axis, ResizeRule.forAxis (source.extent axis) (target.extent axis) ≤ rule := by
  unfold resizeNeeded extent
  dsimp only
  generalize source.extents = xs at hlength ⊢
  generalize target.extents = ys at hlength ⊢
  induction xs generalizing ys with
  | nil =>
    obtain rfl := List.length_eq_zero_iff.mp hlength.symm
    simp [ResizeRule.forAxis_self, ResizeRule.sameSize_le]
  | cons x xs ih =>
    cases ys with
    | nil => cases hlength
    | cons y ys =>
      rw [List.map_cons, List.map_cons, List.zipWith_cons_cons, List.foldr_cons,
        ResizeRule.max_le, ih ys (Nat.succ.inj hlength)]
      constructor
      · rintro ⟨hfirst, hrest⟩ (_ | axis)
        · exact hfirst
        · exact hrest axis
      · intro h
        exact ⟨h 0, fun axis => h (axis + 1)⟩

/-- With extents, a shape is that of a vector or a matrix. -/
theorem extents_ne_nil_iff :
    source.extents ≠ [] ↔ source.rank = .vector ∨ source.rank = .matrix := by
  obtain ⟨element, dims, text⟩ := source
  cases dims with
  | unspecified => simp [extents, rank]
  | fixed extents => rcases extents with _ | ⟨e, _ | ⟨f, rest⟩⟩ <;> simp [Shape.extents, rank]

/-- Vectors and matrices of as many extents have the same rank. -/
theorem rank_eq_of_length (hdims : source.rank = .vector ∨ source.rank = .matrix)
    (hlength : target.extents.length = source.extents.length) : target.rank = source.rank := by
  have htarget : target.extents ≠ [] := by
    rintro hnil
    rw [hnil] at hlength
    exact extents_ne_nil_iff.mpr hdims (List.length_eq_zero_iff.mp hlength.symm)
  rw [← ofExtents_extents (isEmptyArray_of_rank (extents_ne_nil_iff.mp htarget))]
  exact rank_ofExtents target.element target.isString hlength hdims

/-- A known extent is the number it is read as. -/
theorem getElem_extents {shape : Shape} {axis : Nat} (h : shape.hasOpenExtent = false)
    (haxis : axis < shape.extents.length) : shape.extents[axis] = some (shape.extent axis) := by
  have hknown := List.any_eq_false.mp h _ (List.getElem_mem haxis)
  rw [extent, List.getElem?_eq_getElem haxis, Option.join_some]
  cases hsize : shape.extents[axis] with
  | none => exact absurd (hsize ▸ rfl) hknown
  | some size => rfl

/-- Extents that are all known are the same if they are along each axis. -/
theorem extents_eq_iff (hlength : source.extents.length = target.extents.length)
    (hsource : source.hasOpenExtent = false) (htarget : target.hasOpenExtent = false) :
    source.extents = target.extents ↔ ∀ axis, source.extent axis = target.extent axis := by
  constructor
  · intro h axis
    rw [extent, extent, h]
  · intro h
    refine List.ext_getElem hlength fun axis haxis haxis' => ?_
    rw [getElem_extents hsource haxis, getElem_extents htarget haxis', h axis]

end Shape

/-- The change of extents from a source to a target that a mode permits. -/
def Mode.Admits (mode : Mode) (source target : Shape) : Prop :=
  match mode with
  | .promotion | .assignment => source.extents = target.extents
  | .declaration | .parameter => ∀ axis, source.extent axis ≤ target.extent axis
  | .cast => True

/-- **A mode permits a change of extents** if and only if its rule covers the rule that is
needed. -/
theorem Mode.admits_iff (hlength : source.extents.length = target.extents.length)
    (hsource : source.hasOpenExtent = false) (htarget : target.hasOpenExtent = false) :
    mode.Admits source target ↔ source.resizeNeeded target ≤ mode.rules.resize := by
  rw [Shape.resizeNeeded_le_iff hlength]
  cases mode with
  | promotion | assignment =>
    simpa [Admits, rules] using Shape.extents_eq_iff hlength hsource htarget
  | declaration | parameter => simp [Admits, rules]
  | cast => simp [Admits, rules, ResizeRule.le_anySize]

/-! ## Resized buffers -/

namespace Buffer

/-- **A buffer can be resized** from the extents it has to any others, if a word counts its elements
before and after. -/
theorem exists_resized (hb : b.length = source.size) (hsource : source.Countable)
    (htarget : target.Countable) (hdims : source.rank = .vector ∨ source.rank = .matrix)
    (hrank : target.rank = source.rank) :
    ∃ c, (if source.rank = .vector then b.resizeVector (target.extent 0)
        else b.resizeMatrix (source.extent 0) (source.extent 1) (target.extent 0)
          (target.extent 1)) = .ok c ∧ c.kind = b.kind ∧ c.length = target.size := by
  rcases hdims with hvector | hmatrix
  · rw [if_pos hvector, Shape.size_of_vector (hrank.trans hvector)]
    obtain ⟨c, hc, hkind, hlength, -⟩ := b.exists_resizeVector (target.extent 0)
    exact ⟨c, hc, hkind, hlength⟩
  · rw [if_neg (by rw [hmatrix]; decide), Shape.size_of_countable (hrank.trans hmatrix) htarget]
    have hcells := hb.trans (Shape.size_of_countable hmatrix hsource)
    obtain ⟨c, hc, hkind, hlength, -⟩ := exists_resizeMatrix hcells hsource htarget
    exact ⟨c, hc, hkind, hlength⟩

end Buffer

namespace Value

variable {v x : Value}

/-! ## Vectors and matrices -/

theorem resolveExtents_of_known (h : target.hasOpenExtent = false) :
    resolveExtents target source mode = .ok target.extents := by
  refine Result.mapM_eq_ok_iff.mpr (List.ext_getElem (by simp) fun axis haxis haxis' => ?_)
  rw [List.length_map, List.length_zipIdx] at haxis
  rw [List.getElem_map, List.getElem_map, List.getElem_zipIdx, Shape.getElem_extents h haxis]

/-- With extents that are all known, it is only these that decide. -/
theorem exists_convertExtents_iff (hb : b.length = source.size) (hkind : b.kind = target.element)
    (hwords : source.Countable) (htargetWords : target.Countable)
    (hdims : source.rank = .vector ∨ source.rank = .matrix) (hrank : target.rank = source.rank)
    (hknown : target.hasOpenExtent = false) :
    (∃ w, convertExtents target source v b mode = .ok w) ↔
      source.resizeNeeded target ≤ mode.rules.resize := by
  have hempty : target.isEmptyArray = false :=
    Shape.isEmptyArray_of_rank (hrank ▸ hdims)
  have hsame := Shape.ofExtents_extents hempty
  constructor
  · rintro ⟨w, hw⟩
    obtain ⟨extents, resized, hextents, hneeded, -, -⟩ := convertExtents_eq_ok hw
    rw [resolveExtents_of_known hknown] at hextents
    rwa [← Except.ok.inj hextents, hsame] at hneeded
  · intro hneeded
    obtain ⟨c, hc, hckind, hclength⟩ := Buffer.exists_resized hb hwords htargetWords hdims hrank
    refine ⟨stored target c, ?_⟩
    have hstored := ofBuffer_eq_ok_iff.mpr ⟨⟨hckind.trans hkind, hclength⟩, hknown, rfl⟩
    unfold convertExtents
    rw [resolveExtents_of_known hknown]
    dsimp only [bind, Except.bind]
    rw [hsame, if_pos hneeded]
    split at hc
    · rename_i hvector
      rw [if_pos hvector, hc]
      exact hstored
    · rename_i hmatrix
      rw [if_neg hmatrix, hc]
      exact hstored

/-- **Which vectors and matrices a mode accepts** for a target of as many extents: those whose
extents it permits, and whose kind it converts. If there are no elements, their kind makes no
difference. A word must count the elements before and after. -/
theorem accepted_iff (target : Shape) (mode : Mode) (hv : v.WellFormed)
    (hshape : v.shape? = some source)
    (hdims : source.rank = .vector ∨ source.rank = .matrix)
    (hsource : source.element.isBasic = true)
    (hlength : target.extents.length = source.extents.length)
    (hknown : target.hasOpenExtent = false) (htarget : target.element.isBasic = true)
    (hwords : source.Countable) (htargetWords : target.Countable) :
    Accepted (.array target) v mode ↔
      (mode.converts source.element target.element = true ∨ source.size = 0) ∧
        mode.Admits source target := by
  have hrank := Shape.rank_eq_of_length hdims hlength
  have htargetDims : target.rank = .vector ∨ target.rank = .matrix := hrank ▸ hdims
  have hempty := Shape.isEmptyArray_of_rank hdims
  obtain ⟨b, hb, rfl⟩ := hv.exists_stored hshape hempty hsource
  have hconvert : convert (.array target) (stored source b) mode =
      mode.convertBuffer b target.element >>= fun c =>
        convertExtents target source (stored source b) c mode := by
    rw [convert_storedAs ⟨b, hb, rfl⟩ htarget,
      convertArray_stored mode (Shape.isEmptyArray_of_rank htargetDims) hempty hb,
      convertStored_extents mode b htargetDims hrank.symm]
  have hextents {c : Buffer} (hc : mode.convertBuffer b target.element = .ok c) :
      (∃ w, convertExtents target source (stored source b) c mode = .ok w) ↔
        source.resizeNeeded target ≤ mode.rules.resize := by
    obtain ⟨hkind, hall⟩ := Mode.convertBuffer_eq_ok htarget hc
    refine exists_convertExtents_iff ?_ hkind hwords htargetWords hdims hrank hknown
    rw [← Buffer.length_elements, Result.length_of_mapM hall, Buffer.length_elements, hb.size]
  unfold Accepted
  rw [hconvert, ← hb.kind, ← hb.size, ← Mode.exists_convertBuffer_iff htarget,
    Mode.admits_iff hlength.symm (hv.known rfl) hknown]
  constructor
  · rintro ⟨w, hw⟩
    obtain ⟨c, hc, hw⟩ := Result.bind_eq_ok_iff.mp hw
    exact ⟨⟨c, hc⟩, (hextents hc).mp ⟨w, hw⟩⟩
  · rintro ⟨⟨c, hc⟩, hneeded⟩
    obtain ⟨w, hw⟩ := (hextents hc).mpr hneeded
    exact ⟨w, Result.bind_eq_ok_iff.mpr ⟨c, hc, hw⟩⟩

/-- A column of integers is declared as a larger matrix of reals, but is not promoted to one. -/
theorem accepted_iff_column :
    let source := Shape.matrix .integer 2 1
    let target := Shape.matrix .real 2 3
    let v := stored source (.integers #[1, 2])
    v.WellFormed ∧ source.Countable ∧ target.Countable ∧ Accepted (.array target) v .declaration ∧
      ¬Accepted (.array target) v .promotion := by
  intro source target v
  have hv : v.WellFormed := .stored ⟨rfl, rfl⟩ rfl
  have hwords : source.Countable := by decide
  have htargetWords : target.Countable := by decide
  have hiff (mode : Mode) :=
    accepted_iff target mode hv rfl (.inr rfl) rfl rfl rfl rfl hwords htargetWords
  refine ⟨hv, hwords, htargetWords, (hiff .declaration).mpr ⟨.inl rfl, ?_⟩, fun haccepted => ?_⟩
  · rintro (_ | _ | axis)
    · exact Nat.le_refl 2
    · exact (by decide : 1 ≤ 3)
    · exact Nat.le_refl 0
  · cases ((hiff .promotion).mp haccepted).2

/-- **Kinds are not compared at the outset.** Reals are not promoted to integers, and one real is
refused, but no reals are accepted. -/
theorem accepted_without_elements :
    let oneReal := vector (.reals #[Single.one])
    let noReals := vector (.reals #[])
    Mode.converts .promotion .real .integer = false ∧ oneReal.WellFormed ∧ noReals.WellFormed ∧
      convert (.array (Shape.vector .integer 1)) oneReal .promotion =
        .error (.typeMismatch "cannot promote real to integer") ∧
      convert (.array (Shape.vector .integer 0)) noReals .promotion =
        .ok (vector (.integers #[])) :=
  ⟨rfl, .stored ⟨rfl, rfl⟩ rfl, .stored ⟨rfl, rfl⟩ rfl, rfl, rfl⟩

/-! ## Null and identity arrays under a cast -/

/-- What stands for zeros or ones can be filled with those of any basic kind. -/
theorem exists_fillSentinel (hsentinel : source.element.isSentinel = true)
    (hkind : kind.isBasic = true) :
    ∃ b, (source.withElement kind).Fits b ∧
      (sentinel source).fillSentinel kind = .ok (stored (source.withElement kind) b) := by
  have hfilled (e : Element) (he : e.kind.isSentinel = true) :
      ∃ b, Buffer.filled kind (source.withElement kind).size e = .ok b := by
    cases kind with
    | boolean | integer | real | character => cases e <;> first | exact ⟨_, rfl⟩ | cases he
    | null | identity | mixed => cases hkind
  rcases Kind.isSentinel_iff.mp hsentinel with hnull | hidentity
  · obtain ⟨b, hb⟩ := hfilled .null rfl
    refine ⟨b, Shape.fits_filled hb, ?_⟩
    simp only [fillSentinel, sentinel, shape?, ValueType.shape?, hnull]
    rw [hb]
    rfl
  · obtain ⟨b, hb⟩ := hfilled .identity rfl
    refine ⟨b, Shape.fits_filled hb, ?_⟩
    simp only [fillSentinel, sentinel, shape?, ValueType.shape?, hidentity]
    rw [hb]
    rfl

/-- Then all its elements are what its own one is promoted to. -/
theorem exists_filled_elements {e r : Element} (he : e.kind = source.element)
    (hsentinel : source.element.isSentinel = true) (hr : e.promote kind = .ok r)
    (hkind : kind.isBasic = true) :
    ∃ b, (source.withElement kind).Fits b ∧ b.elements = List.replicate source.size r ∧
      (sentinel source).fillSentinel kind = .ok (stored (source.withElement kind) b) := by
  obtain ⟨b, hfits, hfill⟩ := exists_fillSentinel hsentinel hkind
  refine ⟨b, hfits, ?_, hfill⟩
  obtain ⟨source', e', b', hsource, hown, hb, hstored⟩ := fillSentinel_eq_ok hfill
  obtain rfl : source = source' := Option.some.inj (congrArg shape? hsource)
  obtain rfl : b = b' := Option.some.inj (congrArg buffer? hstored)
  obtain rfl : e = e' := by
    rcases hown with ⟨hnull, rfl⟩ | ⟨hidentity, rfl⟩
    · exact Element.kind_eq_null_iff.mp (he.trans hnull)
    · exact Element.kind_eq_identity_iff.mp (he.trans hidentity)
  obtain ⟨-, r', hr', hall⟩ := Buffer.elements_filled hb
  rw [hall, Except.ok.inj (hr'.symm.trans hr)]

/-- A target without dimensions has a null or identity array filled, whatever the mode. -/
theorem convertKind_sentinel (mode : Mode) (hsentinel : source.element.isSentinel = true)
    (hknown : source.hasOpenExtent = false) (hsource : source.isEmptyArray = false)
    (htarget : target.element.isBasic = true) :
    ∃ w, (sentinel source).fillSentinel target.element = .ok w ∧
      convertKind target (sentinel source) mode = .ok w := by
  obtain ⟨b, hb, hfilled⟩ := exists_fillSentinel hsentinel htarget
  have hbuffer : mode.convertBuffer b target.element = .ok b := by
    rw [← show b.kind = target.element from hb.kind, convertBuffer_self]
  refine ⟨_, hfilled, ?_⟩
  unfold convertKind
  show (if source.isEmptyArray then _ else _) = _
  rw [if_neg (by simp [hsource])]
  dsimp only
  rw [if_pos (show (sentinel source).isSentinel = true from hsentinel), hfilled]
  show (mode.convertBuffer b target.element >>= _) = _
  rw [hbuffer]
  exact ofBuffer_eq_ok_iff.mpr ⟨hb, hknown, rfl⟩

/-- **A null or identity array is not cast**, also as a literal. But if the target has no
dimensions, it is filled as in any other mode. -/
theorem cast_sentinel (target : Shape) (hv : v.WellFormed) (hx : v.promoteMixed = .ok x)
    (hsentinel : x.isSentinel = true) (hshape : x.shape? = some source)
    (hsource : source.isEmptyArray = false) (htarget : target.element.isBasic = true) :
    (target.isEmptyArray = false →
      convert (.array target) v .cast = .error (notAllowed (.array target) x .cast)) ∧
    (target.isEmptyArray = true → ∃ w, x.fillSentinel target.element = .ok w ∧
      convert (.array target) v .cast = .ok w) := by
  obtain ⟨shape, rfl, hkind⟩ := (hv.promoteMixed hx).eq_sentinel hsentinel
  obtain rfl := Option.some.inj hshape
  rw [convert_promoted .cast rfl hx, convert_array rfl rfl rfl rfl htarget]
  constructor
  · intro hdims
    unfold convertArray
    show (if _ then _ else if shape.isEmptyArray then _ else _) = _
    rw [if_neg (by simp [hdims]), if_neg (by simp [hsource]), if_pos hsentinel]
    rfl
  · intro hnone
    obtain ⟨w, hw, hconverted⟩ :=
      convertKind_sentinel .cast hkind ((hv.promoteMixed hx).known rfl) hsource htarget
    refine ⟨w, hw, ?_⟩
    unfold convertArray
    show (if _ then _ else _) = _
    rw [if_pos hnone, hconverted]

/-- A literal of nulls is not cast to a vector of any length, but to integers of its own length. -/
theorem cast_sentinel_literal :
    let v : Value := ⟨.array (Shape.vector .mixed 2), .mixed [.null, .null]⟩
    let x := sentinel (Shape.vector .null 2)
    let anyLength := Shape.ofExtents .integer [none] false
    let noDimensions : Shape := ⟨.integer, .unspecified, false⟩
    v.promoteMixed = .ok x ∧
      convert (.array anyLength) v .cast = .error (notAllowed (.array anyLength) x .cast) ∧
      ∃ w, x.fillSentinel .integer = .ok w ∧ convert (.array noDimensions) v .cast = .ok w := by
  intro v x anyLength noDimensions
  have hv : v.WellFormed := .mixed rfl rfl rfl
  have hx : v.promoteMixed = .ok x := rfl
  exact ⟨hx, (cast_sentinel anyLength hv hx rfl rfl rfl rfl).1 rfl,
    (cast_sentinel noDimensions hv hx rfl rfl rfl rfl).2 rfl⟩

/-- **Without dimensions, null is cast**, and becomes an integer. -/
theorem cast_null_without_dimensions :
    null.WellFormed ∧
      convert (.array ⟨.integer, .unspecified, false⟩) null .cast = .ok (integer 0) ∧
      convert (.array (Shape.scalar .integer)) null .cast =
        .error (.typeMismatch "Cast of null into integer is not allowed") :=
  ⟨.sentinel rfl rfl, rfl, rfl⟩

end Value

end ArrayMachine
