import ArrayMachine.Proofs.Value.Assigned
import ArrayMachine.Proofs.Value.Faults
import Mathlib.Data.List.Forall2

/-!
# Conversion is idempotent

What a value was converted to is converted to itself, under the same mode. The second conversion
need not go the way of the first: a scalar was spread over an array, a null array was filled, the
empty array took on extents, an interval became a vector, and what came of it is a stored array.
But whatever the way was, the target settled on the shape it led to (`Shape.Settles`): every extent
that the target fixes is there, and an open one was found because the mode may find it. A stored
array of such a shape is converted to itself.

* `settles_of_convertArray`: whatever an array is converted to, the target settled on its shape.
* `convertArray_self`: stored arrays of these shapes are fixed.
* `convertKind_self`: the same for a target without dimensions.
* `convert_idempotent`: into any type, tuples being converted field by field.
-/

namespace ArrayMachine

/-! ## Settled shapes -/

/-- A known extent that stands where one was declared, or where it was left open and the mode may
find it. -/
def Mode.Settles (mode : Mode) (declared found : Extent) : Prop :=
  found.isSome = true ∧ (declared = found ∨ declared = none ∧ mode.rules.openExtents = true)

/-- The shapes under which a target with dimensions has arrays stored. -/
inductive Shape.Settles (mode : Mode) (target : Shape) : Shape → Prop where
  /-- A scalar is no text, whatever its target is. -/
  | scalar : target.rank = .scalar → Settles mode target (Shape.scalar target.element)
  | extents {extents : List Extent} : target.rank = .vector ∨ target.rank = .matrix →
    List.Forall₂ mode.Settles target.extents extents →
    Settles mode target (Shape.ofExtents target.element extents target.isString)

variable {mode : Mode} {target source shape : Shape} {extents : List Extent} {b : Buffer}

theorem ResizeRule.forAxis_self (size : Nat) : forAxis size size = sameSize := if_pos rfl

theorem ResizeRule.sameSize_le (rule : ResizeRule) : sameSize ≤ rule := Nat.zero_le _

namespace Shape

/-- Into its own shape nothing has to be resized. -/
theorem resizeNeeded_self (shape : Shape) : shape.resizeNeeded shape = .sameSize := by
  unfold resizeNeeded
  dsimp only
  induction shape.extents with
  | nil => rfl
  | cons extent extents ih =>
    simp only [List.map_cons, List.zipWith_cons_cons, List.foldr_cons, ResizeRule.forAxis_self]
    rw [ih]
    rfl

theorem rank_of_ne_scalar (hempty : target.isEmptyArray = false) (h : target.rank ≠ .scalar) :
    target.rank = .vector ∨ target.rank = .matrix := by
  unfold isEmptyArray at hempty
  cases hrank : target.rank <;> simp_all

theorem rank_ofExtents (kind : Kind) (text : Bool)
    (hlength : extents.length = target.extents.length)
    (hdims : target.rank = .vector ∨ target.rank = .matrix) :
    (ofExtents kind extents text).rank = target.rank := by
  rcases hdims with hrank | hrank
  · obtain ⟨e, he⟩ := dims_of_vector hrank
    rw [hrank]
    rw [Shape.extents, he] at hlength
    obtain ⟨f, rfl⟩ := List.length_eq_one_iff.mp hlength
    rfl
  · obtain ⟨e, e', rest, he⟩ := dims_of_matrix hrank
    rw [hrank]
    rw [Shape.extents, he] at hlength
    rcases extents with _ | ⟨f, _ | ⟨f', rest'⟩⟩
    · simp at hlength
    · simp at hlength
    · rfl

namespace Settles

theorem element (h : Settles mode target shape) : shape.element = target.element := by
  cases h <;> rfl

theorem rank (h : Settles mode target shape) : shape.rank = target.rank := by
  cases h with
  | scalar hrank => exact hrank.symm
  | extents hdims h => exact rank_ofExtents target.element target.isString h.length_eq.symm hdims

theorem known (h : Settles mode target shape) : shape.hasOpenExtent = false := by
  cases h with
  | scalar _ => rfl
  | extents _ h =>
    refine List.any_eq_false.mpr fun extent hextent => ?_
    obtain ⟨axis, haxis, rfl⟩ := List.getElem_of_mem hextent
    have hfound := (h.get (by rwa [h.length_eq]) haxis).1
    rw [List.get_eq_getElem, ← Option.not_isNone, Bool.not_eq_true'] at hfound
    exact Bool.eq_false_iff.mp hfound

theorem isEmptyArray (h : Settles mode target shape) : target.isEmptyArray = false := by
  cases h with
  | scalar hrank => simp [Shape.isEmptyArray, hrank]
  | extents hdims _ => exact isEmptyArray_of_rank hdims

end Settles

end Shape

namespace Value

variable {v w x : Value}

/-! ## Extents that are found again -/

/-- Settled extents are found, each where it is, in an array that has them. -/
theorem resolveExtents_self (kind : Kind) (text : Bool)
    (h : List.Forall₂ mode.Settles target.extents extents) :
    resolveExtents target (Shape.ofExtents kind extents text) mode = .ok extents := by
  refine Result.mapM_eq_ok_iff.mpr (List.ext_getElem ?_ fun axis haxis haxis' => ?_)
  · simp [h.length_eq]
  · simp only [List.length_map] at haxis haxis'
    obtain ⟨hsome, hfound⟩ := h.get (by simpa using haxis) haxis'
    obtain ⟨size, hsize⟩ := Option.isSome_iff_exists.mp hsome
    simp only [List.get_eq_getElem] at hsize hfound
    have hextent : (Shape.ofExtents kind extents text).extent axis = size := by
      simp [Shape.extent, Shape.extents, Shape.ofExtents, hsize, List.getElem?_eq_getElem haxis']
    simp only [List.getElem_map, List.getElem_zipIdx, Nat.zero_add]
    rcases hfound with hsame | ⟨hopen, hmode⟩
    · rw [hsame, hsize]
    · rw [hopen, hsize]
      simp [hmode, hextent]

theorem settles_of_resolveExtents (h : resolveExtents target source mode = .ok extents) :
    List.Forall₂ mode.Settles target.extents extents := by
  have hlength : extents.length = target.extents.length := by
    rw [Result.length_of_mapM h, List.length_zipIdx]
  refine List.forall₂_iff_get.mpr ⟨hlength.symm, fun axis haxis haxis' => ?_⟩
  have hfound := Result.getElem_of_mapM h (by rwa [List.length_zipIdx]) haxis'
  simp only [List.getElem_zipIdx, Nat.zero_add] at hfound
  simp only [List.get_eq_getElem]
  cases hdeclared : target.extents[axis] with
  | some size =>
    rw [hdeclared] at hfound
    rw [← Except.ok.inj hfound]
    exact ⟨rfl, .inl rfl⟩
  | none =>
    rw [hdeclared] at hfound
    dsimp only at hfound
    split at hfound
    · rename_i hmode
      rw [← Except.ok.inj hfound]
      exact ⟨rfl, .inr ⟨rfl, hmode⟩⟩
    · cases hfound

/-- What the empty array takes on is settled. -/
theorem settles_of_extentForEmpty (h : target.extents.mapM (extentForEmpty mode) = .ok extents) :
    List.Forall₂ mode.Settles target.extents extents := by
  refine List.forall₂_iff_get.mpr ⟨(Result.length_of_mapM h).symm, fun axis haxis haxis' => ?_⟩
  have hfound := Result.getElem_of_mapM h haxis haxis'
  simp only [List.get_eq_getElem]
  unfold extentForEmpty at hfound
  split at hfound
  · rename_i hdeclared
    split at hfound
    · rename_i hmode
      rw [← Except.ok.inj hfound, hdeclared]
      exact ⟨rfl, .inr ⟨rfl, hmode⟩⟩
    · cases hfound
  · rename_i size hdeclared
    split at hfound
    · cases hfound
    · rw [← Except.ok.inj hfound, hdeclared]
      exact ⟨rfl, .inl rfl⟩

/-- Extents that are all known are settled already. -/
theorem settles_of_known (h : target.hasOpenExtent = false) :
    List.Forall₂ mode.Settles target.extents target.extents := by
  refine List.forall₂_same.mpr fun extent hextent => ⟨?_, .inl rfl⟩
  have hknown := List.any_eq_false.mp h extent hextent
  cases extent with
  | none => exact absurd rfl hknown
  | some size => rfl

/-! ## Fixed points -/

theorem convertBuffer_self (mode : Mode) (b : Buffer) : mode.convertBuffer b b.kind = .ok b := by
  unfold Mode.convertBuffer
  split
  · exact if_pos rfl
  · exact if_pos rfl

/-- A buffer of a vector or a matrix is resized to the extents it has. -/
theorem convertExtents_self (v : Value) (hdims : target.rank = .vector ∨ target.rank = .matrix)
    (h : List.Forall₂ mode.Settles target.extents extents)
    (hb : (Shape.ofExtents target.element extents target.isString).Fits b)
    (hcount : (Shape.ofExtents target.element extents target.isString).Countable) :
    convertExtents target (Shape.ofExtents target.element extents target.isString) v b mode =
      .ok (stored (Shape.ofExtents target.element extents target.isString) b) := by
  have hrank := Shape.rank_ofExtents target.element target.isString h.length_eq.symm hdims
  have hstored := ofBuffer_eq_ok_iff.mpr ⟨hb, (Shape.Settles.extents hdims h).known, rfl⟩
  unfold convertExtents
  rw [resolveExtents_self target.element target.isString h]
  dsimp only [bind, Except.bind]
  generalize Shape.ofExtents target.element extents target.isString = shape at *
  rw [Shape.resizeNeeded_self, if_pos (ResizeRule.sameSize_le _)]
  rcases hdims with hdims | hdims
  · have hvector := hrank.trans hdims
    rw [if_pos hvector, ← Shape.size_of_vector hvector, ← hb.size, Buffer.resizeVector_same]
    exact hstored
  · have hmatrix := hrank.trans hdims
    rw [if_neg (by rw [hmatrix]; decide),
      Buffer.resizeMatrix_same (hb.size.trans (Shape.size_of_countable hmatrix hcount)) hcount]
    exact hstored

/-- Between shapes with dimensions, a stored array is converted by its buffer. -/
theorem convertArray_stored (mode : Mode) (htarget : target.isEmptyArray = false)
    (hsource : source.isEmptyArray = false) (hb : source.Fits b) :
    convertArray target (stored source b) mode = convertStored target (stored source b) mode := by
  unfold convertArray
  show (if _ then _ else if source.isEmptyArray then _ else _) = _
  rw [if_neg (by simp [htarget]), if_neg (by simp [hsource]),
    if_neg (by simp [isSentinel_stored hb])]

/-- Between vectors, and between matrices, it is converted by its extents. -/
theorem convertStored_extents (mode : Mode) (b : Buffer)
    (hdims : target.rank = .vector ∨ target.rank = .matrix) (hrank : source.rank = target.rank) :
    convertStored target (stored source b) mode =
      mode.convertBuffer b target.element >>= fun c =>
        convertExtents target source (stored source b) c mode := by
  unfold convertStored
  show (mode.convertBuffer b target.element >>= _) = _
  rw [hrank]
  rcases hdims with hdims | hdims <;> rw [hdims]

/-- A stored array of a shape that the target settles on stays as it is. -/
theorem convertArray_self (h : target.Settles mode shape) (hb : shape.Fits b)
    (hcount : shape.Countable) :
    convertArray target (stored shape b) mode = .ok (stored shape b) := by
  have hempty : shape.isEmptyArray = false := by
    rw [Shape.isEmptyArray, h.rank]
    exact h.isEmptyArray
  have hbuffer : mode.convertBuffer b target.element = .ok b := by
    rw [← h.element, ← hb.kind, convertBuffer_self]
  rw [convertArray_stored mode h.isEmptyArray hempty hb]
  cases h with
  | scalar htarget =>
    unfold convertStored
    show (mode.convertBuffer b target.element >>= _) = _
    rw [hbuffer, htarget]
    exact ofBuffer_eq_ok_iff.mpr ⟨hb, rfl, rfl⟩
  | extents hdims hextents =>
    have hrank := Shape.Settles.rank (.extents hdims hextents)
    rw [convertStored_extents mode b hdims hrank, hbuffer]
    exact convertExtents_self _ hdims hextents hb hcount

/-! ## What an array is converted to -/

theorem settles_of_convertEmpty (hempty : target.isEmptyArray = false)
    (h : convertEmpty target mode = .ok w) :
    ∃ shape, target.Settles mode shape ∧ w.StoredAs shape := by
  unfold convertEmpty at h
  split at h
  · cases h
  · rename_i hscalar
    obtain ⟨extents, hextents, h⟩ := Result.bind_eq_ok_iff.mp h
    obtain ⟨buffer, -, h⟩ := Result.bind_eq_ok_iff.mp h
    exact ⟨_, .extents (Shape.rank_of_ne_scalar hempty hscalar)
      (settles_of_extentForEmpty hextents), storedAs_of_ofBuffer h⟩

/-- A scalar is spread over a target whose extents are all known. -/
theorem settles_of_convertScalar (hempty : target.isEmptyArray = false)
    (hscalar : target.rank ≠ .scalar) (h : convertScalar target b = .ok w) :
    ∃ shape, target.Settles mode shape ∧ w.StoredAs shape := by
  have hstored := storedAs_convertScalar h
  refine ⟨target, ?_, hstored⟩
  obtain ⟨filled, h⟩ := convertScalar_eq_ok h
  have hextents : List.Forall₂ mode.Settles target.extents target.extents :=
    settles_of_known (ofBuffer_eq_ok_iff.mp h).2.1
  have hsettles := Shape.Settles.extents (Shape.rank_of_ne_scalar hempty hscalar) hextents
  rwa [Shape.ofExtents_extents hempty] at hsettles

theorem settles_of_convertExtents (hdims : target.rank = .vector ∨ target.rank = .matrix)
    (h : convertExtents target source v b mode = .ok w) :
    ∃ shape, target.Settles mode shape ∧ w.StoredAs shape := by
  obtain ⟨extents, resized, hextents, -, -, h⟩ := convertExtents_eq_ok h
  exact ⟨_, .extents hdims (settles_of_resolveExtents hextents), storedAs_of_ofBuffer h⟩

theorem settles_of_convertStored (hempty : target.isEmptyArray = false)
    (h : convertStored target v mode = .ok w) :
    ∃ shape, target.Settles mode shape ∧ w.StoredAs shape := by
  unfold convertStored at h
  split at h
  · obtain ⟨buffer, -, h⟩ := Result.bind_eq_ok_iff.mp h
    split at h
    case h_1 _ htarget => exact ⟨_, .scalar htarget, storedAs_of_ofBuffer h⟩
    case h_2 hscalar => exact settles_of_convertScalar hempty hscalar h
    case h_3 _ htarget => exact settles_of_convertExtents (.inl htarget) h
    case h_4 _ htarget => exact settles_of_convertExtents (.inr htarget) h
    case h_5 => cases h
  · cases h

/-- **What comes of a target with dimensions** is stored under a shape that the target settles
on. -/
theorem settles_of_convertArray (hempty : target.isEmptyArray = false)
    (h : convertArray target v mode = .ok w) :
    ∃ shape, target.Settles mode shape ∧ w.StoredAs shape := by
  obtain ⟨source, -, ⟨hkind, -⟩ | ⟨-, -, h⟩ | ⟨x, -, -, h⟩⟩ := convertArray_cases h
  · rw [hempty] at hkind
    cases hkind
  · exact settles_of_convertEmpty hempty h
  · exact settles_of_convertStored hempty h

/-- A target without dimensions leaves the empty array as it is, and stores every other array. -/
theorem convertKind_eq_ok (h : convertKind target v mode = .ok w) :
    w = v ∨ ∃ (source : Shape) (b : Buffer), source.isEmptyArray = false ∧
      ofBuffer (source.withElement target.element) b = .ok w := by
  unfold convertKind at h
  split at h
  · cases h
  · rename_i source _
    split at h
    · exact .inl (Except.ok.inj h).symm
    · rename_i hempty
      dsimp only at h
      -- filled or not, what is left is converted by its buffer
      split at h
      all_goals
        obtain ⟨x, -, h⟩ := Result.bind_eq_ok_iff.mp h
        split at h
        · cases h
        · obtain ⟨buffer, -, h⟩ := Result.bind_eq_ok_iff.mp h
          exact .inr ⟨source, buffer, Bool.eq_false_iff.mpr hempty, h⟩

theorem convertKind_self (mode : Mode) (hempty : source.isEmptyArray = false)
    (h : ofBuffer (source.withElement target.element) b = .ok w) :
    convertKind target w mode = .ok w := by
  have hstored := h
  obtain ⟨hb, -, rfl⟩ := ofBuffer_eq_ok_iff.mp h
  have hagain : (source.withElement target.element).withElement target.element =
      source.withElement target.element := by simp [Shape.withElement]
  have hbuffer : mode.convertBuffer b target.element = .ok b := by
    rw [← show b.kind = target.element from hb.kind, convertBuffer_self]
  unfold convertKind
  show (if source.isEmptyArray then _ else _) = _
  rw [if_neg (by simp [hempty])]
  dsimp only
  rw [if_neg (by simp [isSentinel_stored hb])]
  show (mode.convertBuffer b target.element >>= ofBuffer _) = _
  rw [hbuffer, hagain]
  exact hstored

/-- What an array was converted to is converted to itself, if a word counts its elements. Where it is
not stored, it is the empty array, which a target without dimensions had left as it was. -/
theorem convertArray_convertArray (h : convertArray target v mode = .ok w) (hcount : w.Countable) :
    w = v ∨ ∃ shape, w.StoredAs shape ∧ convertArray target w mode = .ok w := by
  by_cases hempty : target.isEmptyArray = true
  · obtain ⟨source, -, ⟨-, h⟩ | ⟨hdims, -⟩ | ⟨x, hdims, -⟩⟩ := convertArray_cases h
    · refine (convertKind_eq_ok h).imp_right ?_
      rintro ⟨source, b, hsource, h⟩
      refine ⟨_, storedAs_of_ofBuffer h, ?_⟩
      have hself := convertKind_self mode hsource h
      obtain ⟨b, -, rfl⟩ := storedAs_of_ofBuffer h
      unfold convertArray
      show (if target.isEmptyArray then _ else _) = _
      rwa [if_pos hempty]
    · rw [hempty] at hdims
      cases hdims
    · rw [hempty] at hdims
      cases hdims
  · obtain ⟨shape, hsettles, b, hb, rfl⟩ :=
      settles_of_convertArray (Bool.eq_false_iff.mpr hempty) h
    exact .inr ⟨shape, ⟨b, hb, rfl⟩, convertArray_self hsettles hb (hcount.shape rfl)⟩

/-! ## Into any type -/

theorem promoteMixed_of_isMixed (h : v.isMixed = false) : v.promoteMixed = .ok v := by
  obtain ⟨type, payload⟩ := v
  cases payload with
  | mixed elements => cases h
  | _ => rfl

/-- Conversion begins with the promotion of literals. -/
theorem convert_promoted {type : ValueType} (mode : Mode) (htype : type.isStream = false)
    (hx : v.promoteMixed = .ok x) : convert type v mode = convert type x mode := by
  rcases promoteMixed_eq_ok hx with ⟨-, rfl⟩ | ⟨shape, elements, kind, rfl, -, hcases⟩
  · rfl
  · -- a literal that was promoted is an array still, and passes the same checks
    have hpasses {y : Value} {shape : Shape} (hy : y.type = .array shape) :
        ¬(y.type.isStream || y.type = .unknown || type.isStream) = true := by
      rw [hy, htype]
      exact Bool.false_ne_true
    have hchecks : x.isView = false ∧ ∃ shape, x.type = .array shape := by
      rcases hcases with ⟨-, rfl⟩ | ⟨b, -, rfl⟩
      · exact ⟨rfl, _, rfl⟩
      · exact ⟨rfl, _, rfl⟩
    obtain ⟨hview, shape', harray⟩ := hchecks
    unfold convert
    rw [if_neg nofun, if_neg (hpasses rfl), if_neg (by simp [hview]), if_neg (hpasses harray), hx,
      promoteMixed_of_isMixed (isMixed_of_promoteMixed hx)]

/-- What is converted can be promoted first. -/
theorem promoteMixed_of_convert {type : ValueType} (h : convert type v mode = .ok w) :
    type.isStream = false ∧ ∃ x, v.promoteMixed = .ok x := by
  unfold convert at h
  split at h
  · cases h
  · split at h
    · cases h
    · rename_i hchecks
      obtain ⟨x, hx, -⟩ := Result.bind_eq_ok_iff.mp h
      simp only [Bool.or_eq_true, not_or, Bool.not_eq_true] at hchecks
      exact ⟨hchecks.2, x, hx⟩

/-- An array that is neither a view nor mixed is converted as it is. -/
theorem convert_array (harray : w.type = .array source) (hview : w.isView = false)
    (hmixed : w.isMixed = false) (hinterval : w.interval? = none)
    (hbasic : target.element.isBasic = true) :
    convert (.array target) w mode = convertArray target w mode := by
  unfold convert
  rw [if_neg (by simp [hview]), if_neg (by rw [harray]; exact Bool.false_ne_true),
    promoteMixed_of_isMixed hmixed]
  show convertToArray target w mode = _
  unfold convertToArray
  rw [if_neg (by simp [hbasic]), hinterval]

theorem convert_storedAs (hstored : w.StoredAs shape) (hbasic : target.element.isBasic = true) :
    convert (.array target) w mode = convertArray target w mode := by
  obtain ⟨b, -, rfl⟩ := hstored
  exact convert_array rfl rfl rfl rfl hbasic

theorem storedAs_members (interval : Interval) :
    (members interval).StoredAs (Shape.vector .integer interval.toList.length) :=
  ⟨.integers interval.toList.toArray, ⟨rfl, rfl⟩, rfl⟩

/-- What was converted to any type but a tuple is converted to itself. -/
theorem convertPlain_again {type : ValueType} (htuple : type.isTuple = false)
    (h : convert type v mode = .ok w) (hcount : w.Countable) : convert type w mode = .ok w := by
  obtain ⟨htype, x, hx⟩ := promoteMixed_of_convert h
  rw [convert_promoted mode htype hx] at h
  obtain ⟨y, hy, hcases⟩ := convert_eq_ok htuple h
  rw [promoteMixed_of_isMixed (isMixed_of_promoteMixed hx)] at hy
  obtain rfl := Except.ok.inj hy
  rcases hcases with ⟨shape, rfl, harray⟩ | ⟨-, -, rfl⟩ | ⟨kind, -, -, -, rfl⟩
  · obtain ⟨hbasic, harray⟩ := convertToArray_eq_ok harray
    rcases convertArray_convertArray harray hcount with rfl | ⟨stored, hstored, hagain⟩
    · cases hinterval : x.interval? with
      | none =>
        rw [show x.widened = x by simp [widened, hinterval]] at h ⊢
        exact h
      | some interval =>
        rw [show x.widened = members interval by simp [widened, hinterval]] at harray ⊢
        rw [convert_storedAs (storedAs_members interval) hbasic, harray]
    · rw [convert_storedAs hstored hbasic, hagain]
  · exact h
  · exact h

/-- Fields that were converted are converted to themselves, if each of them is. -/
theorem convertFields_again {types : List (Option String × ValueType)}
    (htypes : ∀ pair ∈ types, ∀ {v w : Value}, convert pair.2 v mode = .ok w → w.Countable →
      convert pair.2 w mode = .ok w)
    {fields : List Value} (hlength : fields.length = types.length)
    {converted : List (Option String × Value)}
    (h : convertFields types fields mode = .ok converted)
    (hcount : ∀ pair ∈ converted, pair.2.Countable) :
    converted.length = types.length ∧
      convertFields types (converted.map Prod.snd) mode = .ok converted := by
  induction types generalizing fields converted with
  | nil =>
    obtain rfl := Except.ok.inj h
    exact ⟨rfl, rfl⟩
  | cons pair types ih =>
    obtain ⟨name, type⟩ := pair
    cases fields with
    | nil => cases hlength
    | cons x xs =>
      obtain ⟨field, rest, hfield, hrest, rfl⟩ := convertFields_cons h
      obtain ⟨hpair, hpairs⟩ := List.forall_mem_cons.mp htypes
      obtain ⟨hfirst, hothers⟩ := List.forall_mem_cons.mp hcount
      obtain ⟨hcount, hagain⟩ := ih hpairs (Nat.succ.inj hlength) hrest hothers
      refine ⟨congrArg Nat.succ hcount, ?_⟩
      rw [List.map_cons]
      unfold convertFields
      rw [hpair hfield hfirst, hagain]
      rfl

/-- **Conversion is idempotent**, whatever the type and the mode, if a word counts the elements of the
result: what a value was converted to is converted to itself, the type and the stored words with
it. -/
theorem convert_idempotent (target : ValueType) {v r : Value} {mode : Mode}
    (h : convert target v mode = .ok r) (hcount : r.Countable) : convert target r mode = .ok r := by
  match target with
  | .tuple types =>
    obtain ⟨x, fields, converted, -, -, hlength, hconverted, rfl⟩ := convert_tuple_eq_ok h
    have hfields : ∀ pair ∈ converted, pair.2.Countable := by
      intro pair hpair
      cases hcount with
      | tuple hall => exact hall _ (List.mem_map_of_mem hpair)
    obtain ⟨hcount, hagain⟩ := convertFields_again
      (fun pair hpair _ _ => convert_idempotent pair.2) hlength hconverted hfields
    unfold convert
    rw [if_neg nofun, if_neg nofun]
    show (if (converted.map Prod.snd).length ≠ types.length then _ else _) = _
    rw [if_neg (by simp [hcount]), hagain]
    rfl
  | .array shape => exact convertPlain_again rfl h hcount
  | .interval kind => exact convertPlain_again rfl h hcount
  | .input => exact convertPlain_again rfl h hcount
  | .output => exact convertPlain_again rfl h hcount
  | .unknown => exact convertPlain_again rfl h hcount
termination_by target
decreasing_by
  have hlt := List.sizeOf_lt_of_mem hpair
  obtain ⟨name, type⟩ := pair
  simp only [Prod.mk.sizeOf_spec, ValueType.tuple.sizeOf_spec] at hlt ⊢
  omega

/-- An interval, an identity and a literal are declared as a vector, a matrix and a text: the first
conversion finds an extent, fills a matrix and adds a zero, and the second has nothing to do. -/
theorem convert_idempotent_declared :
    let types : List (Option String × ValueType) :=
      [(some "members", .array (Shape.ofExtents .integer [none] false)),
        (none, .array (Shape.matrix .real 2 1)), (some "text", .array (Shape.string 3))]
    let fields : List Value :=
      [ofInterval ⟨2, 4, by decide⟩, identity,
        ⟨.array (Shape.vector .mixed 2), .mixed [.character 97, .null]⟩]
    let v : Value := ⟨.tuple (fields.map fun field => (none, field.type)), .tuple fields⟩
    let found := vector (.integers #[2, 3, 4])
    let filled := stored (Shape.matrix .real 2 1) (.reals #[Single.one, Single.one])
    let text := string [97, 0, 0]
    let r : Value :=
      ⟨.tuple [(some "members", found.type), (none, filled.type), (some "text", text.type)],
        .tuple [found, filled, text]⟩
    convert (.tuple types) v .declaration = .ok r ∧ r.Countable ∧
      convert (.tuple types) r .declaration = .ok r := by
  intro types fields v found filled text r
  have h : convert (.tuple types) v .declaration = .ok r := rfl
  have hcount : r.Countable := by
    refine ValueType.Countable.tuple fun field hfield => ?_
    simp only [List.mem_cons, List.not_mem_nil, or_false] at hfield
    obtain rfl | rfl | rfl := hfield
    all_goals exact .array (by decide)
  exact ⟨h, hcount, convert_idempotent (.tuple types) h hcount⟩

/-- Rows and columns whose product comes around to zero. A scalar is spread over no elements, and
then there is none to put in the first place. -/
theorem convert_not_idempotent :
    let wide := stored (Shape.matrix .integer 4294967296 4294967296) (.integers #[])
    (integer 5).WellFormed ∧
      convert (.array (Shape.matrix .integer 4294967296 4294967296)) (integer 5) .promotion =
        .ok wide ∧
      ∀ w, convert (.array (Shape.matrix .integer 4294967296 4294967296)) wide .promotion ≠
        .ok w := by
  intro wide
  refine ⟨.stored ⟨rfl, rfl⟩ rfl, rfl, fun w hw => ?_⟩
  have hb : (Shape.matrix .integer 4294967296 4294967296).Fits (.integers #[]) := ⟨rfl, rfl⟩
  rw [convert_storedAs ⟨_, hb, rfl⟩ rfl, convertArray_stored .promotion rfl rfl hb,
    convertStored_extents .promotion _ (.inr rfl) rfl] at hw
  obtain ⟨c, hc, hw⟩ := Result.bind_eq_ok_iff.mp hw
  obtain rfl := Except.ok.inj hc
  obtain ⟨extents, resized, hextents, -, hresized, -⟩ := convertExtents_eq_ok hw
  obtain rfl := Except.ok.inj hextents
  exact absurd (Buffer.countable_of_resizeMatrix rfl hresized) (by decide)

end Value

end ArrayMachine
