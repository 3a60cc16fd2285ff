import ArrayMachine.Proofs.Operators.Operands

/-!
# Rows of operands

Concatenation promotes its operands, fills null and identity ones, and treats the empty array on its
own, all at the moment it applies. So two groupings of three operands promote and fill at different
moments. What any of them gives is one and the same row of all operands (`Value.Joins`): its kind is
where all kinds that are lent meet, its elements are those of the operands promoted at once, and it
is empty only if they all are. A row that has been joined before counts as what it was joined from.

* `Element.PromoteLike`: elements that promote wherever others do.
* `WellFormed.promotesTo_row`: an operand, as the array it stands for, has the same elements.
* `Joins.unique`: operands are joined to one row, up to the text flag of scalars beside the empty
  array.
* `Joins.flatten`: joining what has been joined.
-/

namespace ArrayMachine

/-! ## Elements -/

namespace Element

variable {k : Kind} {es fs gs : List Element}

/-- Elements that promote wherever others do, to the same. -/
def PromoteLike (es fs : List Element) : Prop :=
  ∀ k gs, fs.mapM (promote k) = .ok gs → es.mapM (promote k) = .ok gs

theorem PromoteLike.refl (es : List Element) : PromoteLike es es := fun _ _ h => h

theorem PromoteLike.trans (h : PromoteLike es fs) (h' : PromoteLike fs gs) : PromoteLike es gs :=
  fun k ps hps => h k ps (h' k ps hps)

/-- Elements promote like what they have been promoted to. -/
theorem promoteLike_of_mapM (h : es.mapM (promote k) = .ok fs) : PromoteLike es fs := by
  intro l gs hgs
  have hlength := Result.length_of_mapM h
  have hlength' := Result.length_of_mapM hgs
  rw [Result.mapM_eq_ok_iff]
  refine List.ext_getElem (by simp; omega) fun i hi hi' => ?_
  rw [List.length_map] at hi hi'
  rw [List.getElem_map, List.getElem_map]
  exact promote_trans (Result.getElem_of_mapM h hi (by omega))
    (Result.getElem_of_mapM hgs (by omega) hi')

theorem mapM_append_eq_ok_iff {f : Element → Result Element} :
    (es ++ fs).mapM f = .ok gs ↔
      ∃ ps qs, es.mapM f = .ok ps ∧ fs.mapM f = .ok qs ∧ gs = ps ++ qs := by
  simp only [Result.mapM_eq_ok_iff, List.map_append]
  constructor
  · intro h
    obtain ⟨ps, qs, rfl, hps, hqs⟩ := List.map_eq_append_iff.mp h.symm
    exact ⟨ps, qs, hps.symm, hqs.symm, rfl⟩
  · rintro ⟨ps, qs, hps, hqs, rfl⟩
    rw [hps, hqs, List.map_append]

theorem PromoteLike.append {es' fs' : List Element} (h : PromoteLike es fs)
    (h' : PromoteLike es' fs') : PromoteLike (es ++ es') (fs ++ fs') := by
  intro k gs hgs
  obtain ⟨ps, qs, hps, hqs, rfl⟩ := mapM_append_eq_ok_iff.mp hgs
  exact mapM_append_eq_ok_iff.mpr ⟨ps, qs, h k ps hps, h' k qs hqs, rfl⟩

end Element

namespace Value

variable {a b c u v w w' x y z : Value} {vs : List Value} {s t : Shape} {p q : Buffer} {k : Kind}

/-! ## Operands as arrays -/

/-- An operand as the array it stands for: a literal promoted, an interval as the vector of its
members. -/
def row (v : Value) : Result Value := widened <$> v.promoteMixed

/-- A well-formed array that is no literal. -/
structure IsArray (v : Value) : Prop where
  wellFormed : v.WellFormed
  isMixed : v.isMixed = false
  shape : ∃ s, v.shape? = some s

/-- The elements of a value, none if it has none. -/
def listed (v : Value) : List Element := v.elements.toOption.getD []

theorem listed_of_elements {es : List Element} (h : v.elements = .ok es) : v.listed = es := by
  unfold listed
  rw [h]
  rfl

theorem listed_stored (h : s.Fits p) : (stored s p).listed = p.elements :=
  listed_of_elements (elements_stored h)

/-- There are no elements in the empty array. -/
theorem IsArray.elements_of_isEmptyArray (hv : v.IsArray) (h : v.isEmptyArray = true) :
    v.elements = .ok [] := by
  obtain ⟨s, hs⟩ := hv.shape
  have hsize : s.size = 0 := Shape.size_of_isEmptyArray (isEmptyArray_eq hs ▸ h)
  obtain ⟨es, hes, hlength⟩ := hv.wellFormed.exists_elements (hv.wellFormed.length_eq hs)
  rw [hes, List.eq_nil_of_length_eq_zero (hlength.trans hsize)]

/-- An array has all its elements. -/
theorem IsArray.elements_eq (hv : v.IsArray) : v.elements = .ok v.listed := by
  obtain ⟨s, hs⟩ := hv.shape
  obtain ⟨es, hes, -⟩ := hv.wellFormed.exists_elements (hv.wellFormed.length_eq hs)
  rw [hes, listed_of_elements hes]

/-- What is promoted element by element has elements, which the array's promote like. -/
theorem PromotesTo.exists_elements (h : v.PromotesTo w) (hw : w.elements = .ok w.listed) :
    ∃ es, v.elements = .ok es ∧ Element.PromoteLike es w.listed := by
  obtain ⟨hlength, hread⟩ := elements_eq_ok_iff.mp hw
  obtain ⟨es, hes⟩ : ∃ es, v.elements = .ok es := by
    unfold elements
    rw [← h.length, hlength]
    refine Result.exists_mapM_eq_ok fun pos hpos => ?_
    obtain ⟨e, -, he, -⟩ := h.element (hread pos (List.mem_range.mp hpos))
    exact ⟨e, he⟩
  obtain ⟨hcount, hread'⟩ := elements_eq_ok_iff.mp hes
  have hcount : es.length = w.listed.length :=
    Except.ok.inj (hcount.symm.trans (h.length.symm.trans hlength))
  refine ⟨es, hes, fun k gs hgs => ?_⟩
  have hlong := Result.length_of_mapM hgs
  rw [Result.mapM_eq_ok_iff]
  refine List.ext_getElem (by simp; omega) fun i hi hi' => ?_
  rw [List.length_map] at hi hi'
  rw [List.getElem_map, List.getElem_map]
  obtain ⟨e, j, he, hpromote⟩ := h.element (hread i (by omega))
  obtain rfl := Except.ok.inj (he.symm.trans (hread' i hi))
  exact Element.promote_trans hpromote (Result.getElem_of_mapM hgs (by omega) hi')

/-- **An operand, as the array it stands for, has the elements it has**, promoted. -/
theorem WellFormed.promotesTo_row (hv : v.WellFormed) (h : v.row = .ok x) : v.PromotesTo x := by
  obtain ⟨y, hy, rfl⟩ := Result.map_eq_ok_iff.mp h
  have hpromoted : v.PromotesTo y := by
    rcases promoteMixed_eq_ok hy with ⟨-, rfl⟩ | ⟨shape, elements, kind, rfl, -⟩
    · exact .refl _
    · cases hv with
      | mixed _ _ hsize => exact promotesTo_promoteMixed (.mixed hsize) hy
  refine hpromoted.trans ⟨length_widened y, fun {pos f} hf => ?_⟩
  rw [element_widened] at hf
  exact ⟨f, f.kind, hf, Element.promote_of_kind rfl⟩

/-! ## Joined rows -/

/-- An array that is not empty and carries the text flag. -/
def isText (v : Value) : Bool := !v.isEmptyArray && (v.shape?.map Shape.isString).getD false

/-- No scalar is a text beside the empty array. -/
def Plain (vs : List Value) : Prop :=
  (∀ v ∈ vs, v.isEmptyArray = false) ∨ ∀ v ∈ vs, v.rank? = some .scalar → v.isText = false

/-- The text flag of a row: that of its only operand that is not empty, or else whether there is a
text among its operands and the row is one of characters. -/
def textOf (vs : List Value) (k : Kind) : Bool :=
  vs.any isText && (k = .character || vs.countP (!·.isEmptyArray) = 1)

/-- One operand lends the kind, and the kinds that the others lend promote to it. -/
structure MeetAt (vs : List Value) (k : Kind) : Prop where
  lent : ∃ v ∈ vs, v.basicKind = .ok k
  promotes : ∀ v ∈ vs, ∀ j, v.basicKind = .ok j → j.promotesTo k = true

/-- **The row of operands**: the empty array if they are all empty, or else the vector of their
elements, promoted to the kind at which they meet. -/
inductive Joins (vs : List Value) : Value → Prop where
  | empty : (∀ v ∈ vs, v.isEmptyArray = true) → Joins vs emptyArray
  | row {flag : Bool} {c : Buffer} : MeetAt vs c.kind →
    (vs.flatMap listed).mapM (Element.promote c.kind) = .ok c.elements →
    (Plain vs → flag = textOf vs c.kind) →
    Joins vs (stored (Shape.ofExtents c.kind [some c.length] flag) c)

theorem basicKind_eq_ok (h : v.basicKind = .ok k) : v.isEmptyArray = false ∧ k.isBasic = true := by
  unfold basicKind at h
  obtain ⟨s, hs, h⟩ := Result.bind_eq_ok_iff.mp h
  rw [isEmptyArray_eq (shape?_of_arrayShape hs)]
  split at h
  · cases h
  · rename_i hready
    obtain rfl := Except.ok.inj h
    simpa using hready

theorem kind?_of_basicKind (h : v.basicKind = .ok k) : v.kind? = some k := by
  unfold basicKind at h
  obtain ⟨s, hs, h⟩ := Result.bind_eq_ok_iff.mp h
  split at h
  · cases h
  · obtain rfl := Except.ok.inj h
    unfold kind?
    rw [shape?_of_arrayShape hs]
    rfl

/-- Null and identity arrays have no kind to lend. -/
theorem basicKind_of_isSentinel (h : v.isSentinel = true) : v.basicKind ≠ .ok k := by
  intro hk
  have hbasic := (basicKind_eq_ok hk).2
  unfold isSentinel at h
  rw [kind?_of_basicKind hk] at h
  cases k <;> simp_all [Kind.isBasic, Kind.isSentinel]

theorem MeetAt.unique {j : Kind} (h : MeetAt vs j) (h' : MeetAt vs k) : j = k := by
  obtain ⟨u, hu, hj⟩ := h.lent
  obtain ⟨v, hv, hk⟩ := h'.lent
  exact Kind.promotesTo_antisymm (h'.promotes u hu j hj) (h.promotes v hv k hk)

/-- **Operands are joined to one row**, up to the text flag where a scalar is a text beside the empty
array. -/
theorem Joins.unique (h : Joins vs w) (h' : Joins vs w') :
    (w = w' ∨ ∃ flag flag' c, w = stored (Shape.ofExtents c.kind [some c.length] flag) c ∧
      w' = stored (Shape.ofExtents c.kind [some c.length] flag') c) ∧ (Plain vs → w = w') := by
  have hlent {k : Kind} (hempty : ∀ v ∈ vs, v.isEmptyArray = true) : ¬MeetAt vs k := by
    intro hmeet
    obtain ⟨v, hv, hk⟩ := hmeet.lent
    cases (hempty v hv).symm.trans (basicKind_eq_ok hk).1
  cases h with
  | empty hempty =>
    cases h' with
    | empty _ => exact ⟨.inl rfl, fun _ => rfl⟩
    | row hmeet => exact absurd hmeet (hlent hempty)
  | @row flag c hmeet hc hflag =>
    cases h' with
    | empty hempty => exact absurd hmeet (hlent hempty)
    | @row flag' d hmeet' hd hflag' =>
      have hkind := hmeet.unique hmeet'
      rw [hkind] at hc
      obtain rfl : c = d := Buffer.ext_elements hkind (Except.ok.inj (hc.symm.trans hd))
      exact ⟨.inr ⟨flag, flag', c, rfl, rfl⟩, fun hplain => by rw [hflag hplain, hflag' hplain]⟩

/-! ## Rows of rows -/

variable {pre us post : List Value}

theorem basicKind_row (flag : Bool) (c : Buffer) :
    (stored (Shape.ofExtents c.kind [some c.length] flag) c).basicKind = .ok c.kind := by
  show (if false || !c.kind.isBasic then _ else Except.ok c.kind) = _
  rw [c.isBasic_kind]
  rfl

/-- A row is empty if all its operands are, and else lends the kind at which they meet. -/
theorem Joins.cases (h : Joins us x) :
    (x.isEmptyArray = true ∧ ∀ v ∈ us, v.isEmptyArray = true) ∨
      (x.isEmptyArray = false ∧ ∃ k, x.basicKind = .ok k ∧ MeetAt us k) := by
  cases h with
  | empty hempty => exact .inl ⟨rfl, hempty⟩
  | @row flag c hmeet _ _ =>
    exact .inr ⟨rfl, c.kind, basicKind_row flag c, hmeet⟩

/-- What operands lend, their row lends for them. -/
theorem MeetAt.flatten (hx : Joins us x) (h : MeetAt (pre ++ x :: post) k) :
    MeetAt (pre ++ us ++ post) k := by
  constructor
  · obtain ⟨v, hv, hk⟩ := h.lent
    simp only [List.mem_append, List.mem_cons] at hv ⊢
    rcases hv with hv | rfl | hv
    · exact ⟨v, .inl (.inl hv), hk⟩
    · rcases hx.cases with ⟨hempty, -⟩ | ⟨-, j, hj, hmeet⟩
      · cases hempty.symm.trans (basicKind_eq_ok hk).1
      · obtain rfl := Except.ok.inj (hj.symm.trans hk)
        obtain ⟨u, hu, hlent⟩ := hmeet.lent
        exact ⟨u, .inl (.inr hu), hlent⟩
    · exact ⟨v, .inr hv, hk⟩
  · intro v hv j hj
    simp only [List.mem_append] at hv
    rcases hv with (hv | hv) | hv
    · exact h.promotes v (by simp [hv]) j hj
    · rcases hx.cases with ⟨-, hempty⟩ | ⟨-, i, hi, hmeet⟩
      · cases (hempty v hv).symm.trans (basicKind_eq_ok hj).1
      · exact Kind.promotesTo_trans (hmeet.promotes v hv j hj) (h.promotes x (by simp) i hi)
    · exact h.promotes v (by simp [hv]) j hj

theorem listed_of_empty (harrays : ∀ v ∈ vs, v.IsArray) (hempty : ∀ v ∈ vs, v.isEmptyArray = true) :
    vs.flatMap listed = [] :=
  List.flatMap_eq_nil_iff.mpr fun v hv =>
    listed_of_elements ((harrays v hv).elements_of_isEmptyArray (hempty v hv))

/-- Operands have elements that promote like those of their row. -/
theorem Joins.promoteLike (harrays : ∀ v ∈ us, v.IsArray) (h : Joins us x) :
    Element.PromoteLike (us.flatMap listed) x.listed := by
  cases h with
  | empty hempty =>
    rw [listed_of_empty harrays hempty]
    exact .refl []
  | row _ hc _ =>
    rw [listed_stored ⟨rfl, rfl⟩]
    exact Element.promoteLike_of_mapM hc

/-- No scalar of a row is a text, since a row is a vector or empty. -/
theorem Joins.plain (hus : us ≠ []) (hx : Joins us x) (h : Plain (pre ++ us ++ post)) :
    Plain us ∧ Plain (pre ++ x :: post) := by
  have hvector : x.rank? = some .scalar → x.isText = false := by
    cases hx <;> nofun
  rcases h with h | h
  · refine ⟨.inl fun v hv => h v (by simp [hv]), .inl fun v hv => ?_⟩
    simp only [List.mem_append, List.mem_cons] at hv
    rcases hv with hv | rfl | hv
    · exact h v (by simp [hv])
    · rcases hx.cases with ⟨-, hempty⟩ | ⟨hempty, -⟩
      · obtain ⟨u, hu⟩ := List.exists_mem_of_ne_nil us hus
        cases (hempty u hu).symm.trans (h u (by simp [hu]))
      · exact hempty
    · exact h v (by simp [hv])
  · refine ⟨.inr fun v hv => h v (by simp [hv]), .inr fun v hv => ?_⟩
    simp only [List.mem_append, List.mem_cons] at hv
    rcases hv with hv | rfl | hv
    · exact h v (by simp [hv])
    · exact hvector
    · exact h v (by simp [hv])

theorem countP_of_isText (h : vs.any isText = true) : 0 < vs.countP (!·.isEmptyArray) := by
  obtain ⟨v, hv, htext⟩ := List.any_eq_true.mp h
  exact List.countP_pos_iff.mpr ⟨v, hv, (Bool.and_eq_true_iff.mp htext).1⟩

theorem isText_of_empty (h : ∀ v ∈ vs, v.isEmptyArray = true) :
    vs.any isText = false ∧ vs.countP (!·.isEmptyArray) = 0 :=
  ⟨List.any_eq_false.mpr fun v hv => by simp [isText, h v hv],
    List.countP_eq_zero.mpr fun v hv => by simp [h v hv]⟩

theorem textOf_empty (hempty : ∀ v ∈ us, v.isEmptyArray = true) :
    textOf (pre ++ us ++ post) k = textOf (pre ++ emptyArray :: post) k := by
  obtain ⟨htext, hcount⟩ := isText_of_empty hempty
  have hself : isText emptyArray = false := rfl
  have hself' : isEmptyArray emptyArray = true := rfl
  simp [textOf, htext, hcount, hself, hself']

/-- The text flag of a row of rows. -/
theorem MeetAt.textOf_flatten {j : Kind} (hinner : MeetAt us j) (hkind : x.basicKind = .ok j)
    (htext : x.isText = textOf us j) (hmeet : MeetAt (pre ++ x :: post) k) :
    textOf (pre ++ us ++ post) k = textOf (pre ++ x :: post) k := by
  obtain ⟨hself, hbasic⟩ := basicKind_eq_ok hkind
  have hsome : 0 < us.countP (!·.isEmptyArray) := by
    obtain ⟨u, hu, hlent⟩ := hinner.lent
    exact List.countP_pos_iff.mpr ⟨u, hu, by simp [(basicKind_eq_ok hlent).1]⟩
  have hcharacter (hk : k = .character) : j = .character :=
    Kind.eq_character_of_promotesTo hbasic (hk ▸ hmeet.promotes x (by simp) j hkind)
  simp only [textOf, List.any_append, List.any_cons, List.countP_append, List.countP_cons, hself,
    htext]
  by_cases hk : k = .character
  · simp [hk, hcharacter hk, Bool.or_assoc]
  · by_cases hsole : pre.countP (!·.isEmptyArray) = 0 ∧ post.countP (!·.isEmptyArray) = 0
    · -- there is nothing beside the inner row, so its kind is the kind of the outer one
      obtain ⟨hpre, hpost⟩ := hsole
      have hsame : j = k := by
        obtain ⟨v, hv, hlent⟩ := hmeet.lent
        have hnonempty := (basicKind_eq_ok hlent).1
        simp only [List.mem_append, List.mem_cons] at hv
        rcases hv with hv | rfl | hv
        · have := List.countP_eq_zero.mp hpre v hv
          simp [hnonempty] at this
        · exact Except.ok.inj (hkind.symm.trans hlent)
        · have := List.countP_eq_zero.mp hpost v hv
          simp [hnonempty] at this
      have hpretext : pre.any isText = false :=
        Bool.eq_false_iff.mpr fun h => absurd (countP_of_isText h) (by omega)
      have hposttext : post.any isText = false :=
        Bool.eq_false_iff.mpr fun h => absurd (countP_of_isText h) (by omega)
      simp [hpre, hpost, hpretext, hposttext, hsame, hk]
    · have hmany : ¬(pre.countP (!·.isEmptyArray) + us.countP (!·.isEmptyArray) +
          post.countP (!·.isEmptyArray) = 1) := by omega
      have hmany' : ¬(pre.countP (!·.isEmptyArray) + (post.countP (!·.isEmptyArray) + 1) = 1) := by
        omega
      simp [hk, hmany, hmany']

theorem Joins.textOf_flatten (hx : Joins us x) (hplain : Plain us)
    (hmeet : MeetAt (pre ++ x :: post) k) :
    textOf (pre ++ us ++ post) k = textOf (pre ++ x :: post) k := by
  cases hx with
  | empty hempty => exact textOf_empty hempty
  | @row flag c hinner hc hflag =>
    refine hinner.textOf_flatten (basicKind_row flag c) ?_ hmeet
    rw [← hflag hplain]
    exact Bool.true_and flag

/-- **Joining what has been joined** is joining all of it at once. -/
theorem Joins.flatten (pre post : List Value) (hus : us ≠ []) (harrays : ∀ v ∈ us, v.IsArray)
    (hx : Joins us x) (h : Joins (pre ++ x :: post) w) : Joins (pre ++ us ++ post) w := by
  cases h with
  | empty hempty =>
    refine .empty fun v hv => ?_
    simp only [List.mem_append] at hv
    rcases hv with (hv | hv) | hv
    · exact hempty v (by simp [hv])
    · rcases hx.cases with ⟨-, hempty'⟩ | ⟨hself, -⟩
      · exact hempty' v hv
      · cases hself.symm.trans (hempty x (by simp))
    · exact hempty v (by simp [hv])
  | row hmeet hc hflag =>
    refine .row (hmeet.flatten hx) ?_ fun hplain => ?_
    · have hlike : Element.PromoteLike ((pre ++ us ++ post).flatMap listed)
          ((pre ++ x :: post).flatMap listed) := by
        rw [List.flatMap_append, List.flatMap_append, List.flatMap_append, List.flatMap_cons,
          List.append_assoc]
        exact (Element.PromoteLike.refl _).append ((hx.promoteLike harrays).append (.refl _))
      exact hlike _ _ hc
    · obtain ⟨hinner, houter⟩ := hx.plain hus hplain
      rw [hflag houter, hx.textOf_flatten hinner hmeet]

end Value

end ArrayMachine
