import ArrayMachine.Buffer

/-!
# Where kinds and elements meet

Promotion orders the kinds, and two basic kinds meet at the least kind that both promote to, if
there is one. The elements of a literal are met one after the other, from the left. What is found in
this way is nonetheless the least kind that all of them promote to (`Kind.IsJoin`), so it does not
depend on their order, and nulls and identities may stand anywhere between them.

* `Kind.promotesTo_common?_iff`: two kinds.
* `Kind.foldlM_common?_eq_some_iff`: any number of basic kinds, in any order.
* `Buffer.commonKind?_eq_some_iff`: the elements of a literal.
* `Buffer.commonKind?_least`: the same with all cases, and for the elements in another order.
-/

namespace ArrayMachine

namespace Kind

variable {j k l first : Kind} {js ks rest : List Kind}

theorem isSentinel_iff : k.isSentinel = true ↔ k = .null ∨ k = .identity := by
  cases k <;> simp [isSentinel]

/-! ## Promotion as an order -/

theorem promotesTo_trans (h : j.promotesTo k = true) (h' : k.promotesTo l = true) :
    j.promotesTo l = true := by
  -- most of the first two kinds do not promote, and the third is only looked at for the others
  cases j <;> cases k <;> first
    | exact absurd h Bool.false_ne_true
    | cases l <;> first | rfl | exact absurd h' Bool.false_ne_true

/-- Promotion goes one way. -/
theorem promotesTo_antisymm (h : j.promotesTo k = true) (h' : k.promotesTo j = true) : j = k := by
  cases j <;> cases k <;> first
    | rfl
    | exact absurd h Bool.false_ne_true
    | exact absurd h' Bool.false_ne_true

theorem eq_character_of_promotesTo (hk : k.isBasic = true) (h : k.promotesTo .character = true) :
    k = .character := by
  cases k <;> first | rfl | exact absurd hk Bool.false_ne_true | exact absurd h Bool.false_ne_true

/-- What stored elements promote to is stored. -/
theorem isBasic_of_promotesTo (hj : j.isBasic = true) (h : j.promotesTo k = true) :
    k.isBasic = true := by
  cases j <;> cases k <;> first
    | rfl
    | exact absurd hj Bool.false_ne_true
    | exact absurd h Bool.false_ne_true

/-- Nulls and identities stand for elements of every basic kind. -/
theorem promotesTo_of_isSentinel (hj : j.isSentinel = true) (hk : k.isBasic = true) :
    j.promotesTo k = true := by
  cases j <;> cases k <;> first
    | rfl
    | exact absurd hj Bool.false_ne_true
    | exact absurd hk Bool.false_ne_true

/-! ## Two kinds -/

theorem common?_eq_some (h : j.common? k = some l) : l = j ∨ l = k := by
  unfold common? at h
  split at h
  · exact .inl (Option.some.inj h).symm
  · split at h
    · exact .inr (Option.some.inj h).symm
    · cases h

/-- Kinds that meet are both promoted to the kind they meet at. -/
theorem promotesTo_common? (hj : j.isBasic = true) (hk : k.isBasic = true)
    (h : j.common? k = some l) :
    l.isBasic = true ∧ j.promotesTo l = true ∧ k.promotesTo l = true := by
  unfold common? at h
  split at h
  · rename_i hpromotes
    obtain rfl := Option.some.inj h
    exact ⟨hj, promotesTo_self (by rintro rfl; cases hj), hpromotes⟩
  · split at h
    · rename_i hpromotes
      obtain rfl := Option.some.inj h
      exact ⟨hk, hpromotes, promotesTo_self (by rintro rfl; cases hk)⟩
    · cases h

/-- **Two basic kinds meet at the least kind** that both promote to. -/
theorem promotesTo_common?_iff (hj : j.isBasic = true) (hk : k.isBasic = true)
    (h : j.common? k = some l) (m : Kind) :
    l.promotesTo m = true ↔ j.promotesTo m = true ∧ k.promotesTo m = true := by
  obtain ⟨-, hjl, hkl⟩ := promotesTo_common? hj hk h
  constructor
  · intro hm
    exact ⟨promotesTo_trans hjl hm, promotesTo_trans hkl hm⟩
  · rintro ⟨hjm, hkm⟩
    rcases common?_eq_some h with rfl | rfl
    · exact hjm
    · exact hkm

/-- Two basic kinds that promote to one kind meet. -/
theorem exists_common? (hj : j.isBasic = true) (hk : k.isBasic = true)
    (hjl : j.promotesTo l = true) (hkl : k.promotesTo l = true) : ∃ m, j.common? k = some m := by
  cases j <;> cases k <;> first
    | exact ⟨_, rfl⟩
    | exact absurd hj Bool.false_ne_true
    | exact absurd hk Bool.false_ne_true
    | cases l <;> first
      | exact absurd hjl Bool.false_ne_true
      | exact absurd hkl Bool.false_ne_true

/-! ## Any number of kinds -/

/-- The least kind that all of the kinds promote to. -/
structure IsJoin (ks : List Kind) (k : Kind) : Prop where
  promotes : ∀ j ∈ ks, j.promotesTo k = true
  least : ∀ l, (∀ j ∈ ks, j.promotesTo l = true) → k.promotesTo l = true

/-- Kinds that are bounded alike have the same join. -/
theorem isJoin_congr
    (h : ∀ l, (∀ j ∈ ks, j.promotesTo l = true) ↔ ∀ j ∈ js, j.promotesTo l = true) :
    IsJoin ks k ↔ IsJoin js k := by
  constructor
  · intro hjoin
    exact ⟨(h k).mp hjoin.promotes, fun l hl => hjoin.least l ((h l).mpr hl)⟩
  · intro hjoin
    exact ⟨(h k).mpr hjoin.promotes, fun l hl => hjoin.least l ((h l).mp hl)⟩

theorem isJoin_singleton (hk : first.isBasic = true) : IsJoin [first] k ↔ first = k := by
  have hself : first.promotesTo first = true := promotesTo_self (by rintro rfl; cases hk)
  constructor
  · intro h
    exact promotesTo_antisymm (h.promotes first (by simp)) (h.least first (by simpa using hself))
  · rintro rfl
    exact ⟨by simpa using hself, fun l hl => hl first (by simp)⟩

/-- Two kinds that meet are bounded by what the kind they meet at is bounded by. -/
theorem forall_mem_cons_common? {next met : Kind} (hfirst : first.isBasic = true)
    (hnext : next.isBasic = true) (h : first.common? next = some met) (l : Kind) :
    (∀ j ∈ met :: rest, j.promotesTo l = true) ↔
      ∀ j ∈ first :: next :: rest, j.promotesTo l = true := by
  rw [List.forall_mem_cons, List.forall_mem_cons, List.forall_mem_cons,
    promotesTo_common?_iff hfirst hnext h, and_assoc]

/-- **Basic kinds met one after the other** meet at their join, if they have one. -/
theorem foldlM_common?_eq_some_iff (hfirst : first.isBasic = true)
    (hrest : ∀ j ∈ rest, j.isBasic = true) :
    rest.foldlM common? first = some k ↔ IsJoin (first :: rest) k := by
  induction rest generalizing first with
  | nil =>
    rw [isJoin_singleton hfirst]
    exact Option.some_inj
  | cons next rest ih =>
    have hnext : next.isBasic = true := hrest next List.mem_cons_self
    have hrest' : ∀ j ∈ rest, j.isBasic = true := fun j hj => hrest j (List.mem_cons_of_mem next hj)
    have hmeet {met : Kind} (hmet : first.common? next = some met) :
        rest.foldlM common? met = some k ↔ IsJoin (first :: next :: rest) k :=
      (ih (promotesTo_common? hfirst hnext hmet).1 hrest').trans
        (isJoin_congr (forall_mem_cons_common? hfirst hnext hmet))
    rw [List.foldlM_cons]
    constructor
    · intro h
      obtain ⟨met, hmet, h⟩ := Option.bind_eq_some_iff.mp h
      exact (hmeet hmet).mp h
    · intro hjoin
      obtain ⟨met, hmet⟩ := exists_common? hfirst hnext (hjoin.promotes first (by simp))
        (hjoin.promotes next (by simp))
      exact Option.bind_eq_some_iff.mpr ⟨met, hmet, (hmeet hmet).mpr hjoin⟩

/-! ## Null and identity among them -/

/-- The kind that kinds have in common: their join if one of them is basic, and null or identity if
they are all of that kind. -/
inductive IsCommon (ks : List Kind) (k : Kind) : Prop where
  | join : (∃ j ∈ ks, j.isBasic = true) → IsJoin ks k → IsCommon ks k
  | alike : k ∈ ks → k.isSentinel = true → (∀ j ∈ ks, j = k) → IsCommon ks k

/-- Next to a basic kind, null and identity do not change what kinds promote to. -/
theorem forall_mem_filter_isSentinel (h : ∃ j ∈ ks, j.isBasic = true) (l : Kind) :
    (∀ j ∈ ks.filter (!·.isSentinel), j.promotesTo l = true) ↔
      ∀ j ∈ ks, j.promotesTo l = true := by
  constructor
  · intro hall j hj
    by_cases hsentinel : j.isSentinel = true
    · obtain ⟨i, hi, hbasic⟩ := h
      have hstays : i.isSentinel = false := by cases i <;> first | rfl | cases hbasic
      have hil := hall i (List.mem_filter.mpr ⟨hi, by simp [hstays]⟩)
      exact promotesTo_of_isSentinel hsentinel (isBasic_of_promotesTo hbasic hil)
    · exact hall j (List.mem_filter.mpr ⟨hj, by simpa using hsentinel⟩)
  · intro hall j hj
    exact hall j (List.mem_filter.mp hj).1

/-- Kinds that occur among both have the same kind in common. -/
theorem isCommon_congr (h : ∀ j, j ∈ ks ↔ j ∈ js) : IsCommon ks k ↔ IsCommon js k := by
  have hjoin : IsJoin ks k ↔ IsJoin js k := isJoin_congr fun l => by simp only [h]
  constructor
  · rintro (⟨hbasic, hk⟩ | ⟨hmem, hsentinel, hall⟩)
    · exact .join (by simpa only [h] using hbasic) (hjoin.mp hk)
    · exact .alike ((h k).mp hmem) hsentinel (by simpa only [h] using hall)
  · rintro (⟨hbasic, hk⟩ | ⟨hmem, hsentinel, hall⟩)
    · exact .join (by simpa only [h] using hbasic) (hjoin.mpr hk)
    · exact .alike ((h k).mpr hmem) hsentinel (by simpa only [h] using hall)

end Kind

/-! ## The elements of a literal -/

namespace Element

variable {e : Element}

theorem kind_eq_null_iff : e.kind = .null ↔ e = .null := by
  cases e <;> simp [kind]

theorem kind_eq_identity_iff : e.kind = .identity ↔ e = .identity := by
  cases e <;> simp [kind]

theorem isBasic_or_isSentinel (e : Element) : e.kind.isBasic = true ∨ e.kind.isSentinel = true := by
  cases e <;> simp [kind, Kind.isBasic, Kind.isSentinel]

end Element

namespace Buffer

variable {es fs : List Element} {k : Kind}

/-- Elements some of which are stored meet at the join of their kinds. -/
theorem commonKind?_of_isBasic (h : ∃ j ∈ es.map Element.kind, j.isBasic = true) :
    commonKind? es = some k ↔ Kind.IsJoin (es.map Element.kind) k := by
  rw [← Kind.isJoin_congr (Kind.forall_mem_filter_isSentinel h)]
  have hbasic : ∀ j ∈ (es.map Element.kind).filter (!·.isSentinel), j.isBasic = true := by
    intro j hj
    obtain ⟨hmem, hstays⟩ := List.mem_filter.mp hj
    obtain ⟨e, -, rfl⟩ := List.mem_map.mp hmem
    exact e.isBasic_or_isSentinel.resolve_right (by simpa using hstays)
  unfold commonKind?
  cases hkinds : (es.map Element.kind).filter (!·.isSentinel) with
  | nil =>
    obtain ⟨j, hj, hjbasic⟩ := h
    have := List.filter_eq_nil_iff.mp hkinds j hj
    cases j <;> simp_all [Kind.isBasic, Kind.isSentinel]
  | cons first rest =>
    rw [hkinds] at hbasic
    simp only [hkinds]
    exact Kind.foldlM_common?_eq_some_iff (hbasic first List.mem_cons_self)
      fun j hj => hbasic j (List.mem_cons_of_mem first hj)

/-- Nulls and identities meet only if they are all alike. -/
theorem commonKind?_of_isSentinel (h : ∀ e ∈ es, e.kind.isSentinel = true) :
    commonKind? es = some k ↔
      k ∈ es.map Element.kind ∧ ∀ j ∈ es.map Element.kind, j = k := by
  have hnone : (es.map Element.kind).filter (!·.isSentinel) = [] := by
    simpa [List.filter_eq_nil_iff] using h
  unfold commonKind?
  simp only [hnone]
  cases es.map Element.kind with
  | nil => simp
  | cons first rest =>
    simp only [List.all_eq_true, decide_eq_true_eq]
    constructor
    · intro h
      split at h
      · rename_i hall
        obtain rfl := Option.some.inj h
        exact ⟨List.mem_cons_self, List.forall_mem_cons.mpr ⟨rfl, hall⟩⟩
      · cases h
    · rintro ⟨-, hall⟩
      obtain ⟨rfl, hrest⟩ := List.forall_mem_cons.mp hall
      rw [if_pos hrest]

/-- **Elements meet at the kind they have in common.** -/
theorem commonKind?_eq_some_iff :
    commonKind? es = some k ↔ Kind.IsCommon (es.map Element.kind) k := by
  by_cases hbasic : ∃ j ∈ es.map Element.kind, j.isBasic = true
  · rw [commonKind?_of_isBasic hbasic]
    constructor
    · exact .join hbasic
    · rintro (⟨-, hk⟩ | ⟨-, hsentinel, hall⟩)
      · exact hk
      · obtain ⟨j, hj, hjbasic⟩ := hbasic
        obtain rfl := hall j hj
        cases j <;> cases hsentinel <;> cases hjbasic
  · have hsentinels : ∀ e ∈ es, e.kind.isSentinel = true := fun e he =>
      e.isBasic_or_isSentinel.resolve_left fun h =>
        hbasic ⟨e.kind, List.mem_map_of_mem he, h⟩
    rw [commonKind?_of_isSentinel hsentinels]
    constructor
    · rintro ⟨hmem, hall⟩
      obtain ⟨e, he, rfl⟩ := List.mem_map.mp hmem
      exact .alike hmem (hsentinels e he) hall
    · rintro (⟨h, -⟩ | ⟨hmem, -, hall⟩)
      · exact absurd h hbasic
      · exact ⟨hmem, hall⟩

/-- Elements meet at null or identity if they are all of that kind. -/
theorem commonKind?_eq_sentinel_iff (hk : k.isSentinel = true) :
    commonKind? es = some k ↔ es ≠ [] ∧ ∀ e ∈ es, e.kind = k := by
  have hne : es ≠ [] ↔ ∃ e, e ∈ es := by
    rw [← List.length_pos_iff, List.length_pos_iff_exists_mem]
  rw [commonKind?_eq_some_iff, hne]
  constructor
  · rintro (⟨⟨j, hj, hbasic⟩, hjoin⟩ | ⟨hmem, -, hall⟩)
    · have hkbasic := Kind.isBasic_of_promotesTo hbasic (hjoin.promotes j hj)
      cases k <;> cases hk <;> cases hkbasic
    · obtain ⟨e, he, -⟩ := List.mem_map.mp hmem
      exact ⟨⟨e, he⟩, fun f hf => hall f.kind (List.mem_map_of_mem hf)⟩
  · rintro ⟨⟨e, he⟩, hall⟩
    refine .alike (hall e he ▸ List.mem_map_of_mem he) hk fun j hj => ?_
    obtain ⟨f, hf, rfl⟩ := List.mem_map.mp hj
    exact hall f hf

/-- Elements of the same kinds meet at the same kind. -/
theorem commonKind?_congr (h : ∀ j, j ∈ es.map Element.kind ↔ j ∈ fs.map Element.kind) :
    commonKind? es = commonKind? fs := by
  refine Option.ext fun k => ?_
  rw [commonKind?_eq_some_iff, commonKind?_eq_some_iff, Kind.isCommon_congr h]

/-- Next to a stored element, nulls and identities can be put anywhere and left out. -/
theorem commonKind?_of_same_basic (h : ∃ j ∈ es.map Element.kind, j.isBasic = true)
    (hsame : ∀ j, j.isBasic = true → (j ∈ es.map Element.kind ↔ j ∈ fs.map Element.kind)) :
    commonKind? es = commonKind? fs := by
  have h' : ∃ j ∈ fs.map Element.kind, j.isBasic = true := by
    obtain ⟨j, hj, hbasic⟩ := h
    exact ⟨j, (hsame j hbasic).mp hj, hbasic⟩
  have hbasic (gs : List Element) (j : Kind) :
      j ∈ (gs.map Element.kind).filter (!·.isSentinel) ↔
        j ∈ gs.map Element.kind ∧ j.isBasic = true := by
    rw [List.mem_filter]
    refine and_congr_right fun hj => ?_
    obtain ⟨e, -, rfl⟩ := List.mem_map.mp hj
    cases e <;> simp [Element.kind, Kind.isBasic, Kind.isSentinel]
  refine Option.ext fun k => ?_
  rw [commonKind?_of_isBasic h, commonKind?_of_isBasic h',
    ← Kind.isJoin_congr (Kind.forall_mem_filter_isSentinel h),
    ← Kind.isJoin_congr (Kind.forall_mem_filter_isSentinel h')]
  refine Kind.isJoin_congr fun l => ?_
  simp only [hbasic]
  exact forall_congr' fun j => ⟨fun hall hj => hall ⟨(hsame j hj.2).mpr hj.1, hj.2⟩,
    fun hall hj => hall ⟨(hsame j hj.2).mp hj.1, hj.2⟩⟩

/-- What elements meet at is basic, null or identity. -/
theorem isBasic_or_isSentinel_of_commonKind? (h : commonKind? es = some k) :
    k.isBasic = true ∨ k.isSentinel = true := by
  rcases commonKind?_eq_some_iff.mp h with ⟨⟨j, hj, hbasic⟩, hjoin⟩ | ⟨-, hsentinel, -⟩
  · exact .inl (Kind.isBasic_of_promotesTo hbasic (hjoin.promotes j hj))
  · exact .inr hsentinel

/-- Some of the elements are stored, and `k` is the least kind that they all promote to. -/
structure LeastKind (es : List Element) (k : Kind) : Prop where
  stored : ∃ e ∈ es, e.kind.isBasic = true
  promotes : ∀ e ∈ es, e.kind.promotesTo k = true
  least : ∀ l, (∀ e ∈ es, e.kind.promotesTo l = true) → k.promotesTo l = true

theorem commonKind?_eq_basic_iff :
    commonKind? es = some k ∧ k.isBasic = true ↔ LeastKind es k := by
  constructor
  · rintro ⟨h, hk⟩
    rcases commonKind?_eq_some_iff.mp h with ⟨⟨j, hj, hbasic⟩, hjoin⟩ | ⟨-, hsentinel, -⟩
    · obtain ⟨e, he, rfl⟩ := List.mem_map.mp hj
      refine ⟨⟨e, he, hbasic⟩, fun f hf => hjoin.promotes f.kind (List.mem_map_of_mem hf), ?_⟩
      intro l hl
      exact hjoin.least l (by simpa using hl)
    · cases k <;> cases hsentinel <;> cases hk
  · rintro ⟨⟨e, he, hbasic⟩, hall, hleast⟩
    have hjoin : Kind.IsJoin (es.map Element.kind) k :=
      ⟨by simpa using hall, fun l hl => hleast l (by simpa using hl)⟩
    exact ⟨commonKind?_eq_some_iff.mpr (.join ⟨e.kind, List.mem_map_of_mem he, hbasic⟩ hjoin),
      Kind.isBasic_of_promotesTo hbasic (hall e he)⟩

/-- **Elements meet at the least kind that they all promote to**, if some of them are stored; if
none is, they meet only where they are all null or all identity. In whatever order they stand, and
wherever nulls and identities stand between the others, they meet at the same kind. -/
theorem commonKind?_least (es : List Element) :
    (∀ k, commonKind? es = some k ∧ k.isBasic = true ↔ LeastKind es k) ∧
    (commonKind? es = some .null ↔ es ≠ [] ∧ ∀ e ∈ es, e = .null) ∧
    (commonKind? es = some .identity ↔ es ≠ [] ∧ ∀ e ∈ es, e = .identity) ∧
    (commonKind? es = none ↔ (∀ k, ¬LeastKind es k) ∧
      ¬(es ≠ [] ∧ ∀ e ∈ es, e = .null) ∧ ¬(es ≠ [] ∧ ∀ e ∈ es, e = .identity)) ∧
    (∀ fs, es.Perm fs → commonKind? fs = commonKind? es) ∧
    ∀ fs, (∃ e ∈ es, e.kind.isBasic = true) →
      (es.filter (·.kind.isBasic)).Perm (fs.filter (·.kind.isBasic)) →
      commonKind? fs = commonKind? es := by
  have hnull : commonKind? es = some .null ↔ es ≠ [] ∧ ∀ e ∈ es, e = .null := by
    rw [commonKind?_eq_sentinel_iff rfl]
    simp only [Element.kind_eq_null_iff]
  have hidentity : commonKind? es = some .identity ↔ es ≠ [] ∧ ∀ e ∈ es, e = .identity := by
    rw [commonKind?_eq_sentinel_iff rfl]
    simp only [Element.kind_eq_identity_iff]
  refine ⟨fun k => commonKind?_eq_basic_iff, hnull, hidentity, ?_, ?_, ?_⟩
  · rw [← hnull, ← hidentity]
    constructor
    · intro h
      refine ⟨fun k hk => ?_, by simp [h], by simp [h]⟩
      cases h.symm.trans (commonKind?_eq_basic_iff.mpr hk).1
    · rintro ⟨hstored, hnotNull, hnotIdentity⟩
      refine Option.eq_none_iff_forall_ne_some.mpr fun k hk => ?_
      rcases isBasic_or_isSentinel_of_commonKind? hk with hbasic | hsentinel
      · exact hstored k (commonKind?_eq_basic_iff.mp ⟨hk, hbasic⟩)
      · rcases Kind.isSentinel_iff.mp hsentinel with rfl | rfl
        · exact hnotNull hk
        · exact hnotIdentity hk
  · intro fs h
    exact commonKind?_congr fun j => (h.map Element.kind).mem_iff.symm
  · intro fs hstored h
    have hmem (gs : List Element) (j : Kind) (hj : j.isBasic = true) :
        j ∈ (gs.filter (·.kind.isBasic)).map Element.kind ↔ j ∈ gs.map Element.kind := by
      simp only [List.mem_map, List.mem_filter]
      refine exists_congr fun e => ⟨fun he => ⟨he.1.1, he.2⟩, fun he => ⟨⟨he.1, ?_⟩, he.2⟩⟩
      rw [he.2, hj]
    have hbasic : ∃ j ∈ es.map Element.kind, j.isBasic = true := by
      obtain ⟨e, he, hkind⟩ := hstored
      exact ⟨e.kind, List.mem_map_of_mem he, hkind⟩
    refine (commonKind?_of_same_basic hbasic fun j hj => ?_).symm
    rw [← hmem es j hj, ← hmem fs j hj]
    exact (h.map Element.kind).mem_iff

/-- Four elements that meet at the reals, in two orders, and without the null and the identity among
them. -/
theorem commonKind?_least_shuffled :
    let half : Element := .real Single.one
    let es : List Element := [.identity, half, .null, .integer 2]
    let fs : List Element := [.integer 2, .null, .identity, half]
    es.Perm fs ∧ LeastKind es .real ∧ commonKind? fs = commonKind? es ∧
      commonKind? [half, .integer 2] = some .real := by
  intro half es fs
  have hperm : es.Perm fs := by decide
  have hreal : commonKind? es = some .real := rfl
  obtain ⟨hleast, -, -, -, horder, hwithout⟩ := commonKind?_least es
  refine ⟨hperm, (hleast .real).mp ⟨hreal, rfl⟩, horder fs hperm, ?_⟩
  exact (hwithout _ ⟨half, by simp [es], rfl⟩ (by decide)).trans hreal

end Buffer

end ArrayMachine
