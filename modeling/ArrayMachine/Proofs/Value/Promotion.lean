import ArrayMachine.Proofs.Value.Stored

/-!
# Promotion, element by element

The operations on buffers promote as they store. Here each of them is read as what it does to the
list of elements: a buffer is its kind and its elements (`Buffer.ext_elements`), and making,
promoting, filling and overwriting one promotes each element on its own.

* `Element.promote_trans`: promoting by way of another kind is promoting at once.
* `Buffer.ofElements_eq_ok_iff`, `Buffer.elements_promote`, `Buffer.elements_filled`: new buffers.
* `Buffer.set_eq_ok_iff`: an overwritten element.
-/

namespace ArrayMachine

/-! ## Elements -/

namespace Element

variable {e f g : Element} {j k : Kind}

theorem promote_of_kind (h : e.kind = k) : e.promote k = .ok e := by
  subst h
  cases e <;> rfl

/-- An element is promoted wherever one of its kind is. -/
theorem exists_promote (h : e.kind.promotesTo k = true) : ∃ r, e.promote k = .ok r := by
  rw [← isOk_promote] at h
  cases hr : e.promote k with
  | error fault =>
    rw [hr] at h
    cases h
  | ok r => exact ⟨r, rfl⟩

theorem exists_fault_promote (h : e.kind.promotesTo k = false) :
    ∃ fault, e.promote k = .error fault := by
  rw [← isOk_promote] at h
  cases hr : e.promote k with
  | error fault => exact ⟨fault, rfl⟩
  | ok r =>
    rw [hr] at h
    cases h

/-- The four ways of promotion: an element stays what it is, null becomes the zero and identity the
one of the kind, and an integer becomes a real. -/
theorem promote_cases (h : e.promote j = .ok f) :
    f = e ∨ (e = .null ∧ zero j = .ok f) ∨ (e = .identity ∧ one j = .ok f) ∨
      ∃ n, e = .integer n ∧ f = .real (Single.ofInt n.toInt) := by
  cases e with
  | boolean b =>
    left
    cases j <;> cases h
    rfl
  | real x =>
    left
    cases j <;> cases h
    rfl
  | character c =>
    left
    cases j <;> cases h
    rfl
  | integer n =>
    cases j with
    | integer => exact .inl (Except.ok.inj h).symm
    | real => exact .inr (.inr (.inr ⟨n, rfl, (Except.ok.inj h).symm⟩))
    | _ => cases h
  | null =>
    cases j with
    | null => exact .inl (Except.ok.inj h).symm
    | identity | mixed => cases h
    | boolean | integer | real | character => exact .inr (.inl ⟨rfl, h⟩)
  | identity =>
    cases j with
    | identity => exact .inl (Except.ok.inj h).symm
    | null | mixed => cases h
    | boolean | integer | real | character => exact .inr (.inr (.inl ⟨rfl, h⟩))

/-- What null is promoted to is the zero of the kind. -/
theorem zero_of_promote_null (hk : k.isBasic = true) (h : promote k .null = .ok f) :
    zero k = .ok f := by
  cases k with
  | boolean | integer | real | character => exact h
  | _ => cases hk

/-- Null and identity stand for one number, as an integer and as a real, so what they are promoted to
promotes as they do. -/
theorem promote_constant {n : Int32} (hinteger : e.toInteger = .ok n)
    (hreal : e.toReal = .ok (Single.ofInt n.toInt)) (h : e.promote j = .ok f)
    (h' : f.promote k = .ok g) : e.promote k = .ok g := by
  by_cases hsame : f.kind = k
  · obtain rfl : f = g := Except.ok.inj ((promote_of_kind hsame).symm.trans h')
    rwa [← hsame, kind_of_promote h]
  · cases j with
    | integer =>
      have hf : f = integer n := by
        unfold promote at h
        rw [hinteger] at h
        exact (Except.ok.inj h).symm
      subst hf
      cases k with
      | real =>
        unfold promote
        rw [hreal]
        exact h'
      | integer => exact absurd rfl hsame
      | _ => cases h'
    | null | identity | mixed =>
      obtain rfl : e = f := by
        change (if _ then _ else _) = _ at h
        split at h
        · exact Except.ok.inj h
        · cases h
      exact h'
    | boolean | real | character =>
      -- such an element promotes to its own kind alone
      have hkind := kind_of_promote h
      cases f <;> cases hkind
      cases k <;> cases h'
      exact absurd rfl hsame

/-- **Promoting by way of another kind is promoting at once.** -/
theorem promote_trans (h : e.promote j = .ok f) (h' : f.promote k = .ok g) :
    e.promote k = .ok g := by
  rcases promote_cases h with rfl | ⟨rfl, -⟩ | ⟨rfl, -⟩ | ⟨n, rfl, rfl⟩
  · exact h'
  · exact promote_constant (n := 0) rfl rfl h h'
  · have hone : Single.ofInt 1 = Single.one := rfl
    exact promote_constant (n := 1) rfl (congrArg Except.ok hone.symm) h h'
  · -- an integer that has become a real can only stay one
    cases k <;> cases h'
    rfl

end Element

/-! ## New buffers -/

namespace Buffer

variable {b c : Buffer} {k : Kind} {es : List Element} {e : Element} {n pos : Nat}

/-- A buffer is its kind and its elements. -/
theorem ext_elements (hkind : b.kind = c.kind) (h : b.elements = c.elements) : b = c := by
  have hb := ofElements_elements b
  rw [hkind, h, ofElements_elements c] at hb
  exact (Except.ok.inj hb).symm

/-- Making elements of what is read from each of them is promoting them. -/
theorem mapM_read_iff {α : Type} {wrap : α → Element} {read : Element → Result α}
    (hwrap : Function.Injective wrap) (hread : ∀ e, e.promote k = wrap <$> read e)
    {data : List α} :
    es.mapM read = .ok data ↔ es.mapM (Element.promote k) = .ok (data.map wrap) := by
  have hmap : Function.Injective fun r : Result α => wrap <$> r := by
    intro r s hrs
    cases r <;> cases s <;> simp_all [Functor.map, Except.map, hwrap.eq_iff]
  have hleft : (es.map read).map (fun r => wrap <$> r) = es.map (Element.promote k) := by
    rw [List.map_map]
    exact List.map_congr_left fun e _ => (hread e).symm
  have hright : (data.map Except.ok).map (fun r : Result α => wrap <$> r) =
      (data.map wrap).map Except.ok := by
    rw [List.map_map, List.map_map]
    rfl
  rw [Result.mapM_eq_ok_iff, Result.mapM_eq_ok_iff, ← hleft, ← hright]
  exact (List.map_inj_right fun _ _ => @hmap _ _).symm

/-- **A buffer made of elements holds each of them promoted.** -/
theorem ofElements_eq_ok_iff :
    ofElements k es = .ok b ↔ b.kind = k ∧ es.mapM (Element.promote k) = .ok b.elements := by
  constructor
  · intro h
    refine ⟨kind_of_ofElements h, ?_⟩
    cases k with
    | boolean =>
      obtain ⟨data, hdata, rfl⟩ := Result.map_eq_ok_iff.mp h
      exact (mapM_read_iff (fun _ _ => Element.boolean.inj) fun _ => rfl).mp hdata
    | integer =>
      obtain ⟨data, hdata, rfl⟩ := Result.map_eq_ok_iff.mp h
      exact (mapM_read_iff (fun _ _ => Element.integer.inj) fun _ => rfl).mp hdata
    | real =>
      obtain ⟨data, hdata, rfl⟩ := Result.map_eq_ok_iff.mp h
      exact (mapM_read_iff (fun _ _ => Element.real.inj) fun _ => rfl).mp hdata
    | character =>
      obtain ⟨data, hdata, rfl⟩ := Result.map_eq_ok_iff.mp h
      exact (mapM_read_iff (fun _ _ => Element.character.inj) fun _ => rfl).mp hdata
    | null | identity | mixed => cases h
  · rintro ⟨rfl, h⟩
    cases b with
    | booleans data =>
      exact Result.map_eq_ok_iff.mpr ⟨data.toList,
        (mapM_read_iff (fun _ _ => Element.boolean.inj) fun _ => rfl).mpr h, rfl⟩
    | integers data =>
      exact Result.map_eq_ok_iff.mpr ⟨data.toList,
        (mapM_read_iff (fun _ _ => Element.integer.inj) fun _ => rfl).mpr h, rfl⟩
    | reals data =>
      exact Result.map_eq_ok_iff.mpr ⟨data.toList,
        (mapM_read_iff (fun _ _ => Element.real.inj) fun _ => rfl).mpr h, rfl⟩
    | characters data =>
      exact Result.map_eq_ok_iff.mpr ⟨data.toList,
        (mapM_read_iff (fun _ _ => Element.character.inj) fun _ => rfl).mpr h, rfl⟩

/-- Elements that can all be promoted to a basic kind make a buffer. -/
theorem exists_ofElements {fs : List Element} (hk : k.isBasic = true)
    (h : es.mapM (Element.promote k) = .ok fs) :
    ∃ b, ofElements k es = .ok b ∧ b.elements = fs := by
  obtain ⟨b, hkind, rfl⟩ := exists_elements_eq hk fun f hf => by
    obtain ⟨e, -, he⟩ := Result.exists_of_mem_mapM h hf
    exact Element.kind_of_promote he
  exact ⟨b, ofElements_eq_ok_iff.mpr ⟨hkind, h⟩, rfl⟩

theorem exists_promote {fs : List Element} (hk : k.isBasic = true)
    (h : b.elements.mapM (Element.promote k) = .ok fs) : ∃ c, b.promote k = .ok c := by
  unfold promote
  split
  · exact ⟨b, rfl⟩
  · obtain ⟨c, hc, -⟩ := exists_ofElements hk h
    exact ⟨c, hc⟩

theorem elements_promote (h : b.promote k = .ok c) :
    c.kind = k ∧ b.elements.mapM (Element.promote k) = .ok c.elements := by
  unfold promote at h
  split at h
  · rename_i hk
    obtain rfl := Except.ok.inj h
    refine ⟨hk.symm, Result.mapM_eq_ok_iff.mpr (List.map_congr_left fun e he => ?_)⟩
    exact Element.promote_of_kind ((kind_of_mem_elements he).trans hk.symm)
  · exact ofElements_eq_ok_iff.mp h

/-- A filled buffer holds one promoted element, as often as it is long. -/
theorem elements_filled (h : filled k n e = .ok b) :
    b.kind = k ∧ ∃ r, e.promote k = .ok r ∧ b.elements = List.replicate n r := by
  cases k <;> simp only [filled] at h
  case boolean | integer | real | character =>
    obtain ⟨x, hx, rfl⟩ := Result.map_eq_ok_iff.mp h
    refine ⟨rfl, _, Result.map_eq_ok_iff.mpr ⟨x, hx, rfl⟩, ?_⟩
    simp [elements]
  all_goals
    obtain ⟨_, -, h⟩ := Result.bind_eq_ok_iff.mp h
    cases h

/-! ## Overwritten elements -/

/-- What a promoted element is written into. -/
theorem exists_set (hpos : pos < b.length) {r : Element} (hr : e.promote b.kind = .ok r) :
    ∃ c, b.set pos e = .ok c ∧ c.kind = b.kind ∧ c.elements = b.elements.set pos r := by
  unfold set
  rw [if_neg (Nat.not_le.mpr hpos)]
  cases b
  all_goals
    obtain ⟨x, hx, rfl⟩ := Result.map_eq_ok_iff.mp hr
    exact ⟨_, Result.map_eq_ok_iff.mpr ⟨x, hx, rfl⟩, rfl, by simp [elements, List.map_set]⟩

/-- **An element is overwritten by one promoted to the kind of the buffer.** -/
theorem set_eq_ok_iff :
    b.set pos e = .ok c ↔
      pos < b.length ∧ ∃ r, e.promote b.kind = .ok r ∧ c.kind = b.kind ∧
        c.elements = b.elements.set pos r := by
  constructor
  · intro h
    have hpos : pos < b.length := by
      refine Nat.lt_of_not_le fun hle => ?_
      unfold set at h
      rw [if_pos hle] at h
      cases h
    have hr : ∃ r, e.promote b.kind = .ok r := by
      unfold set at h
      rw [if_neg (Nat.not_le.mpr hpos)] at h
      cases b
      all_goals
        obtain ⟨x, hx, -⟩ := Result.map_eq_ok_iff.mp h
        exact ⟨_, Result.map_eq_ok_iff.mpr ⟨x, hx, rfl⟩⟩
    obtain ⟨r, hr⟩ := hr
    obtain ⟨c', hc', hkind, helements⟩ := exists_set hpos hr
    obtain rfl := Except.ok.inj (h.symm.trans hc')
    exact ⟨hpos, r, hr, hkind, helements⟩
  · rintro ⟨hpos, r, hr, hkind, helements⟩
    obtain ⟨c', hc', hkind', helements'⟩ := exists_set hpos hr
    rw [hc', ext_elements (hkind'.trans hkind.symm) (helements'.trans helements.symm)]

theorem length_of_set_elements (h : c.elements = b.elements.set pos e) : c.length = b.length := by
  rw [← length_elements, h, List.length_set, length_elements]

end Buffer

/-! ## What a value supplies -/

/-- The element that a value has for a position: if it has only one, that one for all of them. -/
def Value.supply (x : Value) (single : Bool) (pos : Nat) : Result Element :=
  x.element (if single then 0 else pos)

theorem Value.supply_eq (x : Value) (n pos : Nat) :
    x.supply (n = 1) pos = x.element (if n = 1 then 0 else pos) := by
  simp [supply]

/-- The element that a value has for a position, promoted to a kind. -/
def Value.supplyAs (x : Value) (kind : Kind) (single : Bool) (pos : Nat) : Result Element := do
  (← x.supply single pos).promote kind

end ArrayMachine
