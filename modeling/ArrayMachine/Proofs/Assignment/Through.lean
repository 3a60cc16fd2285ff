import ArrayMachine.Proofs.Assignment.Stores

/-!
# Assignment through a view

Assigning to a variable that holds a view copies the source first and then stores the copy element
by element, so what is stored does not depend on whether the source is a view of the same root.

* `Session.assign_through_cases`: the assignment in terms of the root alone.
* `Session.assign_through_keeps`: what it can change.
* `Session.assign_through_view`: what an assignment that succeeds has changed, unless the view is of
  a vector by itself.
-/

namespace ArrayMachine

namespace Session

variable {s t : Session} {scope : Scope} {target : Handle} {x copy current root : Value}
  {view : View} {rs : Shape} {b : Buffer} {length supplied : Nat}

/-! ## Assignment in parts -/

theorem assign_eq (hcopy : s.copy x = .ok copy) :
    s.assign target x =
      ((assignCopy s.scope target copy).1,
        { s with scope := (assignCopy s.scope target copy).2 }) := by
  unfold assign
  rw [hcopy]

theorem assignCopy_view (htarget : scope.get target = .ok current)
    (hview : current.view? = some view) (hlength : current.length = .ok length) :
    assignCopy scope target copy = assignThrough scope view length copy := by
  unfold assignCopy
  rw [htarget]
  simp only [hview, hlength]

/-- Elements that are not as many as the view has positions, nor one for all of them, are refused,
whatever the view. -/
theorem assignThrough_unfit (length : Nat)
    (hunfit : ∀ supplied, copy.length = .ok supplied → ¬ (supplied = 1 ∨ supplied = length)) :
    ∃ fault, ∀ scope view, assignThrough scope view length copy = (.error fault, scope) := by
  unfold assignThrough
  cases hsupplied : copy.length with
  | error fault => exact ⟨fault, fun _ _ => rfl⟩
  | ok supplied => exact ⟨_, fun _ _ => if_pos (not_or.mp (hunfit supplied hsupplied))⟩

theorem assignThrough_fit (hroot : scope.get view.root = .ok root)
    (hsupplied : copy.length = .ok supplied) (hfit : supplied = 1 ∨ supplied = length) :
    assignThrough scope view length copy =
      ((view.selection.storeAll copy (supplied = 1) root length 0).1,
        scope.write view.root (view.selection.storeAll copy (supplied = 1) root length 0).2) := by
  unfold assignThrough
  rw [hsupplied]
  show (if supplied ≠ 1 ∧ supplied ≠ length then _ else storeAll scope view copy _ length 0) = _
  rw [if_neg (by omega)]
  exact storeAll_eq hroot copy _ length 0

/-- **An assignment through a view** is refused before anything is stored, or it is what the loop
makes of the root. -/
theorem assign_through_cases (htarget : s.scope.get target = .ok current)
    (hview : current.view? = some view) (hroot : s.scope.get view.root = .ok root) (x : Value) :
    (∃ fault, s.assign target x = (.error fault, s)) ∨
      ∃ copy length supplied, s.copy x = .ok copy ∧ current.length = .ok length ∧
        copy.length = .ok supplied ∧ (supplied = 1 ∨ supplied = length) ∧
        s.assign target x =
          ((view.selection.storeAll copy (supplied = 1) root length 0).1,
            { s with
              scope := s.scope.write view.root
                (view.selection.storeAll copy (supplied = 1) root length 0).2 }) := by
  cases hcopy : s.copy x with
  | error fault =>
    left
    unfold assign
    rw [hcopy]
    exact ⟨fault, rfl⟩
  | ok copy =>
    rw [assign_eq hcopy]
    cases hlength : current.length with
    | error fault =>
      left
      unfold assignCopy
      rw [htarget]
      simp only [hview, hlength]
      exact ⟨fault, rfl⟩
    | ok length =>
      rw [assignCopy_view htarget hview hlength]
      by_cases hfit : ∃ supplied, copy.length = .ok supplied ∧ (supplied = 1 ∨ supplied = length)
      · right
        obtain ⟨supplied, hsupplied, hfit⟩ := hfit
        rw [assignThrough_fit hroot hsupplied hfit]
        exact ⟨copy, length, supplied, rfl, rfl, hsupplied, hfit, rfl⟩
      · left
        obtain ⟨fault, hfault⟩ := assignThrough_unfit length
          fun supplied hsupplied h => hfit ⟨supplied, hsupplied, h⟩
        rw [hfault]
        exact ⟨fault, rfl⟩

/-- Without its root a view takes nothing. -/
theorem assign_dangling {fault : Fault} (htarget : s.scope.get target = .ok current)
    (hview : current.view? = some view) (hroot : s.scope.get view.root = .error fault) (x : Value) :
    (s.assign target x).2 = s := by
  cases hcopy : s.copy x with
  | error fault =>
    unfold assign
    rw [hcopy]
  | ok copy =>
    have hsame : (assignCopy s.scope target copy).2 = s.scope := by
      unfold assignCopy
      rw [htarget]
      simp only [hview]
      cases current.length with
      | error fault => rfl
      | ok length =>
        dsimp only
        unfold assignThrough
        split
        · rfl
        · split
          · rfl
          · exact storeAll_dangling hroot copy _ length 0
    rw [assign_eq hcopy, hsame]

/-- Two views of one root take an assignment alike if the loops through them do the same. -/
theorem assign_through_congr {u w : Handle} {p q : Value} {σ τ : Selection} {v : Handle}
    (hu : s.scope.get u = .ok p) (hp : p.view? = some ⟨v, σ⟩)
    (hw : s.scope.get w = .ok q) (hq : q.view? = some ⟨v, τ⟩)
    (hpq : p.length = q.length) (hv : s.scope.get v = .ok root)
    (hall : ∀ copy length supplied, s.copy x = .ok copy → p.length = .ok length →
      copy.length = .ok supplied →
      σ.storeAll copy (supplied = 1) root length 0 = τ.storeAll copy (supplied = 1) root length 0) :
    s.assign u x = s.assign w x := by
  cases hcopy : s.copy x with
  | error fault =>
    unfold assign
    rw [hcopy]
  | ok copy =>
    rw [assign_eq hcopy, assign_eq hcopy]
    cases hlength : p.length with
    | error fault =>
      unfold assignCopy
      rw [hu, hw]
      simp only [hp, hq, ← hpq, hlength]
    | ok length =>
      rw [assignCopy_view hu hp hlength, assignCopy_view hw hq (hpq ▸ hlength)]
      by_cases hfit : ∃ supplied, copy.length = .ok supplied ∧ (supplied = 1 ∨ supplied = length)
      · obtain ⟨supplied, hsupplied, hfit⟩ := hfit
        rw [assignThrough_fit hv hsupplied hfit, assignThrough_fit hv hsupplied hfit,
          hall copy length supplied hcopy hlength hsupplied]
      · obtain ⟨fault, hfault⟩ := assignThrough_unfit length
          fun supplied hsupplied h => hfit ⟨supplied, hsupplied, h⟩
        rw [hfault, hfault]

/-! ## What is changed -/

/-- Whatever comes of it, only the elements of the root are changed. -/
theorem assign_through_keeps (htarget : s.scope.get target = .ok current)
    (hview : current.view? = some view) (hroot : s.scope.get view.root = .ok (Value.stored rs b))
    (x : Value) :
    ∃ c : Buffer, c.kind = b.kind ∧ c.length = b.length ∧
      (s.assign target x).2 = { s with scope := s.scope.write view.root (Value.stored rs c) } := by
  rcases assign_through_cases htarget hview hroot x with
    ⟨fault, h⟩ | ⟨copy, length, supplied, -, -, -, -, h⟩
  · refine ⟨b, rfl, rfl, ?_⟩
    rw [h, Scope.write_get hroot]
  · obtain ⟨c, hkind, hlength, hc⟩ :=
      view.selection.storeAll_keeps copy (supplied = 1) rs b length 0
    refine ⟨c, hkind, hlength, ?_⟩
    rw [h, hc]

/-- **Assignment through a view** of anything but a vector by itself. The source is copied as it was
before. The root is overwritten at the positions of the view in their order, each with the element
that the copy has for it, or with the only one it has, promoted to the kind of the root. So elements
that the view does not select stay, of stores in one position the last does, and nothing else in the
session is changed. A view without positions changes nothing. -/
theorem assign_through_view (htarget : s.scope.get target = .ok current)
    (hview : current.view? = some view) (hself : view.selection ≠ .bySelf)
    (hroot : s.scope.get view.root = .ok root) (h : s.assign target x = (.ok (), t)) :
    ∃ (copy : Value) (length supplied : Nat),
      s.copy x = .ok copy ∧ current.length = .ok length ∧ copy.length = .ok supplied ∧
      (supplied = 1 ∨ supplied = length) ∧
      ((length = 0 ∧ t = s) ∨
        ∃ (rs : Shape) (b c : Buffer) (positions : List Nat) (elements : List Element),
          root = Value.stored rs b ∧
          (List.range length).mapM (view.selection.flatPosition root) = .ok positions ∧
          (List.range length).mapM (copy.supplyAs b.kind (supplied = 1)) = .ok elements ∧
          c.kind = b.kind ∧ c.elements = overwritten b.elements (positions.zip elements) ∧
          (∀ q : Nat, q ∉ positions → c.elements[q]? = b.elements[q]?) ∧
          (∀ pos q : Nat, positions[pos]? = some q →
            (∀ later : Nat, pos < later → positions[later]? ≠ some q) →
            c.elements[q]? = elements[pos]?) ∧
          t.scope.get view.root = .ok (Value.stored rs c) ∧
          (∀ slot : Nat, slot ≠ view.root.slot → t.scope.slots[slot]? = s.scope.slots[slot]?) ∧
          t = { s with scope := s.scope.write view.root (Value.stored rs c) }) := by
  obtain ⟨fault, hrefused⟩ | ⟨copy, length, supplied, hcopy, hlength, hsupplied, hfit, hassign⟩ :=
    assign_through_cases htarget hview hroot x
  · cases (Prod.mk.inj (h.symm.trans hrefused)).1
  rcases hall : view.selection.storeAll copy (supplied = 1) root length 0 with ⟨answer, r⟩
  rw [hall] at hassign
  obtain ⟨rfl, rfl⟩ := Prod.mk.inj (h.symm.trans hassign)
  refine ⟨copy, length, supplied, hcopy, hlength, hsupplied, hfit, ?_⟩
  cases length with
  | zero =>
    left
    obtain ⟨-, rfl⟩ := Prod.mk.inj hall
    rw [Scope.write_get hroot]
    exact ⟨rfl, rfl⟩
  | succ count =>
    right
    obtain ⟨rs, b, rfl⟩ := Selection.stored_of_storeAll hall
    obtain ⟨positions, elements, c, hpositions, helements, hin, hkind, hc, rfl⟩ :=
      Selection.storeAll_eq_ok hself hall
    rw [← List.range_eq_range'] at hpositions helements
    have hcount : positions.length = elements.length :=
      (Result.length_of_mapM hpositions).trans (Result.length_of_mapM helements).symm
    refine ⟨rs, b, c, positions, elements, rfl, hpositions, helements, hkind, hc, ?_, ?_,
      Scope.get_write_self hroot _, fun slot hslot => Scope.slots_write hslot _, rfl⟩
    · intro q hq
      rw [hc]
      refine getElem?_overwritten_of_notMem ?_
      rwa [List.map_fst_zip (Nat.le_of_eq hcount)]
    · intro pos q hpos hlast
      have hlt : pos < elements.length := hcount ▸ (List.getElem?_eq_some_iff.mp hpos).1
      have hmem : q ∈ positions := List.mem_of_getElem? hpos
      rw [hc, List.getElem?_eq_getElem hlt]
      refine getElem?_overwritten_last (i := pos) ?_ ?_ fun later hlater e hother => ?_
      · exact List.getElem?_zip_eq_some.mpr ⟨hpos, List.getElem?_eq_getElem hlt⟩
      · rw [Buffer.length_elements]
        exact hin q hmem
      · exact hlast later hlater (List.getElem?_zip_eq_some.mp hother).1

/-- The first three of four elements stored in the second, the third and the second again: what is
stored is what they were before. -/
theorem assign_through_view_overlapping :
    let start := Session.start Settings.default [] Sink.empty
    let v := Value.vector (.integers #[10, 20, 30, 40])
    let picks := Value.ofView (Shape.vector .integer 3) ⟨⟨0, 0⟩, .vector (.many #[1, 2, 1])⟩
    let front := Value.ofView (Shape.vector .integer 3) ⟨⟨0, 0⟩, .vector (.many #[0, 1, 2])⟩
    let s := ((start.allocate v).2.allocate picks).2
    s.scope.index (.anchored ⟨0, 0⟩) [.value (Value.vector (.integers #[2, 3, 2]))] = .ok picks ∧
    s.scope.get ⟨1, 1⟩ = .ok picks ∧ s.scope.get ⟨0, 0⟩ = .ok v ∧
    s.assign ⟨1, 1⟩ front = (.ok (), (s.assign ⟨1, 1⟩ front).2) ∧
    (s.assign ⟨1, 1⟩ front).2.scope.get ⟨0, 0⟩ =
      .ok (Value.vector (.integers #[10, 30, 20, 40])) := by
  intro start v picks front s
  have htarget : s.scope.get ⟨1, 1⟩ = .ok picks := rfl
  have hview : picks.view? = some ⟨⟨0, 0⟩, .vector (.many #[1, 2, 1])⟩ := rfl
  have hroot : s.scope.get ⟨0, 0⟩ = .ok v := rfl
  have hok : s.assign ⟨1, 1⟩ front = (.ok (), (s.assign ⟨1, 1⟩ front).2) := rfl
  obtain ⟨copy, length, supplied, hcopy, hlength, hsupplied, -, hchanged⟩ :=
    assign_through_view htarget hview nofun hroot hok
  obtain rfl := Except.ok.inj hcopy
  obtain rfl := Except.ok.inj hlength
  obtain rfl := Except.ok.inj hsupplied
  obtain ⟨hnone, -⟩ | ⟨rs, b, c, positions, elements, hv, hpositions, helements, hkind, hc, -, -,
    hget, -⟩ := hchanged
  · cases hnone
  obtain ⟨hshape, hbuffer⟩ := Value.mk.inj hv
  obtain rfl := ValueType.array.inj hshape
  obtain rfl := Payload.elements.inj hbuffer
  obtain rfl := Except.ok.inj hpositions
  obtain rfl := Except.ok.inj helements
  obtain rfl : c = .integers #[10, 30, 20, 40] := Buffer.ext_elements hkind hc
  exact ⟨rfl, htarget, hroot, hok, hget⟩

end Session

end ArrayMachine
