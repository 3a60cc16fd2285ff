import ArrayMachine.Proofs.Assignment.Stores
import ArrayMachine.Proofs.Indexing.Reading
import ArrayMachine.Proofs.Value.Ordinary

/-!
# Writing through a view

A store through a view follows the position to the root, promotes the element to the kind of the
root and writes it there. Range, promotion and the handle are all checked before anything is
written, so a store that fails has changed nothing (`Scope.storeInPlace` is the store in its own
order, on a stack that is changed in place).

A store that succeeds changes the one element of the root that could be read at the position before,
and nothing else on the stack (`Scope.ChangesOnly`). Positions of a view may repeat, and all that
lead to this element read the new one. The positions of a vector indexed by itself may move by the
store, those of any other view do not.

* `storeInPlace_eq`: a store that fails leaves the stack as it was.
* `changesOnly_write`: what a write leaves alone.
* `store_changes_one`: one store through a view.
-/

namespace ArrayMachine

/-- The answer of an operation that changes something in place, and what it leaves: the new one, or
the old one if it fails. -/
def Result.leaves {α : Type} (r : Result α) (old : α) : Result Unit × α :=
  match r with
  | .ok new => (.ok (), new)
  | .error fault => (.error fault, old)

/-! ## The store in its own order -/

/-- The store of an element in place. -/
def Buffer.setInPlace (b : Buffer) (pos : Nat) (e : Element) : Result Unit × Buffer :=
  if b.length ≤ pos then (.error (.outOfRange pos b.length), b)
  else
    match e.promoteByTable b.kind with
    | .error fault => (.error fault, b)
    | .ok promoted =>
      match b, promoted with
      | booleans data, .boolean x => (.ok (), booleans (data.setIfInBounds pos x))
      | integers data, .integer x => (.ok (), integers (data.setIfInBounds pos x))
      | reals data, .real x => (.ok (), reals (data.setIfInBounds pos x))
      | characters data, .character x => (.ok (), characters (data.setIfInBounds pos x))
      | _, _ => (.error (.internal "promotion produced a foreign element"), b)

theorem Buffer.setInPlace_eq (b : Buffer) (pos : Nat) (e : Element) :
    b.setInPlace pos e = (b.set pos e).leaves b := by
  unfold setInPlace set
  split
  · rfl
  · rw [e.promoteByTable_eq]
    cases b <;> cases e <;> rfl

/-- The store of an element in place, into an array that stores its elements. -/
def Value.setInPlace (v : Value) (pos : Nat) (e : Element) : Result Unit × Value :=
  match v.payload with
  | .elements b => ((b.setInPlace pos e).1, { v with payload := .elements (b.setInPlace pos e).2 })
  | _ => (.error (.typeMismatch s!"cannot store into {v.type}"), v)

theorem Value.setInPlace_eq (v : Value) (pos : Nat) (e : Element) :
    v.setInPlace pos e = (v.setElement pos e).leaves v := by
  obtain ⟨type, payload⟩ := v
  cases payload with
  | elements b =>
    unfold setInPlace setElement
    simp only [Buffer.setInPlace_eq]
    cases b.set pos e <;> rfl
  | _ => rfl

namespace Scope

variable {s : Scope} {v : Value} {handle : Handle}

/-- The position of the root that a position of a view leads to. -/
def target (s : Scope) (view : View) (pos : Nat) : Result Nat := do
  let root ← s.get view.root
  let shape ← selectedShape view.selection root
  if shape.size ≤ pos then .error (.outOfRange pos shape.size)
  else view.selection.flatPosition root pos

/-- The store through a view in place: the position is found first, and then the root is looked up
once more to be changed. -/
def storeInPlace (s : Scope) (view : View) (pos : Nat) (e : Element) : Result Unit × Scope :=
  match s.target view pos with
  | .error fault => (.error fault, s)
  | .ok p =>
    match s.get view.root with
    | .error fault => (.error fault, s)
    | .ok root => ((root.setInPlace p e).1, s.write view.root (root.setInPlace p e).2)

/-- **A store that fails leaves the stack as it was**, whatever the view and its root. -/
theorem storeInPlace_eq (s : Scope) (view : View) (pos : Nat) (e : Element) :
    s.storeInPlace view pos e = (s.storeElement view pos e).leaves s := by
  have hsplit : s.storeElement view pos e =
      (s.target view pos >>= fun p => s.setElement view.root p e) := by
    unfold storeElement target
    cases s.get view.root with
    | error fault => rfl
    | ok root =>
      show (selectedShape view.selection root >>= _) =
        (selectedShape view.selection root >>= _) >>= _
      rw [bind_assoc]
      refine congrArg (selectedShape view.selection root >>= ·) (funext fun shape => ?_)
      split <;> rfl
  rw [hsplit]
  unfold storeInPlace setElement update
  cases s.target view pos with
  | error fault => rfl
  | ok p =>
    cases hroot : s.get view.root with
    | error fault => rfl
    | ok root =>
      dsimp only
      rw [Value.setInPlace_eq]
      cases hset : root.setElement p e with
      | ok changed => simp only [Result.leaves, bind, Except.bind, hset, pure, Except.pure]
      | error fault =>
        simp only [Result.leaves, bind, Except.bind, hset, write_get hroot]

/-! ## What a write leaves alone -/

/-- The stack is as before, but for the value behind one handle. -/
structure ChangesOnly (s : Scope) (handle : Handle) (t : Scope) : Prop where
  slots : ∀ slot ≠ handle.slot, t.slots[slot]? = s.slots[slot]?
  stamps : t.slots.map Slot.stamp = s.slots.map Slot.stamp
  nextStamp : t.nextStamp = s.nextStamp
  capacity : t.capacity = s.capacity
  /-- Other handles resolve as they did, or fail with the same fault. -/
  values : ∀ other ≠ handle, t.get other = s.get other
  types : ∀ other, t.getType other = s.getType other

theorem item_of_get (h : s.get handle = .ok v) :
    s.item handle.slot handle.stamp = .ok (.value v) := by
  unfold item
  rw [get_eq_ok h]
  exact if_pos rfl

/-- Under another slot or another stamp the same item is found as before. -/
theorem item_write (h : s.get handle = .ok v) (w : Value) {slot stamp : Nat}
    (hne : ¬ (slot = handle.slot ∧ stamp = handle.stamp)) :
    (s.write handle w).item slot stamp = s.item slot stamp := by
  unfold item
  by_cases hslot : slot = handle.slot
  · subst hslot
    have hstamp : ¬ handle.stamp = stamp := fun heq => hne ⟨rfl, heq.symm⟩
    rw [get_eq_ok h, get_eq_ok (get_write_self h w)]
    simp only [if_neg hstamp]
  · rw [slots_write hslot]

/-- **A write changes what is behind its handle**, and nothing else. -/
theorem changesOnly_write (h : s.get handle = .ok v) (w : Value) :
    s.ChangesOnly handle (s.write handle w) where
  slots _ hslot := slots_write hslot w
  stamps := by
    obtain ⟨hlt, hslot⟩ := List.getElem?_eq_some_iff.mp (get_eq_ok h)
    refine List.ext_getElem (by simp [write]) fun i hi hi' => ?_
    by_cases heq : handle.slot = i
    · subst heq
      simp [write, hslot]
    · simp [write, heq]
  nextStamp := rfl
  capacity := rfl
  values other hne := by
    unfold get
    rw [item_write h w fun heq => hne ?_]
    obtain ⟨slot, stamp⟩ := other
    obtain ⟨rfl, rfl⟩ : slot = handle.slot ∧ stamp = handle.stamp := heq
    rfl
  types other := by
    unfold getType
    by_cases heq : other.slot = handle.slot ∧ other.stamp = handle.stamp
    · -- the handle is that of a variable, before and after
      rw [heq.1, heq.2, item_of_get h, item_of_get (get_write_self h w)]
      rfl
    · rw [item_write h w heq]

end Scope

/-! ## Reading what was stored -/

section Overwritten

variable {rs : Shape} {b c : Buffer} {x : Element} {root : Value} {p q : Nat} {σ : Selection}

theorem Buffer.get_of_set_self (h : c.elements = b.elements.set p x) (hp : p < b.length) :
    c.get p = .ok x := by
  rw [← length_elements] at hp
  rw [get_eq_ok_iff, h, List.getElem?_set_self hp]

/-- The other elements of an overwritten buffer are read as before, and so are the faults. -/
theorem Buffer.get_of_set_ne (h : c.elements = b.elements.set p x) (hne : p ≠ q) :
    c.get q = b.get q := by
  unfold get
  rw [get?_eq, get?_eq, h, List.getElem?_set_ne hne, length_of_set_elements h]

namespace Selection

/-- **After a store** every position that leads to the stored element reads it. The other positions
read what they read before. -/
theorem reach_of_set (hb : rs.Fits b) (hc : rs.Fits c) (hset : c.elements = b.elements.set p x)
    (hp : p < b.length) (hself : σ ≠ bySelf) (q : Nat) :
    (σ.flatPosition (Value.stored rs b) q = .ok p → σ.reach (Value.stored rs c) q = .ok x) ∧
      (σ.flatPosition (Value.stored rs b) q ≠ .ok p →
        σ.reach (Value.stored rs c) q = σ.reach (Value.stored rs b) q) := by
  unfold reach
  rw [flatPosition_stored hself c b]
  constructor
  · intro hq
    rw [hq]
    exact (Value.element_stored hc p).trans (Buffer.get_of_set_self hset hp)
  · intro hq
    cases hr : σ.flatPosition (Value.stored rs b) q with
    | error fault => rfl
    | ok r =>
      have hne : p ≠ r := by
        rintro rfl
        exact hq hr
      show (Value.stored rs c).element r = (Value.stored rs b).element r
      rw [Value.element_stored hc, Value.element_stored hb, Buffer.get_of_set_ne hset hne]

end Selection

end Overwritten

namespace Scope

variable {s t : Scope} {view : View} {former root v : Value} {handle : Handle} {rs : Shape}
  {b c : Buffer} {e old x : Element} {p pos : Nat} {σ : Selection}

/-! ## One store -/

/-- What is read of a view is an element of its root. -/
theorem elementAt_ofView_eq_ok (hroot : s.get handle = .ok root) (hheld : root.HeldAs rs)
    (h : s.elementAt (Value.ofView (σ.shape rs rs.size) ⟨handle, σ⟩) pos = .ok old) :
    pos < σ.count rs.size ∧ ∃ p, σ.flatPosition root pos = .ok p ∧ p < rs.size ∧
      root.element p = .ok old := by
  have hpos : pos < (σ.shape rs rs.size).size := by
    refine Nat.lt_of_not_le fun hle => ?_
    rw [elementAt_ofView_of_le hle] at h
    cases h
  rw [elementAt_ofView hroot hpos] at h
  obtain ⟨p, hp, hread⟩ := Result.bind_eq_ok_iff.mp h
  have hlt := Value.lt_of_element hheld.length_eq hread
  exact ⟨Selection.size_shape σ rs _ ▸ hpos, p, hp, hlt, hread⟩

/-- An element is stored where one can be read, if it promotes to the kind of the root. -/
theorem exists_storeElement (hroot : s.get handle = .ok (Value.stored rs b)) (hb : rs.Fits b)
    (hread : s.elementAt (Value.ofView (σ.shape rs rs.size) ⟨handle, σ⟩) pos = .ok old)
    (hx : e.promote rs.element = .ok x) : ∃ t, s.storeElement ⟨handle, σ⟩ pos e = .ok t := by
  obtain ⟨hpos, p, hp, hlt, -⟩ := elementAt_ofView_eq_ok hroot (.stored hb) hread
  rw [← hb.size] at hlt
  rw [← hb.kind] at hx
  obtain ⟨c, -, hkind, hset⟩ := Buffer.exists_set hlt hx
  have hstore : σ.store (Value.stored rs b) pos e = .ok (Value.stored rs c) :=
    Selection.store_eq_ok_iff.mpr ⟨hpos, p, x, c, hp, hlt, hx, hkind, hset, rfl⟩
  rw [storeElement_eq hroot]
  exact ⟨_, Result.bind_eq_ok_iff.mpr ⟨_, hstore, rfl⟩⟩

/-- A view other than of a vector by itself, before and after one element of its root was written
over. -/
theorem elementAt_of_set (hbefore : s.get handle = .ok (Value.stored rs b))
    (hafter : t.get handle = .ok (Value.stored rs c)) (hb : rs.Fits b) (hc : rs.Fits c)
    (hset : c.elements = b.elements.set p x) (hp : p < b.length) (hself : σ ≠ .bySelf) (q : Nat) :
    (q < σ.count rs.size ∧ σ.flatPosition (Value.stored rs b) q = .ok p →
      t.elementAt (Value.ofView (σ.shape rs rs.size) ⟨handle, σ⟩) q = .ok x) ∧
    (¬(q < σ.count rs.size ∧ σ.flatPosition (Value.stored rs b) q = .ok p) →
      t.elementAt (Value.ofView (σ.shape rs rs.size) ⟨handle, σ⟩) q =
        s.elementAt (Value.ofView (σ.shape rs rs.size) ⟨handle, σ⟩) q) := by
  have hsize := Selection.size_shape σ rs rs.size
  by_cases hq : q < σ.count rs.size
  · have hlt : q < (σ.shape rs rs.size).size := hsize ▸ hq
    rw [elementAt_ofView hbefore hlt, elementAt_ofView hafter hlt]
    obtain ⟨hover, hother⟩ := Selection.reach_of_set hb hc hset hp hself q
    exact ⟨fun hreach => hover hreach.2, fun hne => hother fun hreach => hne ⟨hq, hreach⟩⟩
  · have hle : (σ.shape rs rs.size).size ≤ q := hsize ▸ Nat.le_of_not_lt hq
    rw [elementAt_ofView_of_le hle, elementAt_ofView_of_le hle]
    exact ⟨fun hreach => absurd hreach.1 hq, fun _ => rfl⟩

/-- **A store through a view changes one element or nothing.** Take a view of an array, and a stack
on which its root is an array of the same shape. A store that fails leaves the stack as it was: the
root has no elements of its own, or the position cannot be read, or the element does not promote to
the kind of the root. Any other store replaces the one element that was read at the position by the
promoted one, and keeps all else. Then, unless a vector is indexed by itself, all positions of the
view that lead to this element read the promoted one, and all others read what they read before. -/
theorem store_changes_one (hmade : viewOf former view.root view.selection = .ok v)
    (hformer : former.HeldAs rs) (hnow : s.get view.root = .ok root) (hroot : root.HeldAs rs)
    (pos : Nat) (e : Element) :
    (∃ fault, s.storeElement view pos e = .error fault ∧
      s.storeInPlace view pos e = (.error fault, s) ∧
      (root.buffer? = none ∨ (∃ fault, s.elementAt v pos = .error fault) ∨
        ∃ fault, e.promote rs.element = .error fault)) ∨
    ∃ (t : Scope) (b c : Buffer) (p : Nat) (old new : Element),
      s.storeElement view pos e = .ok t ∧ s.storeInPlace view pos e = (.ok (), t) ∧
      root = Value.stored rs b ∧ t.get view.root = .ok (Value.stored rs c) ∧ rs.Fits c ∧
      view.selection.flatPosition root pos = .ok p ∧ root.element p = .ok old ∧
      s.elementAt v pos = .ok old ∧ e.promote rs.element = .ok new ∧
      c.elements = b.elements.set p new ∧ s.ChangesOnly view.root t ∧
      (view.selection ≠ .bySelf → ∀ q,
        (q < view.selection.count rs.size ∧ view.selection.flatPosition root q = .ok p →
          t.elementAt v q = .ok new) ∧
        (¬(q < view.selection.count rs.size ∧ view.selection.flatPosition root q = .ok p) →
          t.elementAt v q = s.elementAt v q)) := by
  obtain ⟨handle, σ⟩ := view
  rw [viewOf_eq hformer] at hmade
  obtain rfl := Except.ok.inj hmade
  have hplace := storeInPlace_eq s ⟨handle, σ⟩ pos e
  cases hstore : s.storeElement ⟨handle, σ⟩ pos e with
  | error fault =>
    rw [hstore] at hplace
    refine .inl ⟨fault, rfl, hplace, ?_⟩
    cases hroot with
    | stored hb =>
      cases hread : s.elementAt (Value.ofView (σ.shape rs rs.size) ⟨handle, σ⟩) pos with
      | error other => exact .inr (.inl ⟨other, rfl⟩)
      | ok old =>
        cases hx : e.promote rs.element with
        | error other => exact .inr (.inr ⟨other, rfl⟩)
        | ok x =>
          obtain ⟨t, ht⟩ := exists_storeElement hnow hb hread hx
          rw [hstore] at ht
          cases ht
    | bare | mixed _ _ | view _ => exact .inl rfl
  | ok t =>
    rw [hstore] at hplace
    right
    obtain ⟨r, hr, ht⟩ := Result.bind_eq_ok_iff.mp ((storeElement_eq hnow pos e).symm.trans hstore)
    obtain rfl := Except.ok.inj ht
    obtain ⟨rs', b, rfl⟩ := Selection.stored_of_store hr
    cases hroot with
    | stored hb =>
      obtain ⟨hpos, p, new, c, hp, hlt, hnew, hkind, hset, rfl⟩ := Selection.store_eq_ok_iff.mp hr
      have hc : rs.Fits c :=
        ⟨hkind.trans hb.kind, (Buffer.length_of_set_elements hset).trans hb.size⟩
      have hlt' : p < b.elements.length := by rwa [Buffer.length_elements]
      have hold := Value.element_stored_of_lt hb hlt'
      have hread : s.elementAt (Value.ofView (σ.shape rs rs.size) ⟨handle, σ⟩) pos =
          .ok b.elements[p] := by
        rw [elementAt_ofView hnow (Selection.size_shape σ rs _ ▸ hpos)]
        exact Result.bind_eq_ok_iff.mpr ⟨p, hp, hold⟩
      have hafter := get_write_self hnow (Value.stored rs c)
      exact ⟨_, b, c, p, b.elements[p], new, rfl, hplace, rfl, hafter, hc, hp, hold, hread,
        hb.kind ▸ hnew, hset, changesOnly_write hnow _, elementAt_of_set hnow hafter hb hc hset hlt⟩

/-- The second row of a matrix, twice over, with the last column before the first. An identity is
stored in its third position: it becomes the integer one in the last cell of the matrix, which the
first position reads too. -/
theorem store_changes_one_repeated :
    let table := Value.stored (Shape.matrix .integer 2 3) (.integers #[1, 2, 3, 4, 5, 6])
    let s := ((empty 8).pushVariable table).2
    let view : View := ⟨⟨0, 0⟩, .matrix (.many #[1, 1]) (.many #[2, 0])⟩
    let v := Value.ofView (Shape.matrix .integer 2 2) view
    s.index (.anchored ⟨0, 0⟩) [.value (.vector (.integers #[2, 2])),
        .value (.vector (.integers #[3, 1]))] = .ok v ∧
      s.elementAt v 2 = .ok (.integer 6) ∧
      ∃ t, s.storeElement view 2 .identity = .ok t ∧ t.elementAt v 2 = .ok (.integer 1) ∧
        t.elementAt v 0 = .ok (.integer 1) ∧ t.elementAt v 1 = s.elementAt v 1 ∧
        t.elementAt v 4 = .error (.outOfRange 4 4) := by
  intro table s view v
  have hindex : s.index (.anchored ⟨0, 0⟩) [.value (.vector (.integers #[2, 2])),
      .value (.vector (.integers #[3, 1]))] = .ok v := rfl
  have hmade : viewOf table view.root view.selection = .ok v := rfl
  have hheld : table.HeldAs (Shape.matrix .integer 2 3) := .stored ⟨rfl, rfl⟩
  have hnow : s.get view.root = .ok table := rfl
  have hread : s.elementAt v 2 = .ok (.integer 6) := rfl
  obtain ⟨fault, hfault, -⟩ |
      ⟨t, b, c, p, old, new, hstore, -, -, -, -, hp, -, -, hnew, -, -, hafter⟩ :=
    store_changes_one hmade hheld hnow hheld 2 .identity
  · cases hfault
  · obtain rfl : 5 = p := Except.ok.inj hp
    obtain rfl : Element.integer 1 = new := Except.ok.inj hnew
    have hafter := hafter nofun
    exact ⟨hindex, hread, t, hstore, (hafter 2).1 ⟨by decide, rfl⟩, (hafter 0).1 ⟨by decide, rfl⟩,
      (hafter 1).2 (fun h => nomatch h.2), (hafter 4).2 (fun h => absurd h.1 (by decide))⟩

end Scope

end ArrayMachine
