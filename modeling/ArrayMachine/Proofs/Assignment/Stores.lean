import ArrayMachine.Proofs.Indexing.Gather
import ArrayMachine.Proofs.Scope.Evolution
import ArrayMachine.Proofs.Value.Promotion
import ArrayMachine.Session

/-!
# Stores through a view

Assigning through a view stores element after element in the root of the view. All of it happens in
one slot of the stack, so the loop is followed on the root alone (`Selection.storeAll`): the stack
it leaves is the stack it began with, the root written over (`Session.storeAll_eq`).

The positions of a view that is not of a vector by itself do not depend on the elements of the root.
So what they are in the course of the loop is what they were before it, and the root is left with
its elements overwritten in the order of the positions of the view (`Selection.storeAll_prefix`), up
to the end or to a store that fails. Where positions repeat the last store stays.

* `Selection.store_eq_ok_iff`: one store.
* `Selection.storeAll_keeps`, `Selection.storeAll_unselected`: what every loop leaves alone.
* `Selection.storeAll_eq_ok`, `Selection.exists_storeAll`: loops that come to their end.
-/

namespace ArrayMachine

/-! ## Lists written over -/

section Overwritten

variable {α : Type} {xs : List α} {writes : List (Nat × α)} {q : Nat} {a : α}

/-- The list with members written over, one write after the other. -/
def overwritten (xs : List α) (writes : List (Nat × α)) : List α :=
  writes.foldl (fun xs write => xs.set write.1 write.2) xs

@[simp] theorem overwritten_cons (xs : List α) (write : Nat × α) (writes : List (Nat × α)) :
    overwritten xs (write :: writes) = overwritten (xs.set write.1 write.2) writes := rfl

@[simp] theorem length_overwritten : (overwritten xs writes).length = xs.length := by
  induction writes generalizing xs with
  | nil => rfl
  | cons write writes ih => rw [overwritten_cons, ih, List.length_set]

/-- A member that no write is for stays. -/
theorem getElem?_overwritten_of_notMem (h : q ∉ writes.map Prod.fst) :
    (overwritten xs writes)[q]? = xs[q]? := by
  induction writes generalizing xs with
  | nil => rfl
  | cons write writes ih =>
    rw [List.map_cons, List.mem_cons, not_or] at h
    rw [overwritten_cons, ih h.2, List.getElem?_set_ne (Ne.symm h.1)]

/-- **Of the writes to one position the last stays.** -/
theorem getElem?_overwritten_last {i : Nat} (hi : writes[i]? = some (q, a)) (hq : q < xs.length)
    (hlast : ∀ j, i < j → ∀ b, writes[j]? ≠ some (q, b)) :
    (overwritten xs writes)[q]? = some a := by
  induction writes generalizing xs i with
  | nil => cases hi
  | cons write writes ih =>
    rw [overwritten_cons]
    cases i with
    | zero =>
      obtain rfl : write = (q, a) := Option.some.inj hi
      have hnone : q ∉ writes.map Prod.fst := by
        rintro hmem
        obtain ⟨⟨p, b⟩, hw, rfl⟩ := List.mem_map.mp hmem
        obtain ⟨j, hj⟩ := List.getElem?_of_mem hw
        exact hlast (j + 1) (Nat.succ_pos j) b hj
      rw [getElem?_overwritten_of_notMem hnone, List.getElem?_set_self hq]
    | succ i =>
      refine ih hi (by rwa [List.length_set]) fun j hj b => ?_
      exact hlast (j + 1) (Nat.succ_lt_succ hj) b

end Overwritten

/-! ## One slot of a stack -/

namespace Scope

variable {s : Scope} {handle : Handle} {v w : Value}

/-- The value that was written is behind its handle. -/
theorem get_write_self (h : s.get handle = .ok v) (w : Value) :
    (s.write handle w).get handle = .ok w := by
  obtain ⟨hlt, -⟩ := List.getElem?_eq_some_iff.mp (get_eq_ok h)
  exact get_of_slot (List.getElem?_set_self hlt)

@[simp] theorem write_write (s : Scope) (handle : Handle) (v w : Value) :
    (s.write handle v).write handle w = s.write handle w := by
  simp [write]

/-- Writing what is there changes nothing. -/
theorem write_get (h : s.get handle = .ok v) : s.write handle v = s := by
  obtain ⟨hlt, hslot⟩ := List.getElem?_eq_some_iff.mp (get_eq_ok h)
  unfold write
  rw [← hslot, List.set_getElem_self]

/-- No other slot is touched. -/
theorem slots_write {slot : Nat} (h : slot ≠ handle.slot) (v : Value) :
    (s.write handle v).slots[slot]? = s.slots[slot]? :=
  List.getElem?_set_ne (Ne.symm h)

end Scope

/-! ## Stores in a root -/

namespace Selection

/-- The root with the element that the selection reaches at a position overwritten. -/
def store (σ : Selection) (root : Value) (pos : Nat) (e : Element) : Result Value := do
  let shape ← Scope.selectedShape σ root
  if shape.size ≤ pos then .error (.outOfRange pos shape.size)
  else root.setElement (← σ.flatPosition root pos) e

/-- The root with what `x` supplies for a position stored there. -/
def storeNext (σ : Selection) (x : Value) (single : Bool) (root : Value) (pos : Nat) :
    Result Value := do
  σ.store root pos (← x.supply single pos)

/-- The root with what `x` supplies stored at the positions `pos`, `pos + 1`, … of which there are
`count`, as far as that gets. -/
def storeAll (σ : Selection) (x : Value) (single : Bool) (root : Value) :
    (count pos : Nat) → Result Unit × Value
  | 0, _ => (.ok (), root)
  | count + 1, pos =>
    match σ.storeNext x single root pos with
    | .ok root => storeAll σ x single root count (pos + 1)
    | .error fault => (.error fault, root)

variable {σ : Selection} {x root r : Value} {e : Element} {single : Bool} {count pos : Nat}

theorem storeAll_of_ok (h : σ.storeNext x single root pos = .ok r) (count : Nat) :
    σ.storeAll x single root (count + 1) pos = σ.storeAll x single r count (pos + 1) := by
  rw [storeAll, h]

theorem storeAll_of_error {fault : Fault} (h : σ.storeNext x single root pos = .error fault)
    (count : Nat) : σ.storeAll x single root (count + 1) pos = (.error fault, root) := by
  rw [storeAll, h]

/-- Only arrays with stored elements are stored into. -/
theorem stored_of_store (h : σ.store root pos e = .ok r) : ∃ rs b, root = Value.stored rs b := by
  obtain ⟨shape, hshape, h⟩ := Result.bind_eq_ok_iff.mp h
  obtain ⟨rs, hrs, -⟩ := Result.bind_eq_ok_iff.mp hshape
  split at h
  · cases h
  · obtain ⟨p, -, h⟩ := Result.bind_eq_ok_iff.mp h
    obtain ⟨type, payload⟩ := root
    cases type with
    | array shape =>
      cases payload with
      | elements b => exact ⟨shape, b, rfl⟩
      | _ => cases h
    | _ => cases hrs

theorem stored_of_storeAll (h : σ.storeAll x single root (count + 1) pos = (.ok (), r)) :
    ∃ rs b, root = Value.stored rs b := by
  cases hnext : σ.storeNext x single root pos with
  | error fault =>
    rw [storeAll_of_error hnext] at h
    cases (Prod.mk.inj h).1
  | ok next =>
    obtain ⟨e, -, hstore⟩ := Result.bind_eq_ok_iff.mp hnext
    exact stored_of_store hstore

end Selection

section Loop

variable {s : Scope} {view : View} {root : Value}

/-- A store through a view is a store in its root. -/
theorem Scope.storeElement_eq (hroot : s.get view.root = .ok root) (pos : Nat) (e : Element) :
    s.storeElement view pos e =
      (view.selection.store root pos e >>= fun r => .ok (s.write view.root r)) := by
  unfold storeElement Selection.store setElement update
  rw [hroot]
  show (selectedShape view.selection root >>= fun shape => _) = _
  rw [bind_assoc]
  refine congrArg (selectedShape view.selection root >>= ·) (funext fun shape => ?_)
  split
  · rfl
  · cases view.selection.flatPosition root pos <;> rfl

/-- One turn of the loop. -/
theorem Session.storeNext_eq (hroot : s.get view.root = .ok root) (x : Value) (single : Bool)
    (pos : Nat) :
    (do s.storeElement view pos (← x.element (if single then 0 else pos))) =
      (view.selection.storeNext x single root pos >>= fun r => .ok (s.write view.root r)) := by
  unfold Selection.storeNext
  rw [bind_assoc]
  refine congrArg (x.supply single pos >>= ·) (funext fun e => ?_)
  exact Scope.storeElement_eq hroot pos e

/-- **The loop works on the root alone.** -/
theorem Session.storeAll_eq (hroot : s.get view.root = .ok root) (x : Value) (single : Bool)
    (count pos : Nat) :
    Session.storeAll s view x single count pos =
      ((view.selection.storeAll x single root count pos).1,
        s.write view.root (view.selection.storeAll x single root count pos).2) := by
  induction count generalizing s root pos with
  | zero => exact congrArg (Prod.mk _) (Scope.write_get hroot).symm
  | succ count ih =>
    unfold Session.storeAll
    rw [storeNext_eq hroot]
    cases hnext : view.selection.storeNext x single root pos with
    | error fault =>
      rw [Selection.storeAll_of_error hnext]
      exact congrArg (Prod.mk _) (Scope.write_get hroot).symm
    | ok r =>
      rw [Selection.storeAll_of_ok hnext]
      show Session.storeAll (s.write view.root r) view x single count (pos + 1) = _
      rw [ih (Scope.get_write_self hroot r), Scope.write_write]

/-- Without its root a view is not stored through. -/
theorem Session.storeAll_dangling {fault : Fault} (hroot : s.get view.root = .error fault)
    (x : Value) (single : Bool) (count pos : Nat) :
    (Session.storeAll s view x single count pos).2 = s := by
  cases count with
  | zero => rfl
  | succ count =>
    unfold Session.storeAll Scope.storeElement
    rw [hroot]
    cases x.element (if single then 0 else pos) <;> rfl

end Loop

/-! ## Stores in a stored root -/

namespace Selection

variable {σ : Selection} {x r : Value} {rs : Shape} {b c : Buffer} {e : Element} {single : Bool}
  {count pos : Nat}

/-- Unless a vector is indexed by itself, what a selection reaches hangs on the shape alone. -/
theorem flatPosition_stored (hself : σ ≠ bySelf) (b c : Buffer) :
    σ.flatPosition (Value.stored rs b) = σ.flatPosition (Value.stored rs c) := by
  cases σ with
  | bySelf => exact absurd rfl hself
  | vector _ => rfl
  | matrix _ _ => rfl

/-- Of a vector indexed by itself, the element that is there says which position is reached. -/
theorem flatPosition_bySelf_eq (hb : rs.Fits b) {n : Int32}
    (hn : b.elements[pos]? = some (.integer n)) :
    bySelf.flatPosition (Value.stored rs b) pos = IndexList.position rs.size n.toInt := by
  show ((Value.stored rs b).element pos >>= _) = _
  rw [(Value.element_stored_eq_ok_iff hb).mpr hn]
  rfl

/-- **One store** overwrites the element that the selection reaches with the given one, promoted to
the kind of the root. -/
theorem store_eq_ok_iff :
    σ.store (Value.stored rs b) pos e = .ok r ↔
      pos < σ.count rs.size ∧ ∃ p v c, σ.flatPosition (Value.stored rs b) pos = .ok p ∧
        p < b.length ∧ e.promote b.kind = .ok v ∧ c.kind = b.kind ∧
        c.elements = b.elements.set p v ∧ r = Value.stored rs c := by
  have hstore : σ.store (Value.stored rs b) pos e =
      if σ.count rs.size ≤ pos then .error (.outOfRange pos (σ.shape rs rs.size).size)
      else σ.flatPosition (Value.stored rs b) pos >>= fun p =>
        b.set p e >>= fun c => .ok (Value.stored rs c) := by
    rw [← size_shape σ rs]
    rfl
  rw [hstore]
  constructor
  · intro h
    split at h
    · cases h
    · rename_i hpos
      obtain ⟨p, hp, h⟩ := Result.bind_eq_ok_iff.mp h
      obtain ⟨c, hc, h⟩ := Result.bind_eq_ok_iff.mp h
      obtain rfl := Except.ok.inj h
      obtain ⟨hlt, v, hv, hkind, helements⟩ := Buffer.set_eq_ok_iff.mp hc
      exact ⟨Nat.lt_of_not_le hpos, p, v, c, hp, hlt, hv, hkind, helements, rfl⟩
  · rintro ⟨hpos, p, v, c, hp, hlt, hv, hkind, helements, rfl⟩
    have hc := Buffer.set_eq_ok_iff.mpr ⟨hlt, v, hv, hkind, helements⟩
    rw [if_neg (Nat.not_le.mpr hpos)]
    exact Result.bind_eq_ok_iff.mpr ⟨p, hp, Result.bind_eq_ok_iff.mpr ⟨c, hc, rfl⟩⟩

/-- A turn of the loop stores what is supplied. -/
theorem storeNext_eq_ok_iff :
    σ.storeNext x single (Value.stored rs b) pos = .ok r ↔
      pos < σ.count rs.size ∧ ∃ p v c, σ.flatPosition (Value.stored rs b) pos = .ok p ∧
        p < b.length ∧ x.supplyAs b.kind single pos = .ok v ∧ c.kind = b.kind ∧
        c.elements = b.elements.set p v ∧ r = Value.stored rs c := by
  constructor
  · intro h
    obtain ⟨e, he, h⟩ := Result.bind_eq_ok_iff.mp h
    obtain ⟨hpos, p, v, c, hp, hlt, hv, hset⟩ := store_eq_ok_iff.mp h
    exact ⟨hpos, p, v, c, hp, hlt, Result.bind_eq_ok_iff.mpr ⟨e, he, hv⟩, hset⟩
  · rintro ⟨hpos, p, v, c, hp, hlt, hv, hset⟩
    obtain ⟨e, he, hv⟩ := Result.bind_eq_ok_iff.mp hv
    exact Result.bind_eq_ok_iff.mpr ⟨e, he, store_eq_ok_iff.mpr ⟨hpos, p, v, c, hp, hlt, hv, hset⟩⟩

/-- What is not supplied, or does not promote to the kind of the root, is not stored. -/
theorem storeNext_of_unsupplied (h : ∃ fault, x.supplyAs b.kind single pos = .error fault) :
    ∃ fault, σ.storeNext x single (Value.stored rs b) pos = .error fault := by
  obtain ⟨fault, hfault⟩ := h
  cases hnext : σ.storeNext x single (Value.stored rs b) pos with
  | error other => exact ⟨other, rfl⟩
  | ok r =>
    obtain ⟨-, p, v, c, -, -, hv, -⟩ := storeNext_eq_ok_iff.mp hnext
    cases hfault.symm.trans hv

/-- The loop leaves an array stored as the root was. -/
theorem storeAll_keeps (σ : Selection) (x : Value) (single : Bool) (rs : Shape) (b : Buffer)
    (count pos : Nat) : ∃ c : Buffer, c.kind = b.kind ∧ c.length = b.length ∧
      (σ.storeAll x single (Value.stored rs b) count pos).2 = Value.stored rs c := by
  induction count generalizing b pos with
  | zero => exact ⟨b, rfl, rfl, rfl⟩
  | succ count ih =>
    cases hnext : σ.storeNext x single (Value.stored rs b) pos with
    | error fault =>
      rw [storeAll_of_error hnext]
      exact ⟨b, rfl, rfl, rfl⟩
    | ok root =>
      rw [storeAll_of_ok hnext]
      obtain ⟨-, p, v, c, -, -, -, hkind, hset, rfl⟩ := storeNext_eq_ok_iff.mp hnext
      obtain ⟨d, hdkind, hdlength, hd⟩ := ih c (pos + 1)
      exact ⟨d, hdkind.trans hkind, hdlength.trans (Buffer.length_of_set_elements hset), hd⟩

/-- **What the loop leaves**: the root with its elements overwritten, one after the other, at the
positions that the selection has in the root, up to the end or to a store that fails. -/
theorem storeAll_prefix (hself : σ ≠ bySelf) (x : Value) (single : Bool) (rs : Shape) (b : Buffer)
    (count pos : Nat) :
    ∃ (k : Nat) (positions : List Nat) (elements : List Element) (c : Buffer),
      (List.range' pos k).mapM (σ.flatPosition (Value.stored rs b)) = .ok positions ∧
      (List.range' pos k).mapM (x.supplyAs b.kind single) = .ok elements ∧
      (∀ p ∈ positions, p < b.length) ∧ c.kind = b.kind ∧
      c.elements = overwritten b.elements (positions.zip elements) ∧
      ((k = count ∧
          σ.storeAll x single (Value.stored rs b) count pos = (.ok (), Value.stored rs c)) ∨
        ∃ fault, k < count ∧ σ.storeNext x single (Value.stored rs c) (pos + k) = .error fault ∧
          σ.storeAll x single (Value.stored rs b) count pos =
            (.error fault, Value.stored rs c)) := by
  induction count generalizing b pos with
  | zero => exact ⟨0, [], [], b, rfl, rfl, nofun, rfl, rfl, .inl ⟨rfl, rfl⟩⟩
  | succ count ih =>
    cases hnext : σ.storeNext x single (Value.stored rs b) pos with
    | error fault =>
      have hall := storeAll_of_error hnext count
      exact ⟨0, [], [], b, rfl, rfl, nofun, rfl, rfl, .inr ⟨fault, Nat.succ_pos _, hnext, hall⟩⟩
    | ok root =>
      obtain ⟨-, p, v, c, hp, hlt, hv, hkind, hset, rfl⟩ := storeNext_eq_ok_iff.mp hnext
      obtain ⟨k, ps, es, d, hps, hes, hin, hdkind, hd, hend⟩ := ih c (pos + 1)
      rw [flatPosition_stored hself c b] at hps
      rw [hkind] at hes
      refine ⟨k + 1, p :: ps, v :: es, d, ?_, ?_, ?_, hdkind.trans hkind, ?_, ?_⟩
      · rw [List.range'_succ, List.mapM_cons, hp, hps]
        rfl
      · rw [List.range'_succ, List.mapM_cons, hv, hes]
        rfl
      · rw [Buffer.length_of_set_elements hset] at hin
        exact List.forall_mem_cons.mpr ⟨hlt, hin⟩
      · rw [hd, hset]
        rfl
      · rw [storeAll_of_ok hnext, show pos + (k + 1) = pos + 1 + k by omega]
        rcases hend with ⟨rfl, hall⟩ | ⟨fault, hk, hfault, hall⟩
        · exact .inl ⟨rfl, hall⟩
        · exact .inr ⟨fault, Nat.succ_lt_succ hk, hfault, hall⟩

/-- **Elements that are not selected stay**, however far the loop gets. -/
theorem storeAll_unselected (hself : σ ≠ bySelf) (x : Value) (single : Bool) (rs : Shape)
    (b : Buffer) (count pos : Nat) :
    ∃ c : Buffer, c.kind = b.kind ∧ c.length = b.length ∧
      (∀ q : Nat, (∀ pos, σ.flatPosition (Value.stored rs b) pos ≠ .ok q) →
        c.elements[q]? = b.elements[q]?) ∧
      (σ.storeAll x single (Value.stored rs b) count pos).2 = Value.stored rs c := by
  obtain ⟨k, ps, es, c, hps, -, -, hkind, hc, hend⟩ :=
    storeAll_prefix hself x single rs b count pos
  refine ⟨c, hkind, ?_, ?_, ?_⟩
  · rw [← Buffer.length_elements, hc, length_overwritten, Buffer.length_elements]
  · intro q hq
    rw [hc]
    refine getElem?_overwritten_of_notMem fun hmem => ?_
    obtain ⟨⟨p, e⟩, hpair, rfl⟩ := List.mem_map.mp hmem
    obtain ⟨i, -, hi⟩ := Result.exists_of_mem_mapM hps (List.of_mem_zip hpair).1
    exact hq i hi
  · rcases hend with ⟨-, hall⟩ | ⟨fault, -, -, hall⟩ <;> rw [hall]

/-- **A loop that comes to its end** has overwritten the elements at all positions of the
selection. -/
theorem storeAll_eq_ok (hself : σ ≠ bySelf)
    (h : σ.storeAll x single (Value.stored rs b) count pos = (.ok (), r)) :
    ∃ positions elements c,
      (List.range' pos count).mapM (σ.flatPosition (Value.stored rs b)) = .ok positions ∧
        (List.range' pos count).mapM (x.supplyAs b.kind single) = .ok elements ∧
        (∀ p ∈ positions, p < b.length) ∧ c.kind = b.kind ∧
        c.elements = overwritten b.elements (positions.zip elements) ∧ r = Value.stored rs c := by
  obtain ⟨k, ps, es, c, hps, hes, hin, hkind, hc, ⟨rfl, hall⟩ | ⟨fault, -, -, hall⟩⟩ :=
    storeAll_prefix hself x single rs b count pos
  · exact ⟨ps, es, c, hps, hes, hin, hkind, hc, (Prod.mk.inj (h.symm.trans hall)).2⟩
  · cases (Prod.mk.inj (h.symm.trans hall)).1

/-- **The loop comes to its end** if the selection reaches elements of the root, and the elements
supplied promote to its kind. -/
theorem exists_storeAll (hself : σ ≠ bySelf) (hcount : pos + count ≤ σ.count rs.size)
    (hreach : ∀ i, i < σ.count rs.size → ∃ p, σ.flatPosition (Value.stored rs b) i = .ok p ∧
      p < b.length)
    (hsupply : ∀ i, i < σ.count rs.size → ∃ v, x.supplyAs b.kind single i = .ok v) :
    ∃ r, σ.storeAll x single (Value.stored rs b) count pos = (.ok (), r) := by
  induction count generalizing b pos with
  | zero => exact ⟨_, rfl⟩
  | succ count ih =>
    have hpos : pos < σ.count rs.size := by omega
    obtain ⟨p, hp, hlt⟩ := hreach pos hpos
    obtain ⟨v, hv⟩ := hsupply pos hpos
    obtain ⟨e, he, hpromote⟩ := Result.bind_eq_ok_iff.mp hv
    obtain ⟨c, -, hkind, helements⟩ := Buffer.exists_set hlt hpromote
    have hnext : σ.storeNext x single (Value.stored rs b) pos = .ok (Value.stored rs c) :=
      storeNext_eq_ok_iff.mpr ⟨hpos, p, v, c, hp, hlt, hv, hkind, helements, rfl⟩
    have hlength := Buffer.length_of_set_elements helements
    rw [storeAll_of_ok hnext]
    refine ih (by omega) (fun i hi => ?_) (fun i hi => ?_)
    · rw [flatPosition_stored hself c b, hlength]
      exact hreach i hi
    · rw [hkind]
      exact hsupply i hi

end Selection

end ArrayMachine
