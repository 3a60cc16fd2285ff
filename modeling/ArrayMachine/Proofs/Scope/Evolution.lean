import ArrayMachine.Proofs.Scope.Liveness
import ArrayMachine.Proofs.Value.Stored

/-!
# How a stack evolves

One stack comes after another (`Scope.Evolves`) if no stamp was given back and every variable that
was there before, and still is, has kept its type, and its storage if its elements were stored. A
push, a write that keeps the type and a restore each lead to such a stack, and so does any sequence
of them. New variables may take old slots, but not under old stamps.

* `get_push`, `get_write`, `get_restore`: what a handle that resolves after an operation was before.
* `evolves_push`, `evolves_write`, `evolves_restore`: one operation.
* `Evolves.trans`: any number of them.
-/

namespace ArrayMachine

/-- `w` has the type of `v`, and is stored as `v` was. -/
structure Value.Keeps (v w : Value) : Prop where
  type : w.type = v.type
  stored : ∀ {shape : Shape}, v.StoredAs shape → w.StoredAs shape

theorem Value.Keeps.refl (v : Value) : v.Keeps v := ⟨rfl, id⟩

theorem Value.Keeps.trans {u v w : Value} (h : u.Keeps v) (h' : v.Keeps w) : u.Keeps w :=
  ⟨h'.type.trans h.type, fun hu => h'.stored (h.stored hu)⟩

namespace Scope

variable {s t u : Scope} {handle other : Handle} {v w : Value}

/-! ## Handles before and after -/

theorem get_of_slot (h : s.slots[handle.slot]? = some ⟨handle.stamp, .value v⟩) :
    s.get handle = .ok v := by
  unfold get item
  rw [h]
  simp only [if_true]
  rfl

/-- Nothing resolves in the empty stack. -/
theorem get_empty (capacity : Nat) : (empty capacity).get handle ≠ .ok v := by
  intro h
  have hslot := get_eq_ok h
  cases hslot

/-- After a push, a handle refers to the new item, or to what it did before. -/
theorem get_push {item : Item} (h : (s.push item).get handle = .ok v) :
    (handle = ⟨s.height, s.nextStamp⟩ ∧ item = .value v) ∨ s.get handle = .ok v := by
  have hslot := get_eq_ok h
  unfold push at hslot
  simp only at hslot
  by_cases hlt : handle.slot < s.slots.length
  · rw [List.getElem?_append_left hlt] at hslot
    exact .inr (get_of_slot hslot)
  · left
    obtain ⟨hlen, -⟩ := List.getElem?_eq_some_iff.mp hslot
    have heq : handle.slot = s.slots.length := by
      rw [List.length_append, List.length_singleton] at hlen
      omega
    rw [heq, List.getElem?_concat_length, Option.some.injEq, Slot.mk.injEq] at hslot
    obtain ⟨slot, stamp⟩ := handle
    obtain ⟨rfl, hitem⟩ := hslot
    obtain rfl : slot = s.slots.length := heq
    exact ⟨rfl, hitem⟩

/-- After a write, the written handle refers to the new value, and every other to what it did. -/
theorem get_write (hold : s.get handle = .ok v) {new : Value}
    (h : (s.write handle new).get other = .ok w) :
    (other = handle ∧ w = new) ∨ s.get other = .ok w := by
  have hfound := get_eq_ok hold
  have hslot := get_eq_ok h
  unfold write at hslot
  simp only at hslot
  by_cases heq : handle.slot = other.slot
  · rw [← heq, List.getElem?_set_self (List.getElem?_eq_some_iff.mp hfound).1, Option.some.injEq,
      Slot.mk.injEq, Item.value.injEq] at hslot
    obtain ⟨hstamp, rfl⟩ := hslot
    left
    obtain ⟨slot, stamp⟩ := handle
    obtain ⟨slot', stamp'⟩ := other
    simp only at heq hstamp
    rw [heq, hstamp]
    exact ⟨rfl, rfl⟩
  · rw [List.getElem?_set_ne heq] at hslot
    exact .inr (get_of_slot hslot)

/-- What resolves after a restore referred to the same before it. -/
theorem get_restore {mark : Nat} {items : List Item} (hrestore : s.restore mark = .ok (items, t))
    (h : t.get handle = .ok v) : s.get handle = .ok v := by
  unfold restore at hrestore
  split at hrestore
  · cases hrestore
  · obtain ⟨-, rfl⟩ := Prod.mk.inj (Except.ok.inj hrestore)
    have hslot := get_eq_ok h
    simp only [List.getElem?_take] at hslot
    split at hslot
    · exact get_of_slot hslot
    · cases hslot

theorem nextStamp_restore {mark : Nat} {items : List Item}
    (h : s.restore mark = .ok (items, t)) : t.nextStamp = s.nextStamp := by
  unfold restore at h
  split at h
  · cases h
  · obtain ⟨-, rfl⟩ := Prod.mk.inj (Except.ok.inj h)
    rfl

/-! ## Later stacks -/

/-- Stamps were only counted up, and what was there before and still is has kept its type. -/
structure Evolves (s t : Scope) : Prop where
  stamps : s.nextStamp ≤ t.nextStamp
  kept : ∀ {handle : Handle} {w : Value}, handle.stamp < s.nextStamp → t.get handle = .ok w →
    ∃ v, s.get handle = .ok v ∧ v.Keeps w

theorem Evolves.refl (s : Scope) : s.Evolves s :=
  ⟨Nat.le_refl _, fun _ h => ⟨_, h, .refl _⟩⟩

/-- **Later is transitive.** -/
theorem Evolves.trans (h : s.Evolves t) (h' : t.Evolves u) : s.Evolves u := by
  constructor
  · exact Nat.le_trans h.stamps h'.stamps
  · intro handle w hstamp hw
    obtain ⟨v, hv, hvw⟩ := h'.kept (Nat.lt_of_lt_of_le hstamp h.stamps) hw
    obtain ⟨x, hx, hxv⟩ := h.kept hstamp hv
    exact ⟨x, hx, hxv.trans hvw⟩

theorem evolves_push (s : Scope) (item : Item) : s.Evolves (s.push item) := by
  constructor
  · exact Nat.le_succ _
  · intro handle w hstamp hw
    rcases get_push hw with ⟨rfl, -⟩ | hold
    · -- the new handle has the stamp that was next
      exact absurd hstamp (Nat.lt_irrefl _)
    · exact ⟨w, hold, .refl w⟩

theorem evolves_write (hold : s.get handle = .ok v) (hkeeps : v.Keeps w) :
    s.Evolves (s.write handle w) := by
  constructor
  · exact Nat.le_refl _
  · intro other x _ hx
    rcases get_write hold hx with ⟨rfl, rfl⟩ | hsame
    · exact ⟨v, hold, hkeeps⟩
    · exact ⟨x, hsame, .refl x⟩

theorem evolves_restore {mark : Nat} {items : List Item} (h : s.restore mark = .ok (items, t)) :
    s.Evolves t :=
  ⟨Nat.le_of_eq (nextStamp_restore h).symm, fun _ hw => ⟨_, get_restore h hw, .refl _⟩⟩

end Scope

end ArrayMachine
