import ArrayMachine.Scope

/-!
# A handle lives until its slot is cut

A slot is filled again after it was cut, but never with the stamp it had before: stamps are counted
up over the whole life of a stack. So a handle resolves, to the item last stored behind it, as long
as no restore has cut the stack to its slot or below, and from then on it dangles.

* `Live.step`, `Gone.step`: what one step does to an item, and to a stamp whose item is destroyed.
* `run_live`, `run_gone`: what any number of steps does.
* `handles_live_until_cut`: what a handle gives after any number of steps.
-/

namespace ArrayMachine

namespace Scope

/-- A step of a program that works on the stack. -/
inductive Step where
  | pushVariable (value : Value)
  | pushType (type : ValueType)
  | replace (handle : Handle) (value : Value)
  /-- A change in place, if it can be made. -/
  | update (handle : Handle) (change : Value → Result Value)
  | save
  | restore (mark : Nat)

/-- The stack after a step. A step that fails leaves it as it was. -/
def step (scope : Scope) : Step → Scope
  | .pushVariable value => (scope.pushVariable value).2
  | .pushType type => (scope.pushType type).2
  | .replace handle value =>
    match scope.replace handle value with
    | .ok (_, next) => next
    | .error _ => scope
  | .update handle change =>
    match scope.update handle change with
    | .ok next => next
    | .error _ => scope
  | .save => scope
  | .restore mark =>
    match scope.restore mark with
    | .ok (_, next) => next
    | .error _ => scope

/-- The stack after a sequence of steps. -/
def run (scope : Scope) : List Step → Scope
  | [] => scope
  | s :: steps => (scope.step s).run steps

/-- The step is a restore that cuts the stack to the slot or below. -/
def Step.Cuts (slot : Nat) (scope : Scope) : Step → Prop
  | .restore mark => mark ≤ scope.height ∧ mark ≤ slot
  | _ => False

instance (slot : Nat) (scope : Scope) (s : Step) : Decidable (s.Cuts slot scope) := by
  cases s <;> unfold Step.Cuts <;> infer_instance

/-- Some step of a run from the stack cuts it to the slot or below. -/
def Cut (slot : Nat) (scope : Scope) : List Step → Prop
  | [] => False
  | s :: steps => s.Cuts slot scope ∨ Cut slot (scope.step s) steps

instance decidableCut (slot : Nat) (scope : Scope) : (steps : List Step) →
    Decidable (Cut slot scope steps)
  | [] => inferInstanceAs (Decidable False)
  | s :: steps =>
    have := decidableCut slot (scope.step s) steps
    inferInstanceAs (Decidable (s.Cuts slot scope ∨ Cut slot (scope.step s) steps))

/-- The value of a variable after a step that does not destroy it. -/
def Step.stored (handle : Handle) (value : Value) : Step → Value
  | .replace other new => if other = handle then new else value
  | .update other change =>
    if other = handle then
      match change value with
      | .ok new => new
      | .error _ => value
    else value
  | _ => value

/-- The value last stored under a handle: by the push, or by a step since. -/
def lastStored (handle : Handle) (value : Value) : List Step → Value
  | [] => value
  | s :: steps => lastStored handle (s.stored handle value) steps

variable {scope : Scope} {slot stamp : Nat} {item : Item}

/-! ## Items and stamps -/

/-- The item is in the slot, with a stamp that will not be given again. -/
structure Live (scope : Scope) (slot stamp : Nat) (item : Item) : Prop where
  found : scope.slots[slot]? = some ⟨stamp, item⟩
  stamp_lt : stamp < scope.nextStamp

/-- The stamp was given, and the slot does not have it. -/
structure Gone (scope : Scope) (slot stamp : Nat) : Prop where
  other : ∀ s, scope.slots[slot]? = some s → s.stamp ≠ stamp
  stamp_lt : stamp < scope.nextStamp

theorem Live.item_eq (h : scope.Live slot stamp item) : scope.item slot stamp = .ok item := by
  unfold Scope.item
  rw [h.found]
  exact if_pos rfl

theorem Gone.item_eq (h : scope.Gone slot stamp) :
    scope.item slot stamp = .error (.danglingHandle slot) := by
  unfold Scope.item
  split
  · rename_i s hs
    exact if_neg (h.other s hs)
  · rfl

theorem Live.lt_height (h : scope.Live slot stamp item) : slot < scope.height :=
  (List.getElem?_eq_some_iff.mp h.found).1

/-- A handle that resolves refers to the slot's own item. -/
theorem get_eq_ok {handle : Handle} {value : Value} (h : scope.get handle = .ok value) :
    scope.slots[handle.slot]? = some ⟨handle.stamp, .value value⟩ := by
  unfold get item at h
  split at h
  · rename_i s hs
    split at h
    · rename_i hstamp
      obtain ⟨st, it⟩ := s
      cases it with
      | value v =>
        rw [hs]
        simp only at hstamp
        rw [hstamp, Except.ok.inj h]
      | type t => cases h
    · cases h
  · cases h

/-! ## One step -/

/-- Pushing gives the new slot a new stamp. -/
theorem live_push (scope : Scope) (item : Item) :
    (scope.push item).Live scope.height scope.nextStamp item := by
  refine ⟨?_, Nat.lt_succ_self _⟩
  unfold push height
  exact List.getElem?_concat_length

theorem Live.push (h : scope.Live slot stamp item) (new : Item) :
    (scope.push new).Live slot stamp item := by
  refine ⟨?_, Nat.lt_succ_of_lt h.stamp_lt⟩
  unfold Scope.push
  exact (List.getElem?_append_left h.lt_height).trans h.found

/-- A slot filled again gets a new stamp, not the one that is gone. -/
theorem Gone.push (h : scope.Gone slot stamp) (new : Item) : (scope.push new).Gone slot stamp := by
  have hlt := h.stamp_lt
  refine ⟨fun s hs => ?_, Nat.lt_succ_of_lt hlt⟩
  unfold Scope.push at hs
  simp only at hs
  by_cases hslot : slot < scope.slots.length
  · rw [List.getElem?_append_left hslot] at hs
    exact h.other s hs
  · rw [List.getElem?_append_right (by omega)] at hs
    obtain rfl : s = ⟨scope.nextStamp, new⟩ := by
      have := List.mem_of_getElem? hs
      simpa using this
    simp only
    omega

/-- Writing changes the item behind the handle and no other. -/
theorem Live.write (h : scope.Live slot stamp item) {handle : Handle} {old : Value}
    (hget : scope.get handle = .ok old) (new : Value) :
    (scope.write handle new).Live slot stamp
      (if handle = ⟨slot, stamp⟩ then .value new else item) := by
  have hfound := get_eq_ok hget
  refine ⟨?_, h.stamp_lt⟩
  unfold Scope.write
  by_cases hslot : handle.slot = slot
  · have hs := h.found
    rw [← hslot, hfound] at hs
    simp only [Option.some.injEq, Slot.mk.injEq] at hs
    rw [if_pos (by rw [← hslot, ← hs.1]), ← hslot, ← hs.1]
    exact List.getElem?_set_self (List.getElem?_eq_some_iff.mp hfound).1
  · rw [if_neg (fun he => hslot (congrArg Handle.slot he))]
    exact (List.getElem?_set_ne hslot).trans h.found

/-- Writing gives no slot another stamp. -/
theorem Gone.write (h : scope.Gone slot stamp) {handle : Handle} {old : Value}
    (hget : scope.get handle = .ok old) (new : Value) :
    (scope.write handle new).Gone slot stamp := by
  have hfound := get_eq_ok hget
  refine ⟨fun s hs => ?_, h.stamp_lt⟩
  unfold Scope.write at hs
  simp only at hs
  by_cases hslot : handle.slot = slot
  · rw [← hslot, List.getElem?_set_self (List.getElem?_eq_some_iff.mp hfound).1] at hs
    have := h.other _ (hslot ▸ hfound)
    rw [← Option.some.inj hs]
    exact this
  · rw [List.getElem?_set_ne hslot] at hs
    exact h.other s hs

/-- Replacing a value is changing it to the new one. -/
theorem step_replace (scope : Scope) (handle : Handle) (value : Value) :
    scope.step (.replace handle value) = scope.step (.update handle fun _ => .ok value) := by
  simp only [step, replace, update]
  cases scope.get handle <;> rfl

/-- A change in place writes to a variable that is there, or nothing. -/
theorem step_update (scope : Scope) (handle : Handle) (change : Value → Result Value) :
    scope.step (.update handle change) = scope ∨
      ∃ old new, scope.get handle = .ok old ∧
        scope.step (.update handle change) = scope.write handle new := by
  simp only [step, update]
  cases scope.get handle with
  | error fault => exact Or.inl rfl
  | ok old =>
    cases hnew : change old with
    | error fault =>
      left
      simp only [bind, Except.bind, hnew]
    | ok new =>
      right
      refine ⟨old, new, rfl, ?_⟩
      simp only [bind, Except.bind, pure, Except.pure, hnew]

/-- A restore keeps the slots below its mark, or nothing happens. -/
theorem step_restore (scope : Scope) (mark : Nat) :
    (scope.step (.restore mark)).nextStamp = scope.nextStamp ∧
      (scope.step (.restore mark)).slots =
        if mark ≤ scope.height then scope.slots.take mark else scope.slots := by
  simp only [step, restore]
  by_cases hmark : scope.height < mark
  · rw [if_pos hmark, if_neg (by omega)]
    exact ⟨rfl, rfl⟩
  · rw [if_neg hmark, if_pos (by omega)]
    exact ⟨rfl, rfl⟩

/-- What a step leaves behind a handle. -/
def Step.keep (s : Step) (handle : Handle) : Item → Item
  | .value value => .value (s.stored handle value)
  | .type type => .type type

theorem Live.update (h : scope.Live slot stamp item) (handle : Handle)
    (change : Value → Result Value) :
    (scope.step (.update handle change)).Live slot stamp
      ((Step.update handle change).keep ⟨slot, stamp⟩ item) := by
  by_cases hhandle : handle = ⟨slot, stamp⟩
  · subst hhandle
    cases item with
    | value v =>
      have hget : scope.get ⟨slot, stamp⟩ = .ok v := by
        unfold get
        rw [h.item_eq]
        rfl
      simp only [step, Scope.update, Step.keep, Step.stored, if_true, hget, bind, Except.bind]
      cases change v with
      | error fault => exact h
      | ok new =>
        have hw := h.write hget new
        rw [if_pos rfl] at hw
        exact hw
    | type t =>
      -- a variable's handle does not reach a type
      rcases step_update scope ⟨slot, stamp⟩ change with hs | ⟨old, new, hold, -⟩
      · rw [hs]
        exact h
      · have hfound := get_eq_ok hold
        rw [h.found] at hfound
        simp at hfound
  · have hkeep : (Step.update handle change).keep ⟨slot, stamp⟩ item = item := by
      cases item with
      | value v => simp only [Step.keep, Step.stored, if_neg hhandle]
      | type t => rfl
    rw [hkeep]
    rcases step_update scope handle change with hs | ⟨old, new, hold, hs⟩
    · rw [hs]
      exact h
    · have hw := h.write hold new
      rw [if_neg hhandle] at hw
      rw [hs]
      exact hw

/-- **A step keeps what it does not cut.** The item stays, or is what the step stores behind it. -/
theorem Live.step (h : scope.Live slot stamp item) (s : Step) (hcut : ¬ s.Cuts slot scope) :
    (scope.step s).Live slot stamp (s.keep ⟨slot, stamp⟩ item) := by
  cases s with
  | pushVariable value => cases item <;> exact h.push _
  | pushType type => cases item <;> exact h.push _
  | replace handle value =>
    rw [step_replace]
    have := h.update handle fun _ => .ok value
    cases item <;> exact this
  | update handle change => exact h.update handle change
  | save => cases item <;> exact h
  | restore mark =>
    obtain ⟨hnext, hslots⟩ := step_restore scope mark
    have hslot : (scope.step (.restore mark)).slots[slot]? = scope.slots[slot]? := by
      rw [hslots]
      split
      · rename_i hmark
        exact List.getElem?_take_of_lt (Nat.lt_of_not_le fun hle => hcut ⟨hmark, hle⟩)
      · rfl
    have hlive : (scope.step (.restore mark)).Live slot stamp item :=
      ⟨hslot.trans h.found, hnext ▸ h.stamp_lt⟩
    cases item <;> exact hlive

/-- A step that cuts the slot destroys its item. -/
theorem Live.cut (h : scope.Live slot stamp item) {s : Step} (hcut : s.Cuts slot scope) :
    (scope.step s).Gone slot stamp := by
  cases s with
  | restore mark =>
    obtain ⟨hnext, hslots⟩ := step_restore scope mark
    obtain ⟨hmark, hle⟩ := hcut
    refine ⟨fun s hs => ?_, hnext ▸ h.stamp_lt⟩
    rw [hslots, if_pos hmark, List.getElem?_eq_none (by rw [List.length_take]; omega)] at hs
    cases hs
  | _ => exact hcut.elim

/-- **No step brings a destroyed item back.** -/
theorem Gone.step (h : scope.Gone slot stamp) (s : Step) : (scope.step s).Gone slot stamp := by
  have hupdate : ∀ handle change, (scope.step (.update handle change)).Gone slot stamp := by
    intro handle change
    rcases step_update scope handle change with hs | ⟨old, new, hold, hs⟩
    · rw [hs]
      exact h
    · rw [hs]
      exact h.write hold new
  cases s with
  | pushVariable value => exact h.push _
  | pushType type => exact h.push _
  | replace handle value =>
    rw [step_replace]
    exact hupdate handle _
  | update handle change => exact hupdate handle change
  | save => exact h
  | restore mark =>
    obtain ⟨hnext, hslots⟩ := step_restore scope mark
    refine ⟨fun s hs => h.other s ?_, hnext ▸ h.stamp_lt⟩
    rw [hslots] at hs
    split at hs
    · rw [List.getElem?_take] at hs
      split at hs
      · exact hs
      · cases hs
    · exact hs

/-! ## Any number of steps -/

/-- What a run leaves behind a handle. -/
def kept (handle : Handle) : Item → List Step → Item
  | .value value, steps => .value (lastStored handle value steps)
  | .type type, _ => .type type

theorem kept_cons (handle : Handle) (item : Item) (s : Step) (steps : List Step) :
    kept handle item (s :: steps) = kept handle (s.keep handle item) steps := by
  cases item <;> rfl

theorem run_gone (h : scope.Gone slot stamp) (steps : List Step) :
    (scope.run steps).Gone slot stamp := by
  induction steps generalizing scope with
  | nil => exact h
  | cons s steps ih => exact ih (h.step s)

theorem run_live (h : scope.Live slot stamp item) {steps : List Step}
    (hcut : ¬ Cut slot scope steps) :
    (scope.run steps).Live slot stamp (kept ⟨slot, stamp⟩ item steps) := by
  induction steps generalizing scope item with
  | nil => cases item <;> exact h
  | cons s steps ih =>
    obtain ⟨hs, hrest⟩ := not_or.mp hcut
    rw [kept_cons]
    exact ih (h.step s hs) hrest

theorem run_cut (h : scope.Live slot stamp item) {steps : List Step} (hcut : Cut slot scope steps) :
    (scope.run steps).Gone slot stamp := by
  induction steps generalizing scope item with
  | nil => exact hcut.elim
  | cons s steps ih =>
    by_cases hs : s.Cuts slot scope
    · exact run_gone (h.cut hs) steps
    · exact ih (h.step s hs) (hcut.resolve_left hs)

/-- What is behind a slot and a stamp after a run. -/
theorem item_run (h : scope.Live slot stamp item) (steps : List Step) :
    (scope.run steps).item slot stamp =
      if Cut slot scope steps then .error (.danglingHandle slot)
      else .ok (kept ⟨slot, stamp⟩ item steps) := by
  by_cases hcut : Cut slot scope steps
  · rw [if_pos hcut]
    exact (run_cut h hcut).item_eq
  · rw [if_neg hcut]
    exact (run_live h hcut).item_eq

/-- **Handles live until their slot is cut.** Whatever is done to a stack after a push, the handle
gives the value last stored under it, or the type pushed, as long as no restore has cut the stack to
its slot or below. From then on it dangles, however often the slot is filled again. -/
theorem handles_live_until_cut (scope : Scope) (steps : List Step) :
    (∀ value, ((scope.pushVariable value).2.run steps).get (scope.pushVariable value).1 =
      if Cut scope.height (scope.pushVariable value).2 steps then
        .error (.danglingHandle scope.height)
      else .ok (lastStored (scope.pushVariable value).1 value steps)) ∧
    (∀ type, ((scope.pushType type).2.run steps).getType (scope.pushType type).1 =
      if Cut scope.height (scope.pushType type).2 steps then
        .error (.danglingHandle scope.height)
      else .ok type) := by
  constructor
  · intro value
    have h := item_run (live_push scope (.value value)) steps
    unfold get
    show ((scope.push (.value value)).run steps).item scope.height scope.nextStamp >>= _ = _
    rw [h]
    by_cases hcut : Cut scope.height (scope.push (.value value)) steps
    · rw [if_pos hcut]
      exact (if_pos hcut).symm
    · rw [if_neg hcut]
      exact (if_neg hcut).symm
  · intro type
    have h := item_run (live_push scope (.type type)) steps
    unfold getType
    show ((scope.push (.type type)).run steps).item scope.height scope.nextStamp >>= _ = _
    rw [h]
    by_cases hcut : Cut scope.height (scope.push (.type type)) steps
    · rw [if_pos hcut]
      exact (if_pos hcut).symm
    · rw [if_neg hcut]
      exact (if_neg hcut).symm

end Scope

end ArrayMachine
