import ArrayMachine.Proofs.Scope.Liveness
import Mathlib.Data.List.Perm.Basic

/-!
# Every item is destroyed once

A restore takes the items above its mark off the stack one by one, newest first, and shows each to a
visitor (`Scope.restoreWith`, which `restoreWith_eq` says is `Scope.restore` turn by turn). Stamps
number the pushes of a run, so the slots on the stack and the slots shown to visitors so far can be
held against the list of all pushes: this is the ledger of the run (`Scope.Ledger`).

* `Ledger.step`: each push, save and restore keeps the ledger; so does any run of them
  (`ledger_run`).
* `Ledger.destroys`: what a restore of a mark up to the height does.
* `destroyed_once`: after any run every item pushed is on the stack or was destroyed, once.
-/

namespace ArrayMachine.Scope

variable {scope : Scope} {σ : Type}

/-! ## A restore, item by item -/

/-- The loop of a restore: while the stack is higher than the mark, its newest slot is taken off and
the item shown to the visitor. The slots taken off are counted. -/
def popAbove (visit : σ → Item → σ) (mark : Nat) (slots : List Slot) (seen : σ) (count : Nat) :
    Nat × σ × List Slot :=
  if mark < slots.length then
    match slots.getLast? with
    | some newest => popAbove visit mark slots.dropLast (visit seen newest.item) (count + 1)
    | none => (count, seen, slots)
  else (count, seen, slots)
termination_by slots.length
decreasing_by
  rw [List.length_dropLast]
  omega

/-- A restore with a visitor: the number of items destroyed, what the visitor has made of them, and
the stack afterwards. -/
def restoreWith (visit : σ → Item → σ) (scope : Scope) (mark : Nat) (seen : σ) :
    Result Nat × σ × Scope :=
  if scope.height < mark then (.error (.invalidMark mark scope.height), seen, scope)
  else
    let (count, seen, slots) := popAbove visit mark scope.slots seen 0
    (.ok count, seen, { scope with slots })

/-- The slots above the mark, newest first. -/
def above (scope : Scope) (mark : Nat) : List Slot := (scope.slots.drop mark).reverse

/-- The loop shows the items above the mark in turn and leaves those below. -/
theorem popAbove_eq (visit : σ → Item → σ) (mark : Nat) (slots : List Slot) (seen : σ)
    (count : Nat) :
    popAbove visit mark slots seen count =
      (count + (slots.drop mark).length,
        ((slots.drop mark).reverse.map Slot.item).foldl visit seen, slots.take mark) := by
  fun_induction popAbove visit mark slots seen count with
  | case1 slots seen count hlt newest hnewest ih =>
    obtain ⟨older, rfl⟩ := List.getLast?_eq_some_iff.mp hnewest
    rw [List.length_append, List.length_singleton] at hlt
    have hmark : mark ≤ older.length := Nat.le_of_lt_succ hlt
    rw [ih, List.dropLast_concat, List.drop_append_of_le_length hmark,
      List.take_append_of_le_length hmark]
    simp [Nat.add_comm, Nat.add_left_comm]
  | case2 slots seen count hlt hnone =>
    rw [List.getLast?_eq_none_iff.mp hnone] at hlt
    exact absurd hlt (Nat.not_lt_zero mark)
  | case3 slots seen count hge =>
    have hle : slots.length ≤ mark := Nat.le_of_not_lt hge
    rw [List.drop_eq_nil_of_le hle, List.take_of_length_le hle]
    rfl

/-- **A restore is its loop**: it gives the items in the order in which the visitor sees them. -/
theorem restoreWith_eq (visit : σ → Item → σ) (scope : Scope) (mark : Nat) (seen : σ) :
    scope.restoreWith visit mark seen =
      match scope.restore mark with
      | .ok (items, rest) => (.ok items.length, items.foldl visit seen, rest)
      | .error fault => (.error fault, seen, scope) := by
  unfold restoreWith restore
  split
  · rfl
  · rw [popAbove_eq]
    simp

/-! ## Runs of pushes, saves and restores -/

/-- A step that changes no value. -/
inductive Move where
  | push (item : Item)
  | save
  | restore (mark : Nat)

namespace Move

def step : Move → Step
  | push (.value value) => .pushVariable value
  | push (.type type) => .pushType type
  | save => .save
  | restore mark => .restore mark

/-- The item that is pushed, if one is. -/
def pushed : Move → List Item
  | push item => [item]
  | save => []
  | restore _ => []

/-- The slots that are destroyed, newest first. -/
def destroyed (scope : Scope) : Move → List Slot
  | push _ => []
  | save => []
  | restore mark => if mark ≤ scope.height then scope.above mark else []

end Move

/-- The stack after a run of moves. -/
def after (scope : Scope) (moves : List Move) : Scope := scope.run (moves.map Move.step)

/-- The slots destroyed in a run, in the order of their destruction. -/
def destroyed (scope : Scope) : List Move → List Slot
  | [] => []
  | move :: moves => move.destroyed scope ++ (scope.step move.step).destroyed moves

/-- A run of moves with one visitor to all its restores: the stack it leaves, and what the visitor
has made of the items. -/
def perform (visit : σ → Item → σ) (scope : Scope) (seen : σ) : List Move → Scope × σ
  | [] => (scope, seen)
  | .restore mark :: moves =>
    let (_, seen, next) := scope.restoreWith visit mark seen
    next.perform visit seen moves
  | move :: moves => (scope.step move.step).perform visit seen moves

/-- A restore of a run shows the visitor the slots that it destroys. -/
theorem restoreWith_move (visit : σ → Item → σ) (scope : Scope) (mark : Nat) (seen : σ) :
    (scope.restoreWith visit mark seen).2 =
      ((((Move.restore mark).destroyed scope).map Slot.item).foldl visit seen,
        scope.step (Move.restore mark).step) := by
  rw [restoreWith_eq]
  simp only [Move.destroyed, Move.step, step, restore]
  by_cases hmark : scope.height < mark
  · rw [if_pos hmark, if_neg (by omega)]
    rfl
  · rw [if_neg hmark, if_pos (by omega)]
    rfl

/-- The visitor of a run sees the items destroyed in it, in order. -/
theorem perform_eq (visit : σ → Item → σ) (scope : Scope) (seen : σ) (moves : List Move) :
    scope.perform visit seen moves =
      (scope.after moves, ((scope.destroyed moves).map Slot.item).foldl visit seen) := by
  induction moves generalizing scope seen with
  | nil => rfl
  | cons move moves ih =>
    have hrest (next : Scope) (seen' : σ)
        (hnext : next = scope.step move.step)
        (hseen : seen' = ((move.destroyed scope).map Slot.item).foldl visit seen) :
        next.perform visit seen' moves = (scope.after (move :: moves),
          ((scope.destroyed (move :: moves)).map Slot.item).foldl visit seen) := by
      rw [ih, hnext, hseen, destroyed, List.map_append, List.foldl_append]
      rfl
    cases move with
    | push item => exact hrest _ _ rfl rfl
    | save => exact hrest _ _ rfl rfl
    | restore mark =>
      have hmove := restoreWith_move visit scope mark seen
      exact hrest _ _ (congrArg Prod.snd hmove) (congrArg Prod.fst hmove)

/-! ## The ledger of a run -/

/-- Of all items pushed so far, by number, those in the slots of the stack and those in the slots
gone. -/
structure Ledger (items : List Item) (gone : List Slot) (scope : Scope) : Prop where
  next_eq : scope.nextStamp = items.length
  /-- A slot further up was pushed later. -/
  sorted : scope.slots.Pairwise fun older newer => older.stamp < newer.stamp
  /-- Each push has one slot, on the stack or gone. -/
  once : ((scope.slots ++ gone).map Slot.stamp).Perm (List.range items.length)
  /-- The slot of a push holds what was pushed. -/
  item : ∀ slot ∈ scope.slots ++ gone, items[slot.stamp]? = some slot.item

variable {items : List Item} {gone : List Slot}

theorem ledger_empty (capacity : Nat) : Ledger [] [] (empty capacity) :=
  ⟨rfl, .nil, .refl _, by simp [empty]⟩

theorem Ledger.stamp_lt (h : Ledger items gone scope) {slot : Slot}
    (hslot : slot ∈ scope.slots ++ gone) : slot.stamp < items.length := by
  have hmem := h.once.mem_iff.mp (List.mem_map_of_mem hslot)
  exact List.mem_range.mp hmem

/-- A push enters the next number. -/
theorem Ledger.push (h : Ledger items gone scope) (new : Item) :
    Ledger (items ++ [new]) gone (scope.push new) := by
  have hslots : (scope.push new).slots = scope.slots ++ [⟨items.length, new⟩] := by
    rw [← h.next_eq]
    rfl
  constructor
  · rw [List.length_append, ← h.next_eq]
    rfl
  · rw [hslots, List.pairwise_append]
    refine ⟨h.sorted, List.pairwise_singleton _ _, fun older hold newer hnew => ?_⟩
    obtain rfl := List.mem_singleton.mp hnew
    exact h.stamp_lt (List.mem_append_left _ hold)
  · rw [hslots, List.length_append, List.length_singleton, List.range_succ, List.append_assoc,
      List.singleton_append, List.map_append, List.map_cons]
    refine List.perm_middle.trans ?_
    rw [← List.map_append]
    exact (h.once.cons _).trans (List.perm_append_singleton _ _).symm
  · intro slot hslot
    rw [hslots, List.append_assoc, List.singleton_append] at hslot
    rcases List.mem_cons.mp (List.perm_middle.mem_iff.mp hslot) with rfl | hold
    · exact List.getElem?_concat_length
    · rw [List.getElem?_append_left (h.stamp_lt hold)]
      exact h.item slot hold

/-- A restore moves the slots above its mark to those gone. -/
theorem Ledger.cut (h : Ledger items gone scope) (mark : Nat) :
    Ledger items (gone ++ scope.above mark) { scope with slots := scope.slots.take mark } := by
  have hmoved : (scope.slots.take mark ++ (gone ++ scope.above mark)).Perm
      (scope.slots ++ gone) := by
    have habove : (gone ++ scope.above mark).Perm (scope.slots.drop mark ++ gone) :=
      List.perm_append_comm.trans ((List.reverse_perm _).append_right gone)
    have hall := habove.append_left (scope.slots.take mark)
    rwa [← List.append_assoc (scope.slots.take mark) (scope.slots.drop mark),
      List.take_append_drop] at hall
  exact ⟨h.next_eq, h.sorted.sublist (List.take_sublist _ _),
    (hmoved.map _).trans h.once, fun slot hslot => h.item slot (hmoved.mem_iff.mp hslot)⟩

/-- **A move keeps the ledger.** -/
theorem Ledger.step (h : Ledger items gone scope) (move : Move) :
    Ledger (items ++ move.pushed) (gone ++ move.destroyed scope) (scope.step move.step) := by
  cases move with
  | push item =>
    rw [Move.pushed, Move.destroyed, List.append_nil]
    cases item <;> exact h.push _
  | save =>
    rw [Move.pushed, Move.destroyed, List.append_nil, List.append_nil]
    exact h
  | restore mark =>
    rw [Move.pushed, List.append_nil]
    simp only [Move.destroyed, Move.step, Scope.step, restore]
    by_cases hmark : scope.height < mark
    · rw [if_pos hmark, if_neg (by omega), List.append_nil]
      exact h
    · rw [if_neg hmark, if_pos (by omega)]
      exact h.cut mark

/-- All items pushed in a run, in order. -/
def pushed (moves : List Move) : List Item := moves.flatMap Move.pushed

theorem Ledger.run (h : Ledger items gone scope) (moves : List Move) :
    Ledger (items ++ pushed moves) (gone ++ scope.destroyed moves) (scope.after moves) := by
  induction moves generalizing scope items gone with
  | nil =>
    rw [pushed, List.flatMap_nil, destroyed, List.append_nil, List.append_nil]
    exact h
  | cons move moves ih =>
    have hrest := ih (h.step move)
    rw [List.append_assoc, List.append_assoc] at hrest
    exact hrest

/-! ## What a restore does -/

/-- What is destroyed above a mark, newest first, and what is left. -/
structure Destroys (scope : Scope) (mark : Nat) (destroyed : List Slot) (rest : Scope) : Prop where
  /-- Together they are the stack as it was. -/
  slots_eq : scope.slots = rest.slots ++ destroyed.reverse
  /-- Saving gives the mark again. -/
  height_eq : rest.height = mark
  /-- What was pushed last is destroyed first. -/
  newest_first : destroyed.Pairwise fun earlier later => later.stamp < earlier.stamp
  /-- Handles to what is left give what they gave. -/
  get_eq : ∀ handle : Handle, handle.slot < mark → rest.get handle = scope.get handle
  getType_eq : ∀ handle : TypeHandle, handle.slot < mark → rest.getType handle = scope.getType handle

/-- **A restore destroys what is above its mark**, newest first, and nothing else. -/
theorem Ledger.destroys (h : Ledger items gone scope) {mark : Nat} (hmark : mark ≤ scope.height) :
    ∃ rest, scope.restore mark = .ok ((scope.above mark).map Slot.item, rest) ∧
      scope.Destroys mark (scope.above mark) rest := by
  have hitem (slot stamp : Nat) (hslot : slot < mark) :
      ({ scope with slots := scope.slots.take mark } : Scope).item slot stamp =
        scope.item slot stamp := by
    unfold Scope.item
    rw [List.getElem?_take_of_lt hslot]
  refine ⟨{ scope with slots := scope.slots.take mark }, if_neg (Nat.not_lt.mpr hmark), ?_⟩
  constructor
  · rw [above, List.reverse_reverse, List.take_append_drop]
  · rw [height, List.length_take]
    exact Nat.min_eq_left hmark
  · exact List.pairwise_reverse.mpr (h.sorted.sublist (List.drop_sublist _ _))
  · intro handle hslot
    unfold get
    rw [hitem _ _ hslot]
  · intro handle hslot
    unfold getType
    rw [hitem _ _ hslot]

/-- **Every item pushed is on the stack or was destroyed, once.** After any run of pushes, saves and
restores, the stamps in the slots and in the slots shown to visitors are the numbers of all pushes,
each once, and each slot holds what was pushed under its number. From there, a restore of a mark up
to the height shows the visitor the slots above it, newest first, gives their number and leaves the
others; one of a higher mark fails, shows nothing and changes nothing. -/
theorem destroyed_once (capacity : Nat) (moves : List Move) :
    let scope := (empty capacity).after moves
    ∃ gone : List Slot,
      (∀ {σ : Type} (visit : σ → Item → σ) (seen : σ),
        (empty capacity).perform visit seen moves =
          (scope, (gone.map Slot.item).foldl visit seen)) ∧
      ((scope.slots ++ gone).map Slot.stamp).Perm (List.range (pushed moves).length) ∧
      (∀ slot ∈ scope.slots ++ gone, (pushed moves)[slot.stamp]? = some slot.item) ∧
      ∀ mark,
        (mark ≤ scope.height → ∃ destroyed rest, scope.Destroys mark destroyed rest ∧
          scope.restore mark = .ok (destroyed.map Slot.item, rest) ∧
          ∀ {σ : Type} (visit : σ → Item → σ) (seen : σ),
            scope.restoreWith visit mark seen =
              (.ok destroyed.length, (destroyed.map Slot.item).foldl visit seen, rest)) ∧
        (scope.height < mark → scope.restore mark = .error (.invalidMark mark scope.height) ∧
          ∀ {σ : Type} (visit : σ → Item → σ) (seen : σ),
            scope.restoreWith visit mark seen =
              (.error (.invalidMark mark scope.height), seen, scope)) := by
  intro scope
  have h := (ledger_empty capacity).run moves
  rw [List.nil_append, List.nil_append] at h
  refine ⟨(empty capacity).destroyed moves, fun visit seen => perform_eq visit _ seen moves,
    h.once, h.item, fun mark => ⟨fun hmark => ?_, fun hmark => ?_⟩⟩
  · obtain ⟨rest, hrestore, hdestroys⟩ := h.destroys hmark
    refine ⟨_, rest, hdestroys, hrestore, fun visit seen => ?_⟩
    rw [restoreWith_eq, hrestore]
    simp
  · have hrestore : scope.restore mark = .error (.invalidMark mark scope.height) := if_pos hmark
    refine ⟨hrestore, fun visit seen => ?_⟩
    rw [restoreWith_eq, hrestore]

end ArrayMachine.Scope
