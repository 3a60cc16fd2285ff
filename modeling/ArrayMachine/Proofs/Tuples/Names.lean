import ArrayMachine.Tuple.Lookup
import Mathlib.Data.List.Induction
import Mathlib.Order.Lattice.Nat

/-!
# Tables of names

A tuple type does not change, only its table is made some time. So it does not matter when a table
is made and by whose look-up: it is always the table of the type's own names (`Types.Sound`), and a
look-up in it finds the last position of a name.

* `NameTable.position?_ofNames`: what a table says of a name.
* `Types.Sound.resolve`: a look-up, whether or not the table was there.
-/

namespace ArrayMachine

variable {names : List (Option String)} {name : String} {pos : Nat}

/-- The positions of a name. -/
def positionsOf (names : List (Option String)) (name : String) : Set Nat :=
  {pos | names[pos]? = some (some name)}

theorem mem_positionsOf : pos ∈ positionsOf names name ↔ names[pos]? = some (some name) := Iff.rfl

theorem lt_of_mem_positionsOf (h : pos ∈ positionsOf names name) : pos < names.length :=
  (List.getElem?_eq_some_iff.mp h).1

/-- One more name is the last, and takes no position from another name. -/
theorem mem_positionsOf_append {last : Option String} :
    pos ∈ positionsOf (names ++ [last]) name ↔
      pos ∈ positionsOf names name ∨ (pos = names.length ∧ last = some name) := by
  rw [mem_positionsOf, mem_positionsOf]
  rcases Nat.lt_trichotomy pos names.length with hlt | rfl | hgt
  · simp [List.getElem?_append_left hlt, Nat.ne_of_lt hlt]
  · simp
  · have hnone : (names ++ [last])[pos]? = none := by
      rw [List.getElem?_eq_none]
      rwa [List.length_append, List.length_singleton]
    simp [hnone, List.getElem?_eq_none (Nat.le_of_lt hgt), Nat.ne_of_gt hgt]

theorem exists_isGreatest (h : pos ∈ positionsOf names name) :
    ∃ last, IsGreatest (positionsOf names name) last := by
  have hbound : BddAbove (positionsOf names name) :=
    ⟨names.length, fun _ h => Nat.le_of_lt (lt_of_mem_positionsOf h)⟩
  exact ⟨_, Nat.sSup_mem ⟨pos, h⟩ hbound, fun _ h => le_csSup hbound h⟩

/-! ## One table -/

namespace NameTable

/-- The last name comes first in the table. -/
theorem ofNames_append (names : List (Option String)) (last : Option String) :
    ofNames (names ++ [last]) =
      match last with
      | some name => (name, names.length) :: ofNames names
      | none => ofNames names := by
  unfold ofNames
  rw [List.zipIdx_append, List.foldl_append]
  cases last <;> simp

/-- **A table has the last position of a name.** -/
theorem position?_ofNames :
    (ofNames names).position? name = some pos ↔ IsGreatest (positionsOf names name) pos := by
  induction names using List.reverseRecOn generalizing pos with
  | nil =>
    constructor
    · intro h
      cases h
    · rintro ⟨h, -⟩
      cases h
  | append_singleton names last ih =>
    rw [ofNames_append]
    by_cases hlast : last = some name
    · subst hlast
      have hfound : position? ((name, names.length) :: ofNames names) name = some names.length := by
        simp [position?]
      have hgreatest : IsGreatest (positionsOf (names ++ [some name]) name) names.length := by
        refine ⟨mem_positionsOf_append.mpr (.inr ⟨rfl, rfl⟩), fun pos h => ?_⟩
        have hlt := lt_of_mem_positionsOf h
        rw [List.length_append, List.length_singleton] at hlt
        exact Nat.le_of_lt_succ hlt
      rw [hfound, Option.some.injEq]
      constructor
      · rintro rfl
        exact hgreatest
      · intro h
        exact Nat.le_antisymm (h.2 hgreatest.1) (hgreatest.2 h.1)
    · have hsame : positionsOf (names ++ [last]) name = positionsOf names name := by
        ext pos
        rw [mem_positionsOf_append]
        simp [hlast]
      have hskip : position? (ofNames (names ++ [last])) name = (ofNames names).position? name := by
        rw [ofNames_append]
        cases last with
        | none => rfl
        | some other =>
          have hother : (name == other) = false := by
            simpa using fun h : name = other => hlast (congrArg some h.symm)
          simp [position?, List.lookup_cons, hother]
      rw [← ofNames_append, hskip, hsame, ih]

/-- A table knows each name that has a position. -/
theorem position?_ofNames_eq_none_iff :
    (ofNames names).position? name = none ↔ ∀ pos, pos ∉ positionsOf names name := by
  rw [Option.eq_none_iff_forall_ne_some]
  constructor
  · intro h pos hpos
    obtain ⟨last, hlast⟩ := exists_isGreatest hpos
    exact h last (position?_ofNames.mpr hlast)
  · intro h pos hpos
    exact h pos (position?_ofNames.mp hpos).1

end NameTable

/-! ## The tables of all types -/

/-- The tuple types there are: the fields of each of them, and its table if it is made. -/
structure Types where
  fields : List (List (Option String × ValueType))
  tables : Tables

namespace Types

variable {types newer newest : Types} {number : Nat} {fields : List (Option String × ValueType)}

def empty : Types := ⟨[], .empty⟩

/-- One more type, with its number. Its table is not made. -/
def add (types : Types) (fields : List (Option String × ValueType)) : Nat × Types :=
  let (number, tables) := types.tables.extend
  (number, ⟨types.fields ++ [fields], tables⟩)

/-- There is room for the table of each type, and a table that is made is that of the type's
names. -/
structure Sound (types : Types) : Prop where
  room : types.tables.made.length = types.fields.length
  made : ∀ {number : Nat} {table : NameTable}, types.tables.get? number = some table →
    ∃ fields, types.fields[number]? = some fields ∧ table = .ofNames (fields.map Prod.fst)

/-- The types there were are still there, as they were. -/
def Extends (newer older : Types) : Prop :=
  ∀ (number : Nat) (fields : List (Option String × ValueType)),
    older.fields[number]? = some fields → newer.fields[number]? = some fields

theorem Extends.refl (types : Types) : types.Extends types := fun _ _ => id

theorem Extends.trans (h : newest.Extends newer) (h' : newer.Extends types) :
    newest.Extends types := fun _ _ hfields => h _ _ (h' _ _ hfields)

theorem sound_empty : empty.Sound := by
  refine ⟨rfl, fun h => ?_⟩
  simp [empty, Tables.empty, Tables.get?] at h

theorem extends_add (types : Types) (fields : List (Option String × ValueType)) :
    (types.add fields).2.Extends types := by
  intro number found hfound
  exact (List.getElem?_append_left (List.getElem?_eq_some_iff.mp hfound).1).trans hfound

theorem Sound.getElem?_add (h : types.Sound) (fields : List (Option String × ValueType)) :
    (types.add fields).2.fields[(types.add fields).1]? = some fields := by
  show (types.fields ++ [fields])[types.tables.made.length]? = some fields
  rw [h.room, List.getElem?_concat_length]

theorem Sound.add (h : types.Sound) (fields : List (Option String × ValueType)) :
    (types.add fields).2.Sound := by
  constructor
  · show (types.tables.made ++ [none]).length = (types.fields ++ [fields]).length
    simp [h.room]
  · intro number table hmade
    have hold : types.tables.get? number = some table := by
      change ((types.tables.made ++ [none])[number]?).join = some table at hmade
      rw [List.getElem?_append] at hmade
      split at hmade
      · exact hmade
      · cases hpos : number - types.tables.made.length <;> simp [hpos] at hmade
    obtain ⟨found, hfound, htable⟩ := h.made hold
    exact ⟨found, extends_add types fields _ _ hfound, htable⟩

/-- **A look-up** finds the position in the type's own names, whether its table was there or not,
and leaves all tables as those of their types. -/
theorem Sound.resolve (h : types.Sound) (hfields : types.fields[number]? = some fields)
    (name : String) :
    (types.tables.resolve number (fields.map Prod.fst) name).1 =
        (NameTable.ofNames (fields.map Prod.fst)).position? name ∧
      Sound ⟨types.fields, (types.tables.resolve number (fields.map Prod.fst) name).2⟩ := by
  have htable : (types.tables.get? number).getD (.ofNames (fields.map Prod.fst)) =
      .ofNames (fields.map Prod.fst) := by
    cases hmade : types.tables.get? number with
    | none => rfl
    | some table =>
      obtain ⟨found, hfound, rfl⟩ := h.made hmade
      obtain rfl := Option.some.inj (hfound.symm.trans hfields)
      rfl
  unfold Tables.resolve
  rw [htable]
  refine ⟨rfl, ?_, ?_⟩
  · simpa using h.room
  · intro other table hmade
    change ((types.tables.made.set number _)[other]?).join = some table at hmade
    by_cases hother : number = other
    · subst hother
      have hroom : number < types.tables.made.length := by
        rw [h.room]
        exact (List.getElem?_eq_some_iff.mp hfields).1
      rw [List.getElem?_set_self hroom] at hmade
      exact ⟨fields, hfields, (Option.some.inj hmade).symm⟩
    · rw [List.getElem?_set_ne hother] at hmade
      exact h.made hmade

end Types

end ArrayMachine
