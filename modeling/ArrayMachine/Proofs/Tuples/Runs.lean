import ArrayMachine.Proofs.Tuples.Numbers

/-!
# Runs on tuples

Variables with tuples in them, on which everything is done that can change a tuple, its type or the
table of its type (`Pool.Request`): tuples are composed and converted, exchange their types, have
fields replaced and elements stored into fields at any depth, are copied with their type and looked
into by name.

One request leaves the pool sound (`Pool.Sound.perform`), so a run does (`Pool.Sound.run`). What a
sound pool says of look-ups and exchanges is `Pool.fields_names_types`.
-/

namespace ArrayMachine

/-- The variables and the tuple types there are. -/
structure Pool where
  held : List Held
  types : Types

namespace Pool

/-- A variable or a field in it, by the way from field to field. -/
structure Place where
  register : Nat
  path : List Nat
deriving DecidableEq

/-- Neither place is within the other, so both can be changed at once. -/
def Place.Apart (p q : Place) : Prop :=
  p.register = q.register → ¬ p.path <+: q.path ∧ ¬ q.path <+: p.path

theorem Place.Apart.symm {p q : Place} (h : p.Apart q) : q.Apart p :=
  fun hsame => (h hsame.symm).symm

instance (p q : Place) : Decidable (p.Apart q) :=
  inferInstanceAs (Decidable (_ → _))

/-- A value that is no tuple, or a copy of what is at a place, which shares its types. -/
inductive Origin where
  | plain (v : Value) (hv : v.IsPlain)
  | copy (place : Place)

inductive Request where
  /-- A new variable. -/
  | hold (origin : Origin)
  /-- A tuple in a new variable. -/
  | compose (fields : List (Option String × Origin))
  /-- What is at a place, converted, in a new variable. -/
  | convert (target : ValueType) (mode : Mode) (place : Place)
  | swapTypes (p q : Place)
  | replace (place : Place) (origin : Origin)
  | store (place : Place) (pos : Nat) (e : Element)
  | lookUp (place : Place) (name : String)

def empty : Pool := ⟨[], .empty⟩

def at? (s : Pool) (place : Place) : Option Held :=
  s.held[place.register]?.bind (·.at? place.path)

def origin? (s : Pool) : Origin → Option Held
  | .plain v _ => some ⟨v, .none⟩
  | .copy place => s.at? place

/-- One more variable, with the types there are by then. -/
def push (s : Pool) (h : Held) (types : Types) : Pool := ⟨s.held ++ [h], types⟩

/-- What is at a place changed by an operation that may fail, and the numbers of its types. -/
def changeAt? (s : Pool) (place : Place) (change : Value → Result Value)
    (renumber : Numbers → Numbers) : Option Pool := do
  let h ← s.held[place.register]?
  return { s with
    held := s.held.set place.register (← h.changeAt? change renumber place.path) }

/-- A request that does not fail. -/
def perform? (s : Pool) : Request → Option Pool
  | .hold origin => do return s.push (← s.origin? origin) s.types
  | .compose fields => do
    let fields ← fields.mapM fun (name, origin) => do return (name, ← s.origin? origin)
    let v ← (Value.compose (fields.map fun (name, f) => (name, f.value))).toOption
    let (number, types) := s.types.add (fields.map fun (name, f) => (name, f.value.type))
    return s.push ⟨v, .tuple number (fields.map (·.2.numbers))⟩ types
  | .convert target mode place => do
    let h ← s.at? place
    let v ← (Value.convert target h.value mode).toOption
    let (numbers, types) := h.numbers.converted target v s.types
    return s.push ⟨v, numbers⟩ types
  | .swapTypes p q => do
    guard (p.Apart q)
    let a ← s.at? p
    let b ← s.at? q
    let (a', b') ← a.tuple.swapTypes b.tuple
    let s ← s.changeAt? p (fun _ => .ok a'.value) (fun _ => a.numbers.renumber a'.table)
    s.changeAt? q (fun _ => .ok b'.value) (fun _ => b.numbers.renumber b'.table)
  | .replace place origin => do
    let new ← s.origin? origin
    s.changeAt? place (fun _ => .ok new.value) (fun _ => new.numbers)
  | .store place pos e => s.changeAt? place (·.setElement pos e) id
  | .lookUp place name => do
    let h ← s.at? place
    return { s with types.tables := (h.tuple.fieldNamed name s.types.tables).2 }

/-- A request that fails leaves everything as it was. -/
def perform (s : Pool) (request : Request) : Pool := (s.perform? request).getD s

def run (s : Pool) (requests : List Request) : Pool := requests.foldl perform s

end Pool

variable {a b f h : Held} {types : Types} {v w : Value} {name : String} {pos : Nat}

/-- All that a traversal gives is as each step's outcome. -/
theorem Option.forall_mem_of_mapM {α β : Type} {f : α → Option β} {P : β → Prop} {xs : List α}
    {ys : List β} (hP : ∀ {x y}, f x = some y → P y) (h : xs.mapM f = some ys) :
    ∀ y ∈ ys, P y := by
  induction xs generalizing ys with
  | nil =>
    obtain rfl := Option.some.inj h
    simp
  | cons x xs ih =>
    rw [List.mapM_cons] at h
    obtain ⟨y, hy, h⟩ := Option.bind_eq_some_iff.mp h
    obtain ⟨ys', hys, h⟩ := Option.bind_eq_some_iff.mp h
    obtain rfl := Option.some.inj h
    exact List.forall_mem_cons.mpr ⟨hP hy, ih hys⟩

theorem Value.compose_eq_ok {fields : List (Option String × Value)}
    (h : Value.compose fields = .ok v) :
    v = ⟨.tuple (fields.map fun field => (field.1, field.2.type)),
      .tuple (fields.map Prod.snd)⟩ := by
  unfold Value.compose at h
  split at h
  · cases h
  · split at h
    · cases h
    · exact (Except.ok.inj h).symm

section

variable {type : ValueType}

theorem ValueType.arity?_of_not_isTuple (h : type.isTuple = false) : type.arity? = none := by
  cases type <;> first | rfl | cases h

theorem ValueType.fieldNames_of_not_isTuple (h : type.isTuple = false) : type.fieldNames = [] := by
  cases type <;> first | rfl | cases h

end

/-! ## Look-ups -/

/-- **A look-up is in a table of the type's own names**, and leaves the tables sound. -/
theorem Held.Fits.lookUp (hh : h.Fits types) (hs : types.Sound) (name : String) :
    { types with tables := (h.tuple.fieldNamed name types.tables).2 }.Sound ∧
      (h.tuple.fieldNamed name types.tables).1 =
        if h.value.type.isTuple then
          h.value.fieldResolved name ((NameTable.ofNames h.value.type.fieldNames).position? name)
        else .error Value.notATuple := by
  cases hh with
  | plain hv => exact ⟨hs, by rw [hv.type]; rfl⟩
  | @tuple number type fs htype _ _ =>
    obtain ⟨hfound, hsound⟩ := hs.resolve htype name
    exact ⟨hsound, congrArg (Value.fieldResolved _ name) hfound⟩

/-- A name that a type has is found where it comes last. -/
theorem Held.Fits.fieldNamed_of_isGreatest (hh : h.Fits types) (hs : types.Sound)
    (hpos : IsGreatest (positionsOf h.value.type.fieldNames name) pos) :
    ∃ f, h.value.field pos = .ok f ∧ (h.tuple.fieldNamed name types.tables).1 = .ok f := by
  have hfound := (hh.lookUp hs name).2
  obtain hplain | ⟨fields, hfields, htuple, hlength⟩ := hh.cases
  · rw [ValueType.fieldNames_of_not_isTuple hplain.type] at hpos
    cases hpos.1
  · have hlt : pos < fields.length := by
      rw [hlength]
      exact lt_of_mem_positionsOf hpos.1
    have hfield : h.value.field pos = .ok fields[pos] := by
      simp [Value.field, hfields, hlt]
    rw [if_pos htuple, NameTable.position?_ofNames.mpr hpos] at hfound
    exact ⟨fields[pos], hfield, hfound.trans hfield⟩

/-- A name that a type does not have is a mismatch of types. -/
theorem Held.Fits.fieldNamed_of_forall_notMem (hh : h.Fits types) (hs : types.Sound)
    (hpos : ∀ pos, pos ∉ positionsOf h.value.type.fieldNames name) :
    ∃ text, (h.tuple.fieldNamed name types.tables).1 = .error (.typeMismatch text) := by
  rw [(hh.lookUp hs name).2, NameTable.position?_ofNames_eq_none_iff.mpr hpos]
  split
  · exact ⟨_, rfl⟩
  · exact ⟨_, rfl⟩

/-! ## Exchange of types -/

theorem Tuple.swapTypes_eq_some_iff {a b a' b' : Tuple} :
    a.swapTypes b = some (a', b') ↔
      (∃ n, a.value.type.arity? = some n ∧ b.value.type.arity? = some n) ∧
        a' = ⟨⟨b.value.type, a.value.payload⟩, b.table⟩ ∧
        b' = ⟨⟨a.value.type, b.value.payload⟩, a.table⟩ := by
  unfold swapTypes
  cases ha : a.value.type.arity? with
  | none => simp
  | some m =>
    cases hb : b.value.type.arity? with
    | none => simp
    | some n =>
      by_cases hmn : m = n
      · simp [hmn, eq_comm]
      · simp [hmn, Ne.symm hmn]

theorem Tuple.isSome_swapTypes_iff {a b : Tuple} :
    (a.swapTypes b).isSome = true ↔
      ∃ n, a.value.type.arity? = some n ∧ b.value.type.arity? = some n := by
  rw [Option.isSome_iff_exists]
  constructor
  · rintro ⟨⟨a', b'⟩, h⟩
    exact (swapTypes_eq_some_iff.mp h).1
  · intro h
    exact ⟨(_, _), swapTypes_eq_some_iff.mpr ⟨h, rfl, rfl⟩⟩

/-- A second exchange undoes the first. -/
theorem Tuple.swapTypes_swapTypes {a b a' b' : Tuple} (h : a.swapTypes b = some (a', b')) :
    a'.swapTypes b' = some (a, b) := by
  obtain ⟨⟨_, _⟩, _⟩ := a
  obtain ⟨⟨_, _⟩, _⟩ := b
  obtain ⟨⟨n, ha, hb⟩, rfl, rfl⟩ := swapTypes_eq_some_iff.mp h
  exact swapTypes_eq_some_iff.mpr ⟨⟨n, hb, ha⟩, rfl, rfl⟩

/-- The arity of the type is the number of fields. -/
theorem Held.Fits.arity?_eq (hh : h.Fits types) :
    h.value.type.arity? = h.value.fields?.map List.length := by
  cases hh with
  | plain hv => rw [ValueType.arity?_of_not_isTuple hv.type, hv.payload, Option.map_none]
  | tuple _ hlength _ =>
    show some _ = some _
    rw [List.length_map, hlength]

/-- Types of equal arity can belong to each other's fields, and their numbers go along. -/
theorem Held.Fits.swapTypes {a' b' : Tuple} (ha : a.Fits types) (hb : b.Fits types)
    (hswap : a.tuple.swapTypes b.tuple = some (a', b')) :
    ((Held.mk a'.value (a.numbers.renumber a'.table)).Fits types ∧
      (Held.mk a'.value (a.numbers.renumber a'.table)).tuple = a') ∧
    (Held.mk b'.value (b.numbers.renumber b'.table)).Fits types ∧
      (Held.mk b'.value (b.numbers.renumber b'.table)).tuple = b' := by
  obtain ⟨⟨n, han, hbn⟩, rfl, rfl⟩ := Tuple.swapTypes_eq_some_iff.mp hswap
  cases ha with
  | plain hv => cases (ValueType.arity?_of_not_isTuple hv.type).symm.trans han
  | tuple htype hlength hfields =>
    cases hb with
    | plain hv => cases (ValueType.arity?_of_not_isTuple hv.type).symm.trans hbn
    | tuple htype' hlength' hfields' =>
      have harity := Option.some.inj (han.trans hbn.symm)
      exact ⟨⟨.tuple htype' (hlength.trans harity) hfields, rfl⟩,
        .tuple htype (hlength'.trans harity.symm) hfields', rfl⟩

namespace Pool

variable {s s' : Pool} {place p q : Place} {origin : Origin}

/-! ## Soundness -/

/-- All values fit the types, and the tables are those of the types. -/
structure Sound (s : Pool) : Prop where
  types : s.types.Sound
  fits : ∀ h ∈ s.held, h.Fits s.types

theorem sound_empty : empty.Sound := ⟨Types.sound_empty, by simp [empty]⟩

theorem Sound.at? (hs : s.Sound) (hh : s.at? place = some h) : h.Fits s.types := by
  obtain ⟨root, hroot, hh⟩ := Option.bind_eq_some_iff.mp hh
  exact (hs.fits root (List.mem_of_getElem? hroot)).at? hh

theorem Sound.origin? (hs : s.Sound) (hh : s.origin? origin = some h) : h.Fits s.types := by
  cases origin with
  | plain v hv =>
    obtain rfl := Option.some.inj hh
    exact .plain hv
  | copy place => exact hs.at? hh

theorem Sound.push (hs : s.Sound) (hh : h.Fits types) (htypes : types.Sound)
    (hextends : types.Extends s.types) : (s.push h types).Sound := by
  refine ⟨htypes, fun g hg => ?_⟩
  rcases List.mem_append.mp hg with hg | hg
  · exact (hs.fits g hg).extend hextends
  · obtain rfl := List.mem_singleton.mp hg
    exact hh

/-- **A change at a place** is sound if what is put there fits. -/
theorem Sound.changeAt? {change : Value → Result Value} {renumber : Numbers → Numbers}
    (hs : s.Sound) (h : s.changeAt? place change renumber = some s')
    (hchange : ∀ {f w}, s.at? place = some f → change f.value = .ok w →
      (Held.mk w (renumber f.numbers)).Fits s.types) :
    s'.Sound ∧ s'.types = s.types := by
  obtain ⟨root, hroot, h⟩ := Option.bind_eq_some_iff.mp h
  obtain ⟨g, hg, h⟩ := Option.bind_eq_some_iff.mp h
  obtain rfl := Option.some.inj h
  refine ⟨⟨hs.types, fun k hk => ?_⟩, rfl⟩
  rcases List.mem_or_eq_of_mem_set hk with hk | rfl
  · exact hs.fits k hk
  · refine (hs.fits root (List.mem_of_getElem? hroot)).changeAt? hg fun hf => hchange ?_
    rw [Pool.at?, hroot]
    exact hf

/-- **A change that does not fail** is found at its place, and nowhere beside it. -/
theorem Sound.exists_changeAt? (hs : s.Sound) (change : Value → Result Value)
    (renumber : Numbers → Numbers) (hf : s.at? p = some f) (hw : change f.value = .ok w) :
    ∃ s', s.changeAt? p change renumber = some s' ∧
      s'.at? p = some ⟨w, renumber f.numbers⟩ ∧ ∀ q, p.Apart q → s'.at? q = s.at? q := by
  obtain ⟨root, hroot, hf⟩ := Option.bind_eq_some_iff.mp hf
  have hlt : p.register < s.held.length := (List.getElem?_eq_some_iff.mp hroot).1
  obtain ⟨g, hg, hat, hbeside⟩ :=
    (hs.fits root (List.mem_of_getElem? hroot)).exists_changeAt? hf hw
  refine ⟨{ s with held := s.held.set p.register g }, ?_, ?_, fun q hq => ?_⟩
  · rw [Pool.changeAt?, hroot, Option.bind_eq_bind, Option.bind_some, hg]
    rfl
  · rw [Pool.at?, List.getElem?_set_self hlt]
    exact hat
  · by_cases hsame : p.register = q.register
    · obtain ⟨hnot, hnot'⟩ := hq hsame
      rw [Pool.at?, Pool.at?, ← hsame, List.getElem?_set_self hlt, hroot]
      exact hbeside q.path hnot hnot'
    · rw [Pool.at?, Pool.at?, List.getElem?_set_ne hsame]

/-! ### One request -/

theorem Sound.compose (hs : s.Sound) {fields : List (Option String × Origin)}
    (h : s.perform? (.compose fields) = some s') : s'.Sound := by
  obtain ⟨named, hfields, h⟩ := Option.bind_eq_some_iff.mp h
  obtain ⟨v, hv, h⟩ := Option.bind_eq_some_iff.mp h
  obtain rfl := Option.some.inj h
  have hnamed : ∀ field ∈ named, field.2.Fits s.types := by
    refine Option.forall_mem_of_mapM (fun hfield => ?_) hfields
    obtain ⟨f, hf, hfield⟩ := Option.bind_eq_some_iff.mp hfield
    obtain rfl := Option.some.inj hfield
    exact hs.origin? hf
  have hheld : ∀ f ∈ named.map Prod.snd, f.Fits s.types := by
    simpa using fun f name hf => hnamed (name, f) hf
  have hlength : (named.map Prod.snd).length =
      (named.map fun (name, f) => (name, f.value.type)).length := by
    rw [List.length_map, List.length_map]
  obtain ⟨hfits, htypes, hextends⟩ := Held.Fits.add hs.types hlength hheld
  rw [Value.compose_eq_ok (Result.toOption_eq_some_iff.mp hv)]
  refine hs.push ?_ htypes hextends
  rw [Held.ofFields, List.map_map, List.map_map] at hfits
  rw [List.map_map, List.map_map]
  exact hfits

theorem Sound.convert (hs : s.Sound) {target : ValueType} {mode : Mode}
    (h : s.perform? (.convert target mode place) = some s') : s'.Sound := by
  obtain ⟨f, hf, h⟩ := Option.bind_eq_some_iff.mp h
  obtain ⟨v, hv, h⟩ := Option.bind_eq_some_iff.mp h
  obtain rfl := Option.some.inj h
  obtain ⟨hfits, htypes, hextends⟩ :=
    fits_converted target hs.types (hs.at? hf) (Result.toOption_eq_some_iff.mp hv)
  exact hs.push hfits htypes hextends

theorem Sound.swapTypes (hs : s.Sound) (h : s.perform? (.swapTypes p q) = some s') :
    s'.Sound := by
  obtain ⟨-, -, h⟩ := Option.bind_eq_some_iff.mp h
  obtain ⟨a, ha, h⟩ := Option.bind_eq_some_iff.mp h
  obtain ⟨b, hb, h⟩ := Option.bind_eq_some_iff.mp h
  obtain ⟨⟨a', b'⟩, hswap, h⟩ := Option.bind_eq_some_iff.mp h
  obtain ⟨between, hfirst, hsecond⟩ := Option.bind_eq_some_iff.mp h
  obtain ⟨⟨hfits, -⟩, hfits', -⟩ := (hs.at? ha).swapTypes (hs.at? hb) hswap
  obtain ⟨hbetween, htypes⟩ := hs.changeAt? hfirst fun _ hw => by
    obtain rfl := Except.ok.inj hw
    exact hfits
  refine (hbetween.changeAt? hsecond fun _ hw => ?_).1
  obtain rfl := Except.ok.inj hw
  rw [htypes]
  exact hfits'

/-- **An exchange at two places** leaves there what the exchange of the two tuples gives, and all
that is beside both as it was. -/
theorem Sound.exists_swapTypes (hs : s.Sound) {a' b' : Tuple} (hapart : p.Apart q)
    (ha : s.at? p = some a) (hb : s.at? q = some b)
    (hswap : a.tuple.swapTypes b.tuple = some (a', b')) :
    ∃ s', s.perform? (.swapTypes p q) = some s' ∧ (s'.at? p).map Held.tuple = some a' ∧
      (s'.at? q).map Held.tuple = some b' ∧
      ∀ o, p.Apart o → q.Apart o → s'.at? o = s.at? o := by
  obtain ⟨⟨hfits, htuple⟩, -, htuple'⟩ := (hs.at? ha).swapTypes (hs.at? hb) hswap
  obtain ⟨between, hfirst, hat, hbeside⟩ :=
    hs.exists_changeAt? (fun _ => .ok a'.value) (fun _ => a.numbers.renumber a'.table) ha rfl
  have hbetween : between.Sound := by
    refine (hs.changeAt? hfirst fun _ hw => ?_).1
    obtain rfl := Except.ok.inj hw
    exact hfits
  have hb' : between.at? q = some b := (hbeside q hapart).trans hb
  obtain ⟨s', hsecond, hat', hbeside'⟩ :=
    hbetween.exists_changeAt? (fun _ => .ok b'.value) (fun _ => b.numbers.renumber b'.table) hb' rfl
  refine ⟨s', ?_, ?_, ?_, fun o ho ho' => (hbeside' o ho').trans (hbeside o ho)⟩
  · simp [perform?, guard, hapart, ha, hb, hswap, hfirst, hsecond]
  · rw [hbeside' p hapart.symm, hat, Option.map_some, htuple]
  · rw [hat', Option.map_some, htuple']

theorem Sound.replace (hs : s.Sound) (h : s.perform? (.replace place origin) = some s') :
    s'.Sound := by
  obtain ⟨new, hnew, h⟩ := Option.bind_eq_some_iff.mp h
  refine (hs.changeAt? h fun _ hw => ?_).1
  obtain rfl := Except.ok.inj hw
  exact hs.origin? hnew

/-- Elements are not stored into tuples, and the type stays as it is. -/
theorem Sound.store (hs : s.Sound) {e : Element}
    (h : s.perform? (.store place pos e) = some s') : s'.Sound := by
  refine (hs.changeAt? h fun {f w} hf hw => ?_).1
  have hfits := hs.at? hf
  cases hfits with
  | plain hv =>
    unfold Value.setElement at hw
    split at hw
    · obtain ⟨buffer, -, hw⟩ := Result.bind_eq_ok_iff.mp hw
      obtain rfl := Except.ok.inj hw
      exact .plain ⟨hv.type, rfl⟩
    · cases hw
  | tuple _ _ _ => cases hw

theorem Sound.lookUp (hs : s.Sound) (h : s.perform? (.lookUp place name) = some s') :
    s'.Sound := by
  obtain ⟨f, hf, h⟩ := Option.bind_eq_some_iff.mp h
  obtain rfl := Option.some.inj h
  refine ⟨((hs.at? hf).lookUp hs.types name).1, fun g hg => ?_⟩
  exact (hs.fits g hg).extend fun _ _ => id

/-! ### All requests -/

/-- **Each request keeps the pool sound.** -/
theorem Sound.perform (hs : s.Sound) (request : Request) : (s.perform request).Sound := by
  unfold Pool.perform
  cases h : s.perform? request with
  | none => exact hs
  | some s' =>
    cases request with
    | hold origin =>
      obtain ⟨new, hnew, h⟩ := Option.bind_eq_some_iff.mp h
      obtain rfl := Option.some.inj h
      exact hs.push (hs.origin? hnew) hs.types (.refl _)
    | compose fields => exact hs.compose h
    | convert target mode place => exact hs.convert h
    | swapTypes p q => exact hs.swapTypes h
    | replace place origin => exact hs.replace h
    | store place pos e => exact hs.store h
    | lookUp place name => exact hs.lookUp h

/-- **So does every run of them.** -/
theorem Sound.run (hs : s.Sound) (requests : List Request) : (s.run requests).Sound := by
  induction requests generalizing s with
  | nil => exact hs
  | cons request requests ih => exact ih (hs.perform request)

/-! ## Fields, names and types after a run -/

/-- After any run each tuple has as many fields as its type has names. A look-up gives the field at
the last position of a name, and a type mismatch where no position has it, and nothing else; this is
so whether or not the table of the type was there, and whosever the type was before. Two values
exchange their types if and only if both are tuples with equally many fields; the fields stay, a
second exchange undoes the first, and nothing beside the two places changes. -/
theorem fields_names_types (requests : List Request) :
    let s := empty.run requests
    (∀ place h, s.at? place = some h →
      (h.value.type.isTuple = h.value.fields?.isSome ∧
        ∀ fields, h.value.fields? = some fields →
          fields.length = h.value.type.fieldNames.length) ∧
      ∀ name,
        let found := (h.tuple.fieldNamed name s.types.tables).1
        (∀ pos, IsGreatest (positionsOf h.value.type.fieldNames name) pos →
          ∃ f, h.value.field pos = .ok f ∧ found = .ok f) ∧
        ((∃ text, found = .error (.typeMismatch text)) ↔
          ∀ pos, pos ∉ positionsOf h.value.type.fieldNames name) ∧
        ∀ index length, found ≠ .error (.indexOutOfRange index length)) ∧
    ∀ p q a b, s.at? p = some a → s.at? q = some b →
      ((a.tuple.swapTypes b.tuple).isSome = true ↔
        ∃ fields fields', a.value.fields? = some fields ∧ b.value.fields? = some fields' ∧
          fields.length = fields'.length) ∧
      ∀ a' b', a.tuple.swapTypes b.tuple = some (a', b') →
        a'.value.fields? = a.value.fields? ∧ b'.value.fields? = b.value.fields? ∧
        a'.value.type = b.value.type ∧ b'.value.type = a.value.type ∧
        a'.table = b.tuple.table ∧ b'.table = a.tuple.table ∧
        a'.swapTypes b' = some (a.tuple, b.tuple) ∧
        (p.Apart q → ∃ s', s.perform? (.swapTypes p q) = some s' ∧
          (s'.at? p).map Held.tuple = some a' ∧ (s'.at? q).map Held.tuple = some b' ∧
          ∀ o, p.Apart o → q.Apart o → s'.at? o = s.at? o) := by
  intro s
  have hs : s.Sound := sound_empty.run requests
  refine ⟨fun place h hh => ⟨?_, fun name => ?_⟩, fun p q a b ha hb => ⟨?_, ?_⟩⟩
  · obtain hplain | ⟨fields, hfields, htuple, hlength⟩ := (hs.at? hh).cases
    · simp [hplain.type, hplain.payload]
    · simp [htuple, hfields, hlength]
  · have hfits := hs.at? hh
    by_cases hmissing : ∀ pos, pos ∉ positionsOf h.value.type.fieldNames name
    · obtain ⟨text, hfound⟩ := hfits.fieldNamed_of_forall_notMem hs.types hmissing
      refine ⟨fun pos hpos => absurd hpos.1 (hmissing pos), iff_of_true ⟨text, hfound⟩ hmissing, ?_⟩
      simp [hfound]
    · obtain ⟨pos, hpos⟩ := not_forall_not.mp hmissing
      obtain ⟨last, hlast⟩ := exists_isGreatest hpos
      obtain ⟨f, -, hfound⟩ := hfits.fieldNamed_of_isGreatest hs.types hlast
      refine ⟨fun pos hpos => hfits.fieldNamed_of_isGreatest hs.types hpos,
        iff_of_false ?_ hmissing, ?_⟩
      · simp [hfound]
      · simp [hfound]
  · rw [Tuple.isSome_swapTypes_iff]
    show (∃ n, a.value.type.arity? = some n ∧ b.value.type.arity? = some n) ↔ _
    rw [(hs.at? ha).arity?_eq, (hs.at? hb).arity?_eq]
    cases a.value.fields? <;> cases b.value.fields? <;> simp [eq_comm]
  · intro a' b' hswap
    have hperform (hapart : p.Apart q) := hs.exists_swapTypes hapart ha hb hswap
    have hback := Tuple.swapTypes_swapTypes hswap
    obtain ⟨-, rfl, rfl⟩ := Tuple.swapTypes_eq_some_iff.mp hswap
    exact ⟨rfl, rfl, rfl, rfl, rfl, rfl, hback, hperform⟩

/-- A tuple has exchanged types with another, which holds a copy of it, after the table of its type
was made: the name that comes twice in this type is now found in the other tuple. -/
theorem fields_names_types_exchanged :
    let number (n : Int32) : Origin := .plain (.integer n) ⟨rfl, rfl⟩
    let s := empty.run
      [.compose [(some "x", number 1), (some "y", number 2), (some "x", number 3)],
       .lookUp ⟨0, []⟩ "x",
       .compose [(some "y", number 4), (none, .copy ⟨0, []⟩), (some "z", number 5)],
       .replace ⟨1, [2]⟩ (number 6),
       .swapTypes ⟨0, []⟩ ⟨1, []⟩]
    ∃ h, s.at? ⟨1, []⟩ = some h ∧ h.tuple.isBuilt s.types.tables = true ∧
      IsGreatest (positionsOf h.value.type.fieldNames "x") 2 ∧
      (h.tuple.fieldNamed "x" s.types.tables).1 = .ok (.integer 6) := by
  intro number s
  have hh : s.at? ⟨1, []⟩ = some (.ofFields 0
      [(some "x", .array (Shape.scalar .integer)), (some "y", .array (Shape.scalar .integer)),
        (some "x", .array (Shape.scalar .integer))]
      [⟨.integer 4, .none⟩, .ofFields 0
        [(some "x", .array (Shape.scalar .integer)), (some "y", .array (Shape.scalar .integer)),
          (some "x", .array (Shape.scalar .integer))]
        [⟨.integer 1, .none⟩, ⟨.integer 2, .none⟩, ⟨.integer 3, .none⟩],
        ⟨.integer 6, .none⟩]) := rfl
  have hlast : IsGreatest (positionsOf [some "x", some "y", some "x"] "x") 2 :=
    NameTable.position?_ofNames.mp rfl
  obtain ⟨f, hf, hfound⟩ := ((fields_names_types _).1 ⟨1, []⟩ _ hh).2 "x" |>.1 2 hlast
  obtain rfl := Except.ok.inj hf
  exact ⟨_, hh, by decide +kernel, hlast, hfound⟩

end Pool

end ArrayMachine
