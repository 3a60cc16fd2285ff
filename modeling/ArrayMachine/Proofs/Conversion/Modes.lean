import ArrayMachine.Proofs.Conversion.Elements
import ArrayMachine.Proofs.Value.Assigned

/-!
# Conversion under two modes

The rules of a mode decide whether a value is accepted, not what becomes of it. If one mode lies
within another (`Mode.Within`: what the first permits, the second does, and both promote or both
cast), a conversion under the second follows the one under the first (`Result.Follows`): it comes to
the same value wherever the first comes to one. Under any two modes, the conversions never come to
different values.

Following is kept by all that conversion is made of: sequences, checks that the looser mode passes
if the stricter one does, and traversals. So it goes through conversion function by function.

* `follows_convert`: conversion into any type, tuples being converted field by field.
* `convert_modes`: the same value under all modes that accept, and which modes accept more.
-/

namespace ArrayMachine

/-! ## Following -/

/-- Two computations do not come to different values. If `p` holds, the second comes to the value
that the first does. -/
structure Result.Follows {α : Type} (p : Prop) (r s : Result α) : Prop where
  agree : ∀ {a b : α}, r = .ok a → s = .ok b → a = b
  accepts : ∀ {a : α}, p → r = .ok a → s = .ok a

namespace Result.Follows

variable {α β : Type} {p c d : Prop} {r s : Result α} {f g : α → Result β} {xs : List α}
  {fault fault' : Fault}

theorem refl (r : Result α) : Follows p r r :=
  ⟨fun h h' => Except.ok.inj (h.symm.trans h'), fun _ h => h⟩

/-- After a fault there is nothing to follow. -/
theorem error : Follows p (.error fault) s := by
  constructor
  · intro a b ha
    cases ha
  · intro a hp ha
    cases ha

theorem bind (h : Follows p r s) (hfg : ∀ a, Follows p (f a) (g a)) :
    Follows p (r >>= f) (s >>= g) := by
  constructor
  · intro b b' hb hb'
    obtain ⟨a, ha, hb⟩ := Result.bind_eq_ok_iff.mp hb
    obtain ⟨a', ha', hb'⟩ := Result.bind_eq_ok_iff.mp hb'
    obtain rfl := h.agree ha ha'
    exact (hfg a).agree hb hb'
  · intro b hp hb
    obtain ⟨a, ha, hb⟩ := Result.bind_eq_ok_iff.mp hb
    exact Result.bind_eq_ok_iff.mpr ⟨a, h.accepts hp ha, (hfg a).accepts hp hb⟩

/-- A check on both sides. If `p` holds, the second passes where the first does. -/
theorem guard [Decidable c] [Decidable d] (hcd : p → c → d) (h : Follows p r s) :
    Follows p (if c then r else .error fault) (if d then s else .error fault') := by
  constructor
  · intro a b ha hb
    split at ha
    · split at hb
      · exact h.agree ha hb
      · cases hb
    · cases ha
  · intro a hp ha
    split at ha
    · rename_i hc
      rw [if_pos (hcd hp hc)]
      exact h.accepts hp ha
    · cases ha

/-- A check that has to fail on both sides. -/
theorem refuse [Decidable c] [Decidable d] (hdc : p → d → c) (h : Follows p r s) :
    Follows p (if c then .error fault else r) (if d then .error fault' else s) := by
  rw [← ite_not, ← ite_not (p := d)]
  exact guard (fun hp hc hd => hc (hdc hp hd)) h

theorem mapM (h : ∀ a ∈ xs, Follows p (f a) (g a)) : Follows p (xs.mapM f) (xs.mapM g) := by
  induction xs with
  | nil => exact .refl _
  | cons a xs ih =>
    obtain ⟨ha, hxs⟩ := List.forall_mem_cons.mp h
    rw [List.mapM_cons, List.mapM_cons]
    exact ha.bind fun _ => (ih hxs).bind fun _ => .refl _

end Result.Follows

open Result

/-! ## Modes -/

/-- What `m` permits, `n` permits, and both promote or both cast. -/
structure Mode.Within (m n : Mode) : Prop where
  unknownType : m.rules.unknownType = true → n.rules.unknownType = true
  openExtents : m.rules.openExtents = true → n.rules.openExtents = true
  resize : m.rules.resize ≤ n.rules.resize
  casts : n.rules.casts = m.rules.casts

namespace Mode

theorem assignment_within_promotion : Within assignment promotion :=
  ⟨by decide, by decide, by decide, rfl⟩

theorem promotion_within_declaration : Within promotion declaration :=
  ⟨by decide, by decide, by decide, rfl⟩

theorem declaration_within_parameter : Within declaration parameter :=
  ⟨id, id, Nat.le_refl _, rfl⟩

theorem parameter_within_declaration : Within parameter declaration :=
  ⟨id, id, Nat.le_refl _, rfl⟩

variable {m n : Mode} {kind : Kind}

/-- Buffers are promoted and cast to the same elements. -/
theorem follows_convertBuffer (hkind : kind.isBasic = true) (b : Buffer) :
    Follows (m.Within n) (m.convertBuffer b kind) (n.convertBuffer b kind) := by
  constructor
  · intro c d hc hd
    obtain ⟨hckind, hcall⟩ := convertBuffer_eq_ok hkind hc
    obtain ⟨hdkind, hdall⟩ := convertBuffer_eq_ok hkind hd
    have helements : Follows False (b.elements.mapM (m.convertElement kind))
        (b.elements.mapM (n.convertElement kind)) :=
      .mapM fun e _ => ⟨convertElement_agree, False.elim⟩
    exact Buffer.ext_elements (hckind.trans hdkind.symm) (helements.agree hcall hdall)
  · intro c hwithin hc
    unfold convertBuffer at hc ⊢
    rwa [hwithin.casts]

end Mode

namespace Value

variable {m n : Mode} {target source : Shape}

/-! ## Into an array type -/

theorem follows_convertKind (hbasic : target.element.isBasic = true) (v : Value) :
    Follows (m.Within n) (convertKind target v m) (convertKind target v n) := by
  unfold convertKind
  split
  · exact .error
  · split
    · exact .refl _
    · dsimp only
      -- filled or not, it is converted by its buffer
      split
      all_goals
        refine (Follows.refl _).bind fun x => ?_
        split
        · exact .error
        · exact (Mode.follows_convertBuffer hbasic _).bind fun _ => .refl _

theorem follows_extentForEmpty (extent : Extent) :
    Follows (m.Within n) (extentForEmpty m extent) (extentForEmpty n extent) := by
  cases extent with
  | none => exact .guard (·.openExtents) (.refl _)
  | some size =>
    refine .refuse (fun hwithin hfull => ⟨hfull.1, ?_⟩) (.refl _)
    have hresize := hwithin.resize
    rw [hfull.2] at hresize
    exact ResizeRule.le_sameSize.mp hresize

theorem follows_convertEmpty (target : Shape) :
    Follows (m.Within n) (convertEmpty target m) (convertEmpty target n) := by
  unfold convertEmpty
  split
  · exact .error
  · exact (Follows.mapM fun extent _ => follows_extentForEmpty extent).bind fun _ => .refl _

theorem follows_resolveExtents (target source : Shape) :
    Follows (m.Within n) (resolveExtents target source m) (resolveExtents target source n) := by
  refine .mapM fun (extent, axis) _ => ?_
  cases extent with
  | none => exact .guard (·.openExtents) (.refl _)
  | some size => exact .refl _

theorem follows_convertExtents (target source : Shape) (v : Value) (b : Buffer) :
    Follows (m.Within n) (convertExtents target source v b m)
      (convertExtents target source v b n) := by
  refine (follows_resolveExtents target source).bind fun extents => ?_
  exact .guard (fun hwithin hneeded => Nat.le_trans hneeded hwithin.resize) (.refl _)

theorem follows_convertStored (hbasic : target.element.isBasic = true) (v : Value) :
    Follows (m.Within n) (convertStored target v m) (convertStored target v n) := by
  unfold convertStored
  split
  · refine (Mode.follows_convertBuffer hbasic _).bind fun b => ?_
    split
    · exact .refl _
    · exact .refl _
    · exact follows_convertExtents target _ v b
    · exact follows_convertExtents target _ v b
    · exact .error
  · exact .error

theorem follows_convertArray (hbasic : target.element.isBasic = true) (v : Value) :
    Follows (m.Within n) (convertArray target v m) (convertArray target v n) := by
  unfold convertArray
  split
  · exact .error
  · split
    · exact follows_convertKind hbasic v
    · split
      · exact follows_convertEmpty target
      · split
        · refine .refuse (fun hwithin hcasts => hwithin.casts ▸ hcasts) ?_
          exact (Follows.refl _).bind fun x => follows_convertStored hbasic x
        · exact follows_convertStored hbasic v

theorem follows_convertToArray (target : Shape) (v : Value) :
    Follows (m.Within n) (convertToArray target v m) (convertToArray target v n) := by
  unfold convertToArray
  split
  · exact .error
  · rename_i hbasic
    have hbasic : target.element.isBasic = true := by simpa using hbasic
    split
    · refine .guard (fun hwithin hmembers => ?_) (follows_convertArray hbasic _)
      rwa [hwithin.casts]
    · exact follows_convertArray hbasic v

/-! ## Into any type -/

mutual

/-- **A looser mode follows a stricter one**, whatever the type and the value. -/
theorem follows_convert (target : ValueType) (v : Value) :
    Follows (m.Within n) (convert target v m) (convert target v n) := by
  unfold convert
  split
  · exact .error
  · split
    · exact .error
    · refine (Follows.refl _).bind fun x => ?_
      match target with
      | .unknown => exact .guard (·.unknownType) (.refl _)
      | .tuple types =>
        dsimp only
        split
        · exact .error
        · split
          · exact .error
          · exact (follows_convertFields types _).bind fun _ => .refl _
      | .interval kind =>
        refine .guard (fun hwithin hinterval => ?_) (.refl _)
        simp only [Bool.and_eq_true, Bool.or_eq_true] at hinterval ⊢
        exact ⟨hinterval.1, hinterval.2.imp_right hwithin.unknownType⟩
      | .array shape => exact follows_convertToArray shape x
      | .input => exact .error
      | .output => exact .error

theorem follows_convertFields (types : List (Option String × ValueType)) (fields : List Value) :
    Follows (m.Within n) (convertFields types fields m) (convertFields types fields n) := by
  match types, fields with
  | (name, type) :: types, x :: xs =>
    unfold convertFields
    exact (follows_convert type x).bind fun _ =>
      (follows_convertFields types xs).bind fun _ => .refl _
  | [], _ => exact .refl _
  | _ :: _, [] => exact .refl _

end

/-- A mode has a value for `v` of the target type. -/
def Accepted (target : ValueType) (v : Value) (mode : Mode) : Prop :=
  ∃ w, convert target v mode = .ok w

theorem Accepted.within {target : ValueType} {v : Value} (hwithin : m.Within n)
    (h : Accepted target v m) : Accepted target v n := by
  obtain ⟨w, hw⟩ := h
  exact ⟨w, (follows_convert target v).accepts hwithin hw⟩

/-- **All modes that accept a value make the same of it.** What assignment accepts, promotion does;
what promotion accepts, declaration does; and declaration and parameter accept the same. -/
theorem convert_modes (target : ValueType) (v : Value) :
    (∀ m n r s, convert target v m = .ok r → convert target v n = .ok s → r = s) ∧
    (Accepted target v .assignment → Accepted target v .promotion) ∧
    (Accepted target v .promotion → Accepted target v .declaration) ∧
    (Accepted target v .declaration ↔ Accepted target v .parameter) :=
  ⟨fun _ _ _ _ hr hs => (follows_convert target v).agree hr hs,
    Accepted.within Mode.assignment_within_promotion,
    Accepted.within Mode.promotion_within_declaration,
    Accepted.within Mode.declaration_within_parameter,
    Accepted.within Mode.parameter_within_declaration⟩

end Value

end ArrayMachine
