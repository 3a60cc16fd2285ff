import ArrayMachine.Proofs.Conversion.Acceptance
import ArrayMachine.Proofs.Conversion.Walk
import Mathlib.Order.Bounds.Defs

/-!
# The strictest rule that permits a resize

A rule permits extents to change as its name says (`ResizeRule.Permits`), along all axes at once.
The rule that is needed is found by a walk over the axes that knows nothing of this: it passes the
axes along which nothing changes, and from the first one that differs on looks for one that shrinks.
An axis that grows in front of it does not end the walk, and one that is the first to differ is
looked at again.

* `Shape.resizeNeeded_le_iff_permits`: the rules that cover the needed one are those that permit the
  change.
* `Shape.resizeNeeded_isLeast`: which of the three is found, and that no stricter one would do.
-/

namespace ArrayMachine

variable {source target : Shape} {rule : ResizeRule}

/-! ## What a rule permits -/

namespace ResizeRule

/-- The extents of the source may become those of the target. -/
def Permits : ResizeRule → Shape → Shape → Prop
  | sameSize, source, target => source.extents = target.extents
  | notLarger, source, target => ∀ axis, source.extent axis ≤ target.extent axis
  | anySize, _, _ => True

theorem eq_notLarger_iff : rule = notLarger ↔ ¬rule ≤ sameSize ∧ rule ≤ notLarger := by
  cases rule <;> decide

theorem eq_anySize_iff : rule = anySize ↔ ¬rule ≤ notLarger := by
  cases rule <;> decide

end ResizeRule

/-! ## The rule that is needed -/

namespace Shape

/-- The extents of a source along with those of a target, axis by axis. -/
def axes (source target : Shape) : List (Nat × Nat) :=
  (source.extents.map (·.getD 0)).zip (target.extents.map (·.getD 0))

/-- **A rule covers the needed one** if and only if it permits the change along all axes. -/
theorem resizeNeeded_le_iff_permits (hsource : source.hasOpenExtent = false)
    (htarget : target.hasOpenExtent = false)
    (hlength : source.extents.length = target.extents.length) :
    source.resizeNeeded target ≤ rule ↔ rule.Permits source target := by
  rw [resizeNeeded_le_iff hlength]
  cases rule with
  | sameSize => simpa [ResizeRule.Permits] using (extents_eq_iff hlength hsource htarget).symm
  | notLarger => simp [ResizeRule.Permits]
  | anySize => simp [ResizeRule.Permits, ResizeRule.le_anySize]

/-- **The walk over the axes finds the strictest rule that permits the change.** Nothing needs to
change if all extents are equal; extents must be free to grow if some differ and none shrinks, and
free to change at all if one shrinks, wherever it stands among those that grow. -/
theorem resizeNeeded_isLeast (hsource : source.hasOpenExtent = false)
    (htarget : target.hasOpenExtent = false)
    (hlength : source.extents.length = target.extents.length) :
    source.resizeNeeded target = ResizeRule.walk (source.axes target) ∧
      (source.resizeNeeded target = .sameSize ↔ source.extents = target.extents) ∧
      (source.resizeNeeded target = .notLarger ↔
        source.extents ≠ target.extents ∧ ∀ axis, source.extent axis ≤ target.extent axis) ∧
      (source.resizeNeeded target = .anySize ↔
        ∃ axis < target.extents.length, target.extent axis < source.extent axis) ∧
      IsLeast {rule : ResizeRule | rule.Permits source target} (source.resizeNeeded target) := by
  have hle (rule : ResizeRule) : source.resizeNeeded target ≤ rule ↔ rule.Permits source target :=
    resizeNeeded_le_iff_permits hsource htarget hlength
  refine ⟨resizeNeeded_eq_walk source target, ?_, ?_, ?_, ?_⟩
  · rw [← ResizeRule.le_sameSize, hle]
    rfl
  · rw [ResizeRule.eq_notLarger_iff, hle, hle]
    rfl
  · rw [ResizeRule.eq_anySize_iff, hle]
    constructor
    · intro h
      obtain ⟨axis, haxis⟩ := Classical.not_forall.mp h
      have hshrinks : target.extent axis < source.extent axis := Nat.lt_of_not_le haxis
      refine ⟨axis, ?_, hshrinks⟩
      -- behind the last axis both extents are zero
      by_contra hbehind
      have hnone : source.extent axis = 0 := by
        rw [extent, List.getElem?_eq_none (hlength ▸ Nat.le_of_not_lt hbehind)]
        rfl
      omega
    · rintro ⟨axis, -, hshrinks⟩ h
      exact Nat.not_le_of_lt hshrinks (h axis)
  · exact ⟨(hle _).mp (Nat.le_refl _), fun rule h => (hle rule).mpr h⟩

/-- One of four axes shrinks, between one that grows and one that stays. -/
theorem resizeNeeded_isLeast_between :
    let source := ofExtents .integer [some 1, some 2, some 5, some 3] false
    let target := ofExtents .integer [some 1, some 4, some 2, some 3] false
    source.hasOpenExtent = false ∧ target.hasOpenExtent = false ∧
      source.extents.length = target.extents.length ∧
      source.resizeNeeded target = .anySize ∧
      IsLeast {rule : ResizeRule | rule.Permits source target} .anySize := by
  intro source target
  obtain ⟨-, -, -, hany, hleast⟩ :=
    @resizeNeeded_isLeast source target (by decide) (by decide) (by decide)
  have hneeded := hany.mpr ⟨2, by decide, by decide⟩
  exact ⟨by decide, by decide, by decide, hneeded, hneeded ▸ hleast⟩

end Shape

end ArrayMachine
