import ArrayMachine.Shape

/-!
# The walk over the axes

How far extents change can be found by one walk over the axes: it passes those along which nothing
changes, and from the first one that differs on one that shrinks settles the rule. This comes to what
`Shape.resizeNeeded` says in terms of all axes at once.

* `Shape.resizeNeeded_eq_walk`: the rule of two shapes.
-/

namespace ArrayMachine

namespace ResizeRule

/-- From the first axis that differs on, one that shrinks settles the rule. -/
def walkOn : List (Nat × Nat) → ResizeRule
  | [] => .notLarger
  | (source, target) :: axes => if target < source then .anySize else walkOn axes

/-- The rule for the extents of a source and a target along each axis. -/
def walk : List (Nat × Nat) → ResizeRule
  | [] => .sameSize
  | (source, target) :: axes =>
    if target ≠ source then walkOn ((source, target) :: axes) else walk axes

/-- The loosest rule that an axis needs. -/
def loosest (axes : List (Nat × Nat)) : ResizeRule :=
  (axes.map fun (source, target) => forAxis source target).foldr max .sameSize

theorem max_anySize (a : ResizeRule) : max .anySize a = .anySize := by
  cases a <;> rfl

theorem walkOn_eq (axes : List (Nat × Nat)) : walkOn axes = max .notLarger (loosest axes) := by
  induction axes with
  | nil => rfl
  | cons pair axes ih =>
    obtain ⟨source, target⟩ := pair
    have hloosest : loosest ((source, target) :: axes) =
      max (forAxis source target) (loosest axes) := rfl
    rw [walkOn, hloosest]
    by_cases hshrinks : target < source
    · have haxis : forAxis source target = .anySize := by
        rw [forAxis, if_neg (by omega), if_neg (by omega)]
      rw [if_pos hshrinks, haxis, max_anySize]
      rfl
    · rw [if_neg hshrinks, ih]
      -- an axis that does not shrink needs no more than what the walk has already granted
      have haxis : forAxis source target = .sameSize ∨ forAxis source target = .notLarger := by
        unfold forAxis
        split
        · exact .inl rfl
        · rw [if_pos (by omega)]
          exact .inr rfl
      rcases haxis with haxis | haxis <;> rw [haxis] <;> cases loosest axes <;> rfl

theorem walk_eq (axes : List (Nat × Nat)) : walk axes = loosest axes := by
  induction axes with
  | nil => rfl
  | cons pair axes ih =>
    obtain ⟨source, target⟩ := pair
    have hloosest : loosest ((source, target) :: axes) =
      max (forAxis source target) (loosest axes) := rfl
    rw [walk, hloosest]
    by_cases hsame : source = target
    · rw [if_neg (Classical.not_not.mpr hsame.symm), ih, forAxis, if_pos hsame]
      cases loosest axes <;> rfl
    · rw [if_pos (Ne.symm hsame), walkOn_eq, hloosest]
      by_cases hgrows : source < target
      · rw [forAxis, if_neg hsame, if_pos hgrows]
        cases loosest axes <;> rfl
      · rw [forAxis, if_neg hsame, if_neg hgrows]
        cases loosest axes <;> rfl

end ResizeRule

/-- **The walk over the axes finds the rule.** -/
theorem Shape.resizeNeeded_eq_walk (source target : Shape) :
    source.resizeNeeded target =
      .walk ((source.extents.map (·.getD 0)).zip (target.extents.map (·.getD 0))) := by
  rw [ResizeRule.walk_eq, ResizeRule.loosest, List.map_zip_eq_zipWith]
  rfl

end ArrayMachine
