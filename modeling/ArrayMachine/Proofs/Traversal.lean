import ArrayMachine.Fault

/-!
# Traversals that can fail

Applying an operation that can fail to each member of a list gives the list of its values, or the
first fault. `Result.mapM_eq_ok_iff` says it in one equation of lists, `Result.mapM_congr` and
`Result.mapM_range` say when two traversals agree, faults included.
-/

namespace ArrayMachine.Result

variable {α β : Type} {f g : α → Result β} {xs : List α} {ys : List β}

/-- What a function makes of a result is a fault where the result is one. -/
theorem map_eq_error_iff {f : α → β} {r : Result α} {fault : Fault} :
    f <$> r = .error fault ↔ r = .error fault := by
  cases r with
  | error other =>
    constructor <;> rintro ⟨⟩ <;> rfl
  | ok a => constructor <;> rintro ⟨⟩

/-- **A traversal succeeds where each of its steps does.** -/
theorem mapM_eq_ok_iff : xs.mapM f = .ok ys ↔ xs.map f = ys.map .ok := by
  induction xs generalizing ys with
  | nil => cases ys <;> simp [pure, Except.pure]
  | cons x xs ih =>
    rw [List.mapM_cons, bind_eq_ok_iff]
    constructor
    · rintro ⟨y, hy, h⟩
      obtain ⟨zs, hzs, h⟩ := bind_eq_ok_iff.mp h
      obtain rfl : y :: zs = ys := Except.ok.inj h
      rw [List.map_cons, List.map_cons, hy, ih.mp hzs]
    · intro h
      cases ys with
      | nil => simp at h
      | cons y zs =>
        rw [List.map_cons, List.map_cons, List.cons.injEq] at h
        exact ⟨y, h.1, bind_eq_ok_iff.mpr ⟨zs, ih.mpr h.2, rfl⟩⟩

theorem length_of_mapM (h : xs.mapM f = .ok ys) : ys.length = xs.length := by
  have := congrArg List.length (mapM_eq_ok_iff.mp h)
  simpa using this.symm

theorem getElem_of_mapM (h : xs.mapM f = .ok ys) {i : Nat} (hi : i < xs.length)
    (hi' : i < ys.length) : f xs[i] = .ok ys[i] := by
  have hm := List.getElem_of_eq (mapM_eq_ok_iff.mp h) (i := i) (by simpa using hi)
  simpa using hm

/-- The value that a traversal by position has for a position. -/
theorem getElem_of_mapM_range {f : Nat → Result β} {n i : Nat}
    (h : (List.range n).mapM f = .ok ys) (hi : i < ys.length) : f i = .ok ys[i] := by
  have hlen := length_of_mapM h
  have hread := getElem_of_mapM h (by omega) hi
  rwa [List.getElem_range] at hread

/-- Every value comes from a member. -/
theorem exists_of_mem_mapM (h : xs.mapM f = .ok ys) {y : β} (hy : y ∈ ys) :
    ∃ x ∈ xs, f x = .ok y := by
  obtain ⟨i, hi, rfl⟩ := List.getElem_of_mem hy
  have hlen := length_of_mapM h
  exact ⟨xs[i], List.getElem_mem _, getElem_of_mapM h (by omega) hi⟩

/-- A traversal by an operation that gives nothing but `g`, where it gives something. -/
theorem eq_map_of_mapM {g : α → β} (hg : ∀ x y, f x = .ok y → y = g x) (h : xs.mapM f = .ok ys) :
    ys = xs.map g := by
  refine List.ext_getElem (by rw [length_of_mapM h, List.length_map]) fun i hi hi' => ?_
  rw [List.getElem_map]
  exact hg _ _ (getElem_of_mapM h (by rwa [List.length_map] at hi') hi)

theorem exists_mapM_eq_ok (h : ∀ x ∈ xs, ∃ y, f x = .ok y) : ∃ ys, xs.mapM f = .ok ys := by
  induction xs with
  | nil => exact ⟨[], rfl⟩
  | cons x xs ih =>
    obtain ⟨y, hy⟩ := h x List.mem_cons_self
    obtain ⟨ys, hys⟩ := ih fun z hz => h z (List.mem_cons_of_mem x hz)
    refine ⟨y :: ys, ?_⟩
    rw [List.mapM_cons, hy, hys]
    rfl

/-- A traversal fails as the first of its steps that does. -/
theorem exists_of_mapM_error {fault : Fault} (h : xs.mapM f = .error fault) :
    ∃ i, ∃ hi : i < xs.length, f xs[i] = .error fault ∧
      ∀ j, ∀ hj : j < i, ∃ y, f xs[j] = .ok y := by
  induction xs with
  | nil => cases h
  | cons x xs ih =>
    rw [List.mapM_cons] at h
    cases hx : f x with
    | error other =>
      rw [hx] at h
      obtain rfl := Except.error.inj h
      exact ⟨0, Nat.succ_pos _, hx, fun j hj => absurd hj (Nat.not_lt_zero j)⟩
    | ok y =>
      rw [hx] at h
      obtain ⟨i, hi, hfault, hbefore⟩ := ih (map_eq_error_iff.mp h)
      refine ⟨i + 1, Nat.succ_lt_succ hi, hfault, ?_⟩
      rintro (_ | j) hj
      · exact ⟨y, hx⟩
      · exact hbefore j (Nat.lt_of_succ_lt_succ hj)

theorem mapM_congr (h : ∀ x ∈ xs, f x = g x) : xs.mapM f = xs.mapM g := by
  induction xs with
  | nil => rfl
  | cons x xs ih =>
    rw [List.mapM_cons, List.mapM_cons, h x List.mem_cons_self,
      ih fun z hz => h z (List.mem_cons_of_mem x hz)]

/-- A traversal by an operation that gives what another one does, where that gives something. -/
theorem mapM_of_ok (hfg : ∀ x y, f x = .ok y → g x = .ok y) (h : xs.mapM f = .ok ys) :
    xs.mapM g = .ok ys := by
  refine (mapM_congr fun x hx => ?_).trans h
  have hmem : f x ∈ ys.map .ok := mapM_eq_ok_iff.mp h ▸ List.mem_map_of_mem hx
  obtain ⟨y, -, hy⟩ := List.mem_map.mp hmem
  rw [← hy, hfg x y hy.symm]

/-- A traversal by position is a traversal of the list. -/
theorem mapM_range {f : Nat → Result β} (h : ∀ i (hi : i < xs.length), f i = g xs[i]) :
    (List.range xs.length).mapM f = xs.mapM g := by
  induction xs generalizing f with
  | nil => rfl
  | cons x xs ih =>
    have hrest : (List.range xs.length).mapM (f ∘ (· + 1)) = xs.mapM g :=
      ih fun i hi => h (i + 1) (Nat.succ_lt_succ hi)
    rw [List.length_cons, List.range_succ_eq_map, List.mapM_cons, List.mapM_map, List.mapM_cons,
      h 0 (Nat.succ_pos _)]
    rw [show (f ∘ Nat.succ) = f ∘ (· + 1) from rfl, hrest]
    rfl

/-- A traversal by position that gives the members of a list gives the list. -/
theorem mapM_range_eq_ok {f : Nat → Result β} (h : ∀ i (hi : i < ys.length), f i = .ok ys[i]) :
    (List.range ys.length).mapM f = .ok ys :=
  (mapM_range h).trans (mapM_eq_ok_iff.mpr rfl)

end ArrayMachine.Result
