import ArrayMachine.Conversion
import ArrayMachine.Proofs.Value.Promotion

/-!
# Conversion, element by element

A mode takes an element to another kind by promotion or by a cast (`Mode.convertElement`), and a
buffer to another kind by doing so with each of its elements.

* `Mode.convertElement_agree`: where two modes both have an element at a kind, it is the same one.
* `Mode.convertBuffer_eq_ok`: a buffer at another kind.
-/

namespace ArrayMachine

/-- The element that a mode makes of one at another kind. -/
def Mode.convertElement (mode : Mode) (kind : Kind) (e : Element) : Result Element :=
  if mode.rules.casts then e.cast kind else e.promote kind

/-! ## Elements -/

namespace Element

variable {e f g : Element} {k : Kind}

theorem cast_of_kind (hk : k.isBasic = true) (h : e.kind = k) : e.cast k = .ok e := by
  subst h
  cases e with
  | null => cases hk
  | identity => cases hk
  | _ => rfl

theorem kind_of_cast (h : e.cast k = .ok f) : f.kind = k := by
  cases k <;> cases e <;> cases h <;> rfl

/-- Where an element can be promoted and cast, the two are the same. -/
theorem cast_eq_promote (hcast : e.cast k = .ok f) (hpromote : e.promote k = .ok g) : f = g := by
  rcases promote_cases hpromote with rfl | ⟨rfl, -⟩ | ⟨rfl, -⟩ | ⟨n, rfl, rfl⟩
  · have hkind := kind_of_promote hpromote
    cases k with
    | null | identity | mixed => cases hcast
    | boolean | integer | real | character =>
      rw [cast_of_kind rfl hkind] at hcast
      exact (Except.ok.inj hcast).symm
  · cases k <;> cases hcast
  · cases k <;> cases hcast
  · -- of the kinds an integer casts to, it promotes to reals only
    have hkind := kind_of_cast hcast
    obtain rfl := kind_of_promote hpromote
    exact (Except.ok.inj hcast).symm

end Element

namespace Mode

variable {m n : Mode} {e f g : Element} {k : Kind} {b c : Buffer}

/-- **No two modes make different elements of one.** -/
theorem convertElement_agree (h : m.convertElement k e = .ok f) (h' : n.convertElement k e = .ok g) :
    f = g := by
  unfold convertElement at h h'
  split at h <;> split at h'
  · exact Except.ok.inj (h.symm.trans h')
  · exact Element.cast_eq_promote h h'
  · exact (Element.cast_eq_promote h' h).symm
  · exact Except.ok.inj (h.symm.trans h')

/-! ## Buffers -/

/-- **A buffer is converted element by element.** -/
theorem convertBuffer_eq_ok (hk : k.isBasic = true) (h : m.convertBuffer b k = .ok c) :
    c.kind = k ∧ b.elements.mapM (m.convertElement k) = .ok c.elements := by
  unfold convertBuffer at h
  unfold convertElement
  split at h
  · rename_i hcasts
    simp only [if_pos hcasts]
    unfold Buffer.cast at h
    split at h
    · rename_i hkind
      obtain rfl := Except.ok.inj h
      refine ⟨hkind.symm, Result.mapM_eq_ok_iff.mpr (List.map_congr_left fun e he => ?_)⟩
      exact Element.cast_of_kind hk ((Buffer.kind_of_mem_elements he).trans hkind.symm)
    · rw [if_neg (by simp [hk])] at h
      obtain ⟨es, hes, h⟩ := Result.bind_eq_ok_iff.mp h
      -- the elements that were cast are of the kind already, and stored as they are
      obtain ⟨d, hd, hkind, helements⟩ := Buffer.ofElements_of_kind hk fun f hf => by
        obtain ⟨e, -, he⟩ := Result.exists_of_mem_mapM hes hf
        exact Element.kind_of_cast he
      obtain rfl := Except.ok.inj (h.symm.trans hd)
      exact ⟨hkind, helements ▸ hes⟩
  · rename_i hcasts
    simp only [if_neg hcasts]
    exact Buffer.elements_promote h

end Mode

end ArrayMachine
