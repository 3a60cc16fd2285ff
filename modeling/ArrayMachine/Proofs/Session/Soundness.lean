import ArrayMachine.Proofs.Indexing.Chain
import ArrayMachine.Proofs.Scope.Evolution
import ArrayMachine.Proofs.Value.Conversion
import ArrayMachine.Session

/-!
# Sound stacks

On a sound stack (`Scope.Sound`) every variable holds a coherent value or a view whose root, if it
is still there, is an array stored under the shape that the view selects of (`Scope.Valid`), and all
types are regular. Indexing such a stack gives such values again, and the operations of a session
keep it sound and lead to a later stack.

* `index_cases`: what indexing gives.
* `Sees.storedAs_later`, `Sees.positions`, `Sees.exists_copy`: what became of a view.
* `Valid.coherent_copy`: a copy is coherent.
* `Sound.push`, `Sound.restore`, `Session.leadsTo_assign`: the operations that change a stack.
-/

namespace ArrayMachine

/-! ## Overwritten elements -/

theorem Shape.Fits.set {shape : Shape} {b c : Buffer} {pos : Nat} {e : Element} (h : shape.Fits b)
    (hset : b.set pos e = .ok c) : shape.Fits c :=
  ⟨(Buffer.kind_of_set hset).1.trans h.kind, (Buffer.kind_of_set hset).2.trans h.size⟩

/-- Overwriting an element leaves an array stored as it was. -/
theorem Value.keeps_setElement {v w : Value} {pos : Nat} {e : Element}
    (h : v.setElement pos e = .ok w) : v.Keeps w := by
  unfold Value.setElement at h
  split at h
  · rename_i buffer hbuffer
    obtain ⟨c, hc, hw⟩ := Result.bind_eq_ok_iff.mp h
    obtain rfl := Except.ok.inj hw
    constructor
    · rfl
    · rintro shape ⟨b, hfits, rfl⟩
      obtain rfl := Payload.elements.inj hbuffer
      exact ⟨c, hfits.set hc, rfl⟩
  · cases h

/-- Only stored elements can be overwritten. -/
theorem Value.buffer?_of_setElement {v w : Value} {pos : Nat} {e : Element}
    (h : v.setElement pos e = .ok w) : v.buffer?.isSome = true := by
  unfold Value.setElement at h
  split at h
  · rename_i buffer hbuffer
    simp [Value.buffer?, hbuffer]
  · cases h

namespace Scope

variable {s t : Scope} {handle : Handle} {operand : IndexOperand} {indices : List IndexOperand}
  {v w base : Value} {rs : Shape}

/-! ## Valid values -/

/-- A value to be met beside the stack: a coherent one, or a view within the shape under which its
root is stored, if the root is still there. -/
inductive Valid (s : Scope) : Value → Prop where
  | coherent {v : Value} : v.Coherent → Valid s v
  | view {root : Handle} {σ : Selection} {rs : Shape} : root.stamp < s.nextStamp → σ.Within rs →
    (∀ {r : Value}, s.get root = .ok r → r.StoredAs rs) →
    Valid s (Value.ofView (σ.shape rs rs.size) ⟨root, σ⟩)

/-- **Valid values stay valid** on later stacks, whatever became of the roots. -/
theorem Valid.evolves (h : s.Valid v) (hst : s.Evolves t) : t.Valid v := by
  cases h with
  | coherent hv => exact .coherent hv
  | view hstamp hσ hroot =>
    refine .view (Nat.lt_of_lt_of_le hstamp hst.stamps) hσ ?_
    intro r hr
    obtain ⟨r', hr', hkeeps⟩ := hst.kept hstamp hr
    exact hkeeps.stored (hroot hr')

/-- Only coherent values store elements. -/
theorem Valid.coherent_of_buffer (h : s.Valid v) (hbuffer : v.buffer?.isSome = true) :
    v.Coherent := by
  cases h with
  | coherent hv => exact hv
  | view _ _ _ => cases hbuffer

/-- **A copy of a valid value is coherent.** -/
theorem Valid.coherent_copy (h : s.Valid v) (hcopy : s.materialize v = .ok w) : w.Coherent := by
  cases h with
  | coherent hv =>
    unfold materialize at hcopy
    rw [hv.view?_eq_none] at hcopy
    obtain rfl := Except.ok.inj hcopy
    exact hv
  | view _ _ _ =>
    obtain ⟨root, -, hcopy⟩ := Result.bind_eq_ok_iff.mp hcopy
    exact (Value.fresh_gather hcopy).coherent

/-! ## Sound stacks -/

/-- The values of the variables are valid, of regular types, under stamps that were given. -/
structure Sound (s : Scope) : Prop where
  stamp_lt : ∀ {handle : Handle} {v : Value}, s.get handle = .ok v → handle.stamp < s.nextStamp
  valid : ∀ {handle : Handle} {v : Value}, s.get handle = .ok v → s.Valid v
  regular : ∀ {handle : Handle} {v : Value}, s.get handle = .ok v → v.type.Regular

theorem sound_empty (capacity : Nat) : (empty capacity).Sound where
  stamp_lt h := (get_empty capacity h).elim
  valid h := (get_empty capacity h).elim
  regular h := (get_empty capacity h).elim

/-- A stack stays sound under a push, if the value pushed is valid and of a regular type. -/
theorem Sound.push (hs : s.Sound) {item : Item} (hvalid : ∀ v, item = .value v → s.Valid v)
    (hregular : ∀ v, item = .value v → v.type.Regular) : (s.push item).Sound := by
  have hlater := evolves_push s item
  constructor
  · intro handle v h
    rcases get_push h with ⟨rfl, -⟩ | h
    · exact Nat.lt_succ_self _
    · exact Nat.lt_succ_of_lt (hs.stamp_lt h)
  · intro handle v h
    rcases get_push h with ⟨-, hitem⟩ | h
    · exact (hvalid v hitem).evolves hlater
    · exact (hs.valid h).evolves hlater
  · intro handle v h
    rcases get_push h with ⟨-, hitem⟩ | h
    · exact hregular v hitem
    · exact hs.regular h

/-- And under a write that keeps the type. -/
theorem Sound.write (hs : s.Sound) (hold : s.get handle = .ok v) (hkeeps : v.Keeps w)
    (hcoherent : w.Coherent) : (s.write handle w).Sound := by
  have hlater := evolves_write hold hkeeps
  constructor
  · intro other x h
    rcases get_write hold h with ⟨rfl, -⟩ | h
    · exact hs.stamp_lt hold
    · exact hs.stamp_lt h
  · intro other x h
    rcases get_write hold h with ⟨-, rfl⟩ | h
    · exact .coherent hcoherent
    · exact (hs.valid h).evolves hlater
  · intro other x h
    rcases get_write hold h with ⟨-, rfl⟩ | h
    · rw [hkeeps.type]
      exact hs.regular hold
    · exact hs.regular h

theorem Sound.restore (hs : s.Sound) {mark : Nat} {items : List Item}
    (h : s.restore mark = .ok (items, t)) : t.Sound := by
  constructor
  · intro handle v hv
    rw [nextStamp_restore h]
    exact hs.stamp_lt (get_restore h hv)
  · intro handle v hv
    exact (hs.valid (get_restore h hv)).evolves (evolves_restore h)
  · intro handle v hv
    exact hs.regular (get_restore h hv)

/-! ## Indexing -/

/-- `v` is a view of an array that is stored under `rs`, within that shape. -/
structure Sees (s : Scope) (v : Value) (view : View) (rs : Shape) : Prop where
  root : ∃ r, s.get view.root = .ok r ∧ r.StoredAs rs
  within : view.selection.Within rs
  eq : v = Value.ofView (view.selection.shape rs rs.size) view

theorem Sees.valid {view : View} (h : s.Sees v view rs) (hs : s.Sound) : s.Valid v := by
  obtain ⟨⟨r, hr, hstored⟩, hwithin, rfl⟩ := h
  refine .view (hs.stamp_lt hr) hwithin ?_
  intro r' hr'
  obtain rfl := Except.ok.inj (hr.symm.trans hr')
  exact hstored

/-- **A root that is still there later is stored under the shape it had.** -/
theorem Sees.storedAs_later {view : View} {r : Value} (h : s.Sees v view rs) (hs : s.Sound)
    (hst : s.Evolves t) (hr : t.get view.root = .ok r) : r.StoredAs rs := by
  obtain ⟨root, hroot, hstored⟩ := h.root
  obtain ⟨root', hroot', hkeeps⟩ := hst.kept (hs.stamp_lt hroot) hr
  obtain rfl := Except.ok.inj (hroot.symm.trans hroot')
  exact hkeeps.stored hstored

/-- All positions of a view are those of any root stored under the shape, if a word counts them. -/
theorem Sees.positions {view : View} {r : Value} (h : s.Sees v view rs) (hr : r.StoredAs rs)
    (hcount : rs.Countable) (hself : view.selection ≠ .bySelf) :
    ∃ count, v.length = .ok count ∧ ∀ pos, pos < count →
      ∃ p, view.selection.flatPosition r pos = .ok p ∧ p < rs.size := by
  obtain ⟨b, -, rfl⟩ := hr
  obtain ⟨-, hwithin, rfl⟩ := h
  refine ⟨_, rfl, ?_⟩
  intro pos hpos
  rw [Selection.size_shape] at hpos
  exact Selection.flatPosition_lt _ rfl hcount hwithin hself hpos

/-- A view is copied from any root stored under the shape, with the type it has. -/
theorem Sees.exists_copy {view : View} {r : Value} (h : s.Sees v view rs)
    (hr : t.get view.root = .ok r) (hstored : r.StoredAs rs) (hcount : rs.Countable)
    (hself : view.selection ≠ .bySelf) :
    ∃ copy, t.materialize v = .ok copy ∧ copy.type = v.type := by
  obtain ⟨b, hfits, rfl⟩ := hstored
  obtain ⟨-, hwithin, rfl⟩ := h
  obtain ⟨c, -, hcopy⟩ := Selection.gather_of_within hfits hcount hwithin hself
  exact ⟨_, (materialize_ofView hr _ _).trans hcopy, rfl⟩

theorem sees_viewOf {r : Value} {σ : Selection} (hr : s.get handle = .ok r) (hstored : r.StoredAs rs)
    (hσ : σ.Within rs) (h : viewOf r handle σ = .ok v) : s.Sees v ⟨handle, σ⟩ rs := by
  obtain ⟨b, hfits, rfl⟩ := hstored
  rw [viewOf_stored] at h
  exact ⟨⟨_, hr, b, hfits, rfl⟩, hσ, (Except.ok.inj h).symm⟩

/-- A coherent value with stored elements is an array stored under its shape. -/
theorem storedAs_of_payload {buffer : Buffer} (h : v.Coherent)
    (hpayload : v.payload = .elements buffer) : ∃ rs, v.StoredAs rs ∧ v.shape? = some rs := by
  cases h with
  | stored hfits => exact ⟨_, ⟨_, hfits, rfl⟩, rfl⟩
  | _ => cases hpayload

/-- **Indexing by lists** gives a copy or a view. -/
theorem indexBy_cases {lists : List IndexList} (hbase : s.operandValue operand = .ok base)
    (hvalid : s.Valid base) (h : s.indexBy operand base lists = .ok v) :
    v.Coherent ∨ ∃ view rs, s.Sees v view rs := by
  unfold indexBy at h
  split at h
  · rename_i view hview
    obtain ⟨r, hr, h⟩ := Result.bind_eq_ok_iff.mp h
    obtain ⟨σ, hσ, h⟩ := Result.bind_eq_ok_iff.mp h
    cases hvalid with
    | coherent hcoherent =>
      rw [hcoherent.view?_eq_none] at hview
      cases hview
    | @view root τ rs _ hτ hroot =>
      obtain rfl := Option.some.inj hview
      have hstored := hroot hr
      exact .inr ⟨_, rs, sees_viewOf hr hstored (hτ.compose hstored.length hσ) h⟩
  · split at h
    · rename_i handle buffer hpayload
      obtain ⟨σ, hσ, h⟩ := Result.bind_eq_ok_iff.mp h
      have hcoherent := hvalid.coherent_of_buffer (by simp [Value.buffer?, hpayload])
      obtain ⟨rs, hstored, hshape⟩ := storedAs_of_payload hcoherent hpayload
      exact .inr ⟨_, rs, sees_viewOf hbase hstored (Selection.within_ofIndices hshape hσ).1 h⟩
    · obtain ⟨promoted, -, h⟩ := Result.bind_eq_ok_iff.mp h
      obtain ⟨σ, -, h⟩ := Result.bind_eq_ok_iff.mp h
      exact .inl (Value.fresh_gather h).coherent

/-- A vector of integers on the stack is seen by itself. -/
theorem sees_bySelf (hbase : s.get handle = .ok base) (hvalid : s.Valid base)
    (hvector : isIntegerVector base = true) (h : viewOf base handle .bySelf = .ok v) :
    ∃ rs, s.Sees v ⟨handle, .bySelf⟩ rs := by
  have hkind := (Bool.and_eq_true_iff.mp hvector).2
  cases hvalid with
  | view _ _ _ => cases hkind
  | coherent hcoherent =>
    cases hcoherent with
    | @stored rs b hfits =>
      have hwithin : Selection.bySelf.Within rs := (of_isIntegerVector hvector).1
      exact ⟨rs, sees_viewOf hbase ⟨b, hfits, rfl⟩ hwithin h⟩
    | _ => cases hkind

/-- **What indexing gives**: a coherent value, or a view of an array stored on the stack. -/
theorem index_cases (hbase : s.operandValue operand = .ok base) (hvalid : s.Valid base)
    (h : s.index operand indices = .ok v) : v.Coherent ∨ ∃ view rs, s.Sees v view rs := by
  rcases index_eq_ok hbase h with rfl | ⟨lists, h⟩ | ⟨root, rfl, hvector, h⟩
  · exact .inl (.bare _)
  · exact indexBy_cases hbase hvalid h
  · exact .inr ⟨_, sees_bySelf hbase hvalid hvector h⟩

/-- **Indexing a sound stack gives a valid value.** -/
theorem Valid.index (hs : s.Sound) (hbase : s.operandValue operand = .ok base)
    (hvalid : s.Valid base) (h : s.index operand indices = .ok v) : s.Valid v := by
  rcases index_cases hbase hvalid h with hcoherent | ⟨view, rs, hsees⟩
  · exact .coherent hcoherent
  · exact hsees.valid hs

/-! ## Assignment -/

/-- The second stack is sound, and later than the first. -/
structure LeadsTo (s t : Scope) : Prop where
  sound : t.Sound
  later : s.Evolves t

theorem Sound.leadsTo (hs : s.Sound) : s.LeadsTo s := ⟨hs, .refl s⟩

theorem LeadsTo.trans {u : Scope} (h : s.LeadsTo t) (h' : t.LeadsTo u) : s.LeadsTo u :=
  ⟨h'.sound, h.later.trans h'.later⟩

theorem Sound.leadsTo_write (hs : s.Sound) (hold : s.get handle = .ok v) (hkeeps : v.Keeps w)
    (hcoherent : w.Coherent) : s.LeadsTo (s.write handle w) :=
  ⟨hs.write hold hkeeps hcoherent, evolves_write hold hkeeps⟩

theorem Sound.leadsTo_setElement (hs : s.Sound) {pos : Nat} {e : Element}
    (h : s.setElement handle pos e = .ok t) : s.LeadsTo t := by
  obtain ⟨v, hv, h⟩ := Result.bind_eq_ok_iff.mp h
  obtain ⟨w, hw, h⟩ := Result.bind_eq_ok_iff.mp h
  obtain rfl := Except.ok.inj h
  have hkeeps := Value.keeps_setElement hw
  have hbuffer := Value.buffer?_of_setElement hw
  refine hs.leadsTo_write hv hkeeps ?_
  cases (hs.valid hv).coherent_of_buffer hbuffer with
  | stored hfits => exact (hkeeps.stored ⟨_, hfits, rfl⟩).coherent
  | _ => cases hbuffer

theorem Sound.leadsTo_storeElement (hs : s.Sound) {view : View} {pos : Nat} {e : Element}
    (h : s.storeElement view pos e = .ok t) : s.LeadsTo t := by
  obtain ⟨root, -, h⟩ := Result.bind_eq_ok_iff.mp h
  obtain ⟨shape, -, h⟩ := Result.bind_eq_ok_iff.mp h
  split at h
  · cases h
  · obtain ⟨p, -, h⟩ := Result.bind_eq_ok_iff.mp h
    exact hs.leadsTo_setElement h

/-- Stores through a view, as far as they get. -/
theorem Sound.leadsTo_storeAll (hs : s.Sound) (view : View) (v : Value) (single : Bool)
    (count pos : Nat) : s.LeadsTo (Session.storeAll s view v single count pos).2 := by
  induction count generalizing s pos with
  | zero => exact hs.leadsTo
  | succ count ih =>
    unfold Session.storeAll
    split
    · rename_i t hstore
      obtain ⟨e, -, hstore⟩ := Result.bind_eq_ok_iff.mp hstore
      have hfirst := hs.leadsTo_storeElement hstore
      exact hfirst.trans (ih hfirst.sound (pos + 1))
    · exact hs.leadsTo

theorem Sound.leadsTo_assignThrough (hs : s.Sound) (view : View) (length : Nat) (v : Value) :
    s.LeadsTo (Session.assignThrough s view length v).2 := by
  unfold Session.assignThrough
  split
  · exact hs.leadsTo
  · split
    · exact hs.leadsTo
    · exact hs.leadsTo_storeAll view v _ _ _

/-- A variable that is assigned to as a whole keeps its type. -/
theorem Sound.leadsTo_assignWhole (hs : s.Sound) {current : Value}
    (hcurrent : s.get handle = .ok current) (hv : v.Coherent)
    (h : Session.assignWhole s handle current v = .ok t) : s.LeadsTo t := by
  obtain ⟨w, hw, h⟩ := Result.bind_eq_ok_iff.mp h
  obtain ⟨⟨old, t'⟩, hreplace, h⟩ := Result.bind_eq_ok_iff.mp h
  obtain rfl := Except.ok.inj h
  obtain ⟨old', -, hreplace⟩ := Result.bind_eq_ok_iff.mp hreplace
  obtain ⟨-, rfl⟩ := Prod.mk.inj (Except.ok.inj hreplace)
  have hregular := hs.regular hcurrent
  refine hs.leadsTo_write hcurrent ⟨hv.type_convert_assignment hregular hw, ?_⟩
    (Value.Coherent.convert _ hv hw)
  rintro shape ⟨b, -, rfl⟩
  cases hregular with
  | array hshape => exact Value.storedAs_convert_assignment hshape hw

theorem Sound.leadsTo_assignCopy (hs : s.Sound) (handle : Handle) (hv : v.Coherent) :
    s.LeadsTo (Session.assignCopy s handle v).2 := by
  unfold Session.assignCopy
  split
  · exact hs.leadsTo
  · rename_i current hcurrent
    split
    · exact hs.leadsTo_assignThrough _ _ v
    · exact hs.leadsTo
    · split
      · rename_i t hwhole
        exact hs.leadsTo_assignWhole hcurrent hv hwhole
      · exact hs.leadsTo

end Scope

/-- A copy is coherent, whatever it is a copy of. -/
theorem Session.coherent_copy {s : Session} {v w : Value} (hv : v.view? = none → v.Coherent)
    (h : s.copy v = .ok w) : w.Coherent := by
  unfold copy Scope.materialize at h
  split at h
  · obtain ⟨root, -, hgather⟩ := Result.bind_eq_ok_iff.mp h
    exact (Value.fresh_gather hgather).coherent
  · rename_i hview
    obtain rfl := Except.ok.inj h
    exact hv hview

/-- **Assignment leads to a sound later stack**, whatever its answer. -/
theorem Session.leadsTo_assign {s : Session} {v : Value} (hs : s.scope.Sound)
    (hv : s.scope.Valid v) (handle : Handle) : s.scope.LeadsTo (s.assign handle v).2.scope := by
  unfold assign
  split
  · exact hs.leadsTo
  · rename_i w hcopy
    exact hs.leadsTo_assignCopy handle (hv.coherent_copy hcopy)

end ArrayMachine
