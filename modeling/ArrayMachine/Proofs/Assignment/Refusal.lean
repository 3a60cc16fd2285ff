import ArrayMachine.Proofs.Assignment.Through
import ArrayMachine.Proofs.Session.Soundness
import ArrayMachine.Proofs.Value.Assigned

/-!
# What a refused request leaves

A session that refuses an assignment, a read or a print is left as it was, with two exceptions
(`Session.Leaves`). A print that its sink fails leaves what the sink had taken of the text. An
assignment through a view stops at the first store that fails, and the stores before it stay. On a
sound stack that takes elements of different kinds, or positions that are read anew or that come
around, so it is only met with a literal that is still mixed, with a vector indexed by itself, or
with a matrix whose elements no word counts: all other elements promote to the kind of the root, or
none of them does.

* `Coherent.supplyAs_cases`: all or nothing.
* `Selection.storeAll_cases`: the loop of such stores.
* `Session.storeAll_stops`: the loop up to a store that fails.
* `Session.request_refused`: any refused request.
-/

namespace ArrayMachine

/-! ## All or nothing -/

namespace Value

variable {x : Value} {shape : Shape} {n count : Nat} {k : Kind}

/-- Of the arrays that store nothing, only null and identity arrays have elements. -/
theorem element_kinds_sentinel (shape : Shape) :
    (∃ k, ∀ pos, pos < shape.size → ∃ e, (sentinel shape).element pos = .ok e ∧ e.kind = k) ∨
      ∀ pos, ∃ fault, (sentinel shape).element pos = .error fault := by
  by_cases hnull : shape.element = .null
  · exact .inl ⟨.null, fun pos hpos => ⟨.null, element_null hnull hpos, rfl⟩⟩
  · by_cases hidentity : shape.element = .identity
    · exact .inl ⟨.identity, fun pos hpos => ⟨.identity, element_identity hidentity hpos, rfl⟩⟩
    · right
      intro pos
      by_cases hpos : pos < shape.size
      · rw [element_sentinel hpos]
        unfold elementWithin
        cases hkind : shape.element <;>
          simp_all [sentinel, kind?, shape?, ValueType.shape?]
      · exact ⟨_, if_pos (Nat.le_of_not_lt hpos)⟩

/-- The elements of a value that is not a mixed literal are all of one kind, or none can be read. -/
theorem Coherent.element_kinds (hx : x.Coherent) (hmixed : x.isMixed = false)
    (hlength : x.length = .ok n) :
    (∃ k, ∀ pos, pos < n → ∃ e, x.element pos = .ok e ∧ e.kind = k) ∨
      ∀ pos, ∃ fault, x.element pos = .error fault := by
  cases hx with
  | bare type =>
    cases type with
    | array shape =>
      obtain rfl : shape.size = n := Except.ok.inj hlength
      exact element_kinds_sentinel shape
    | _ => cases hlength
  | @stored shape b hfits =>
    obtain rfl : shape.size = n := Except.ok.inj hlength
    left
    refine ⟨b.kind, fun pos hpos => ?_⟩
    have hlt : pos < b.elements.length := by rwa [Buffer.length_elements, hfits.size]
    exact ⟨_, element_stored_of_lt hfits hlt, Buffer.kind_of_mem_elements (List.getElem_mem hlt)⟩
  | mixed hsize => cases hmixed
  | interval i =>
    obtain rfl : i.length = n := Except.ok.inj hlength
    left
    refine ⟨.integer, fun pos hpos => ⟨.integer (i.member pos), ?_, rfl⟩⟩
    show (if i.length ≤ pos then _ else Element.integer <$> i.get pos) = _
    rw [if_neg (Nat.not_le.mpr hpos)]
    unfold Interval.get
    rw [if_pos hpos]
    rfl
  | tuple hfields => cases hlength

/-- **What a value supplies is all promoted, or nothing is**, unless it is a mixed literal. -/
theorem Coherent.supplyAs_cases (hx : x.Coherent) (hmixed : x.isMixed = false)
    (hlength : x.length = .ok n) (hfit : n = 1 ∨ n = count) (k : Kind) :
    (∀ pos, pos < count → ∃ e, x.supplyAs k (n = 1) pos = .ok e) ∨
      ∀ pos, pos < count → ∃ fault, x.supplyAs k (n = 1) pos = .error fault := by
  have hindex : ∀ pos, pos < count → (if n = 1 then 0 else pos) < n := by
    intro pos hpos
    split <;> omega
  rcases hx.element_kinds hmixed hlength with ⟨j, hkinds⟩ | hnone
  · by_cases hpromotes : j.promotesTo k = true
    · left
      intro pos hpos
      obtain ⟨e, he, rfl⟩ := hkinds _ (hindex pos hpos)
      obtain ⟨r, hr⟩ := Element.exists_promote hpromotes
      exact ⟨r, Result.bind_eq_ok_iff.mpr ⟨e, (supply_eq x n pos).trans he, hr⟩⟩
    · right
      intro pos hpos
      obtain ⟨e, he, rfl⟩ := hkinds _ (hindex pos hpos)
      obtain ⟨fault, hfault⟩ := Element.exists_fault_promote (Bool.eq_false_iff.mpr hpromotes)
      refine ⟨fault, ?_⟩
      unfold supplyAs
      rw [supply_eq, he]
      exact hfault
  · right
    intro pos _
    obtain ⟨fault, hfault⟩ := hnone (if n = 1 then 0 else pos)
    refine ⟨fault, ?_⟩
    unfold supplyAs
    rw [supply_eq, hfault]
    rfl

end Value

namespace Selection

variable {σ : Selection} {rs : Shape} {b : Buffer} {x : Value} {n : Nat}

/-- **All or nothing is stored** through a view within the shape of its root, but of a mixed
literal. -/
theorem storeAll_cases (hσ : σ.Within rs) (hself : σ ≠ bySelf) (hb : rs.Fits b)
    (hwords : rs.Countable) (hx : x.Coherent) (hmixed : x.isMixed = false)
    (hlength : x.length = .ok n) (hfit : n = 1 ∨ n = σ.count rs.size) :
    (∃ r, σ.storeAll x (n = 1) (Value.stored rs b) (σ.count rs.size) 0 = (.ok (), r)) ∨
      ∃ fault, σ.storeAll x (n = 1) (Value.stored rs b) (σ.count rs.size) 0 =
        (.error fault, Value.stored rs b) := by
  rcases hx.supplyAs_cases hmixed hlength hfit b.kind with hall | hnone
  · left
    refine exists_storeAll hself (Nat.le_of_eq (Nat.zero_add _)) (fun i hi => ?_) hall
    rw [hb.size]
    exact flatPosition_lt _ rfl hwords hσ hself hi
  · cases hcount : σ.count rs.size with
    | zero => exact .inl ⟨_, rfl⟩
    | succ count =>
      right
      have hfirst : ∃ fault, σ.storeNext x (n = 1) (Value.stored rs b) 0 = .error fault :=
        storeNext_of_unsupplied (hnone 0 (hcount ▸ Nat.succ_pos count))
      obtain ⟨fault, hfault⟩ := hfirst
      exact ⟨fault, storeAll_of_error hfault count⟩

end Selection

/-! ## Stores before one that fails -/

namespace Session

variable {scope left : Scope} {view : View} {x root : Value} {single : Bool} {count pos : Nat}
  {fault : Fault}

/-- The stack with what `x` supplies for a position of a view stored there. -/
def storeAt (view : View) (x : Value) (single : Bool) (scope : Scope) (pos : Nat) :
    Result Scope := do
  scope.storeElement view pos (← x.supply single pos)

/-- **A loop that is refused** has made the stores before the one that fails. -/
theorem storeAll_stops (h : storeAll scope view x single count pos = (.error fault, left)) :
    ∃ k, k < count ∧ (List.range' pos k).foldlM (storeAt view x single) scope = .ok left ∧
      storeAt view x single left (pos + k) = .error fault := by
  induction count generalizing scope pos with
  | zero => cases (Prod.mk.inj h).1
  | succ count ih =>
    unfold storeAll at h
    cases hnext : storeAt view x single scope pos with
    | error other =>
      have hstop : (.error other, scope) = ((.error fault, left) : Result Unit × Scope) := by
        rw [← h]
        unfold storeAt Value.supply at hnext
        rw [hnext]
      obtain ⟨hfault, rfl⟩ := Prod.mk.inj hstop
      exact ⟨0, Nat.succ_pos count, rfl, hnext.trans (congrArg _ (Except.error.inj hfault))⟩
    | ok next =>
      have hrest : storeAll next view x single count (pos + 1) = (.error fault, left) := by
        rw [← h]
        unfold storeAt Value.supply at hnext
        rw [hnext]
      obtain ⟨k, hk, hstores, hfails⟩ := ih hrest
      refine ⟨k + 1, Nat.succ_lt_succ hk, ?_, ?_⟩
      · rw [List.range'_succ, List.foldlM_cons, hnext]
        exact hstores
      · rwa [show pos + (k + 1) = pos + 1 + k by omega]

/-- A store needs an array with stored elements. -/
theorem stored_of_storeAt (h : storeAt view x single scope pos = .ok left) :
    ∃ rs b, scope.get view.root = .ok (Value.stored rs b) := by
  obtain ⟨e, -, h⟩ := Result.bind_eq_ok_iff.mp h
  obtain ⟨root, hroot, -⟩ := Result.bind_eq_ok_iff.mp h
  rw [Scope.storeElement_eq hroot] at h
  obtain ⟨r, hstore, -⟩ := Result.bind_eq_ok_iff.mp h
  obtain ⟨rs, b, rfl⟩ := Selection.stored_of_store hstore
  exact ⟨rs, b, hroot⟩

end Session

/-! ## Requests -/

namespace Session

/-- What a session may refuse. -/
inductive Request where
  | assign (target : Handle) (v : Value)
  | read (stream : Value) (kind : Kind)
  | print (stream v : Value)

/-- The answer to a request, with the value that was read, and the session it leaves. -/
def request (s : Session) : Request → Result (Option Value) × Session
  | .assign target v => ((fun _ => none) <$> (s.assign target v).1, (s.assign target v).2)
  | .read stream kind =>
    match s.read stream kind with
    | .ok (v, t) => (.ok (some v), t)
    | .error fault => (.error fault, s)
  | .print stream v => ((fun _ => none) <$> (s.print stream v).1, (s.print stream v).2)

/-- What a request refused with a fault may leave of a session. -/
inductive Leaves (s : Session) : Request → Fault → Session → Prop where
  | same (r : Request) (fault : Fault) : Leaves s r fault s
  /-- A print that the sink fails has written a part of the text from the front: less than all of
  it if a write failed, and all of it if only the flush did. -/
  | cut {stream v copy : Value} {bytes part : List UInt8} {reason : String} {sink : Sink} :
    s.copy v = .ok copy → copy.render = .ok bytes → part <+: bytes →
    sink.written = s.sink.written ++ part →
    (part ≠ bytes ∧ sink.flushes = s.sink.flushes ∨
      part = bytes ∧ s.sink.flushes = some reason :: sink.flushes) →
    Leaves s (.print stream v) (Sink.failed reason) { s with sink }
  /-- An assignment through a view has made the stores before the one that fails. The root keeps its
  shape and its number of elements, and the elements that the view does not select. -/
  | begun {target : Handle} {current v copy : Value} {view : View} {rs : Shape} {b c : Buffer}
      {supplied k : Nat} {fault : Fault} :
    s.scope.get target = .ok current → current.view? = some view →
    s.copy v = .ok copy → copy.length = .ok supplied → 0 < k →
    (List.range k).foldlM (storeAt view copy (supplied = 1)) s.scope =
      .ok (s.scope.write view.root (Value.stored rs c)) →
    storeAt view copy (supplied = 1) (s.scope.write view.root (Value.stored rs c)) k =
      .error fault →
    s.scope.get view.root = .ok (Value.stored rs b) → c.kind = b.kind → c.length = b.length →
    (view.selection ≠ .bySelf → ∀ q : Nat,
      (∀ pos, view.selection.flatPosition (Value.stored rs b) pos ≠ .ok q) →
      c.elements[q]? = b.elements[q]?) →
    Leaves s (.assign target v) fault { s with scope := s.scope.write view.root (Value.stored rs c) }

/-- An assignment of a view or of a coherent value to a variable that holds a valid one, as every
variable of a sound stack does. -/
def Accepts (s : Session) (target : Handle) (v : Value) : Prop :=
  (v.view? = none → v.Coherent) ∧
    ∀ {current : Value}, s.scope.get target = .ok current → s.scope.Valid current

/-- If the assignment is through a view, it is not of a vector by itself, a word counts the elements
of its root, and the value is not a mixed literal. -/
def StoresAlike (s : Session) (target : Handle) (v : Value) : Prop :=
  ∀ current view root copy, s.scope.get target = .ok current → current.view? = some view →
    s.scope.get view.root = .ok root → s.copy v = .ok copy →
    view.selection ≠ .bySelf ∧ root.Countable ∧ copy.isMixed = false

variable {s t : Session} {r : Request} {fault : Fault} {target : Handle} {current v copy root : Value}
  {view : View}

/-- Without a view to store through, a refused assignment changes nothing. -/
theorem refused_assign_direct
    (hview : ∀ current, s.scope.get target = .ok current → current.view? = none)
    (h : s.assign target v = (.error fault, t)) : t = s := by
  unfold assign at h
  split at h
  · exact (Prod.mk.inj h).2.symm
  · unfold assignCopy at h
    cases hget : s.scope.get target with
    | error other =>
      rw [hget] at h
      exact (Prod.mk.inj h).2.symm
    | ok current =>
      rw [hget] at h
      simp only [hview current hget] at h
      split at h
      · cases (Prod.mk.inj h).1
      · exact (Prod.mk.inj h).2.symm

/-- **A refused assignment through a view** has changed nothing, or made the stores before the one
that fails. -/
theorem leaves_of_refused_through (htarget : s.scope.get target = .ok current)
    (hview : current.view? = some view) (hroot : s.scope.get view.root = .ok root)
    (h : s.assign target v = (.error fault, t)) : s.Leaves (.assign target v) fault t := by
  obtain ⟨other, hother⟩ | ⟨copy, length, supplied, hcopy, hlength, hsupplied, hfit, hassign⟩ :=
    assign_through_cases htarget hview hroot v
  · obtain ⟨-, rfl⟩ := Prod.mk.inj (h.symm.trans hother)
    exact .same _ _
  · obtain ⟨hfault, rfl⟩ := Prod.mk.inj (h.symm.trans hassign)
    have hloop := storeAll_eq hroot copy (supplied = 1) length 0
    rw [← hfault] at hloop
    obtain ⟨k, -, hstores, hfails⟩ := storeAll_stops hloop
    rw [← List.range_eq_range'] at hstores
    rw [Nat.zero_add] at hfails
    cases k with
    | zero =>
      rw [show s.scope.write view.root _ = s.scope from (Except.ok.inj hstores).symm]
      exact .same _ _
    | succ k =>
      have hfirst : ∃ next, storeAt view copy (supplied = 1) s.scope 0 = .ok next := by
        rw [List.range_succ_eq_map, List.foldlM_cons] at hstores
        obtain ⟨next, hnext, -⟩ := Result.bind_eq_ok_iff.mp hstores
        exact ⟨next, hnext⟩
      obtain ⟨next, hnext⟩ := hfirst
      obtain ⟨rs, b, hstored⟩ := stored_of_storeAt hnext
      obtain rfl := Except.ok.inj (hroot.symm.trans hstored)
      by_cases hself : view.selection = .bySelf
      · obtain ⟨c, hkind, hlength, hc⟩ :=
          view.selection.storeAll_keeps copy (supplied = 1) rs b length 0
        rw [hc] at hstores hfails ⊢
        exact .begun htarget hview hcopy hsupplied (Nat.succ_pos k) hstores hfails hstored hkind
          hlength fun hne => absurd hself hne
      · obtain ⟨c, hkind, hlength, hstay, hc⟩ :=
          Selection.storeAll_unselected hself copy (supplied = 1) rs b length 0
        rw [hc] at hstores hfails ⊢
        exact .begun htarget hview hcopy hsupplied (Nat.succ_pos k) hstores hfails hstored hkind
          hlength fun _ => hstay

theorem leaves_of_refused_assign (h : s.assign target v = (.error fault, t)) :
    s.Leaves (.assign target v) fault t := by
  have hdirect (hview : ∀ current, s.scope.get target = .ok current → current.view? = none) :
      s.Leaves (.assign target v) fault t := by
    rw [refused_assign_direct hview h]
    exact .same _ _
  cases htarget : s.scope.get target with
  | error other =>
    rw [htarget] at hdirect
    exact hdirect nofun
  | ok current =>
    cases hview : current.view? with
    | none =>
      refine hdirect fun other hother => ?_
      obtain rfl := Except.ok.inj (htarget.symm.trans hother)
      exact hview
    | some view =>
      cases hroot : s.scope.get view.root with
      | error other =>
        obtain rfl := congrArg Prod.snd (h.symm.trans (Prod.ext rfl rfl))
        rw [assign_dangling htarget hview hroot]
        exact .same _ _
      | ok root => exact leaves_of_refused_through htarget hview hroot h

/-- **Elements that are stored alike** are stored all or not at all. -/
theorem refused_assign_alike (hvalid : s.Accepts target v) (halike : s.StoresAlike target v)
    (h : s.assign target v = (.error fault, t)) : t = s := by
  obtain ⟨hv, hvalid⟩ := hvalid
  cases htarget : s.scope.get target with
  | error other =>
    refine refused_assign_direct ?_ h
    rw [htarget]
    exact nofun
  | ok current =>
    cases hvalid htarget with
    | coherent hcurrent =>
      refine refused_assign_direct (fun other hother => ?_) h
      obtain rfl := Except.ok.inj (htarget.symm.trans hother)
      exact hcurrent.view?_eq_none
    | @view root σ rs _ hσ hstored =>
      cases hroot : s.scope.get root with
      | error other =>
        obtain rfl := congrArg Prod.snd (h.symm.trans (Prod.ext rfl rfl))
        exact assign_dangling htarget rfl hroot v
      | ok r =>
        obtain ⟨b, hb, rfl⟩ := hstored hroot
        rcases assign_through_cases htarget rfl hroot v with
          ⟨other, hother⟩ | ⟨copy, length, supplied, hcopy, hlength, hsupplied, hfit, hassign⟩
        · exact (Prod.mk.inj (h.symm.trans hother)).2
        · obtain ⟨hself, hwords, hmixed⟩ := halike _ _ _ _ htarget rfl hroot hcopy
          obtain rfl := Except.ok.inj hlength
          obtain ⟨hfault, rfl⟩ := Prod.mk.inj (h.symm.trans hassign)
          rw [Selection.size_shape] at hfit hfault ⊢
          rcases Selection.storeAll_cases hσ hself hb (hwords.shape rfl) (coherent_copy hv hcopy)
            hmixed hsupplied hfit with ⟨r, hall⟩ | ⟨other, hall⟩
          · rw [hall] at hfault
            cases hfault
          · rw [hall, Scope.write_get hroot]

/-- **A text that is not written** is written in part, or not flushed. -/
theorem refused_write {sink left : Sink} {bytes : List UInt8}
    (h : sink.write bytes = (.error fault, left)) :
    ∃ reason part, fault = Sink.failed reason ∧ part <+: bytes ∧
      left.written = sink.written ++ part ∧
      (part ≠ bytes ∧ left.flushes = sink.flushes ∨
        part = bytes ∧ sink.flushes = some reason :: left.flushes) := by
  obtain ⟨hfront, hall⟩ := Sink.takeText_front sink.writes bytes
  rcases htaken : Sink.takeText sink.writes bytes with ⟨stop, part, writes⟩
  rw [htaken] at hfront hall
  unfold Sink.write at h
  rw [htaken] at h
  cases stop with
  | some reason =>
    obtain ⟨hfault, rfl⟩ := Prod.mk.inj h
    have hpart : part ≠ bytes := fun hsame => nomatch hall.mpr hsame
    exact ⟨reason, part, (Except.error.inj hfault).symm, hfront, rfl, .inl ⟨hpart, rfl⟩⟩
  | none =>
    cases hflushes : sink.flushes with
    | nil =>
      simp only [Sink.flush, hflushes] at h
      cases (Prod.mk.inj h).1
    | cons outcome flushes =>
      cases outcome with
      | none =>
        simp only [Sink.flush, hflushes] at h
        cases (Prod.mk.inj h).1
      | some reason =>
        simp only [Sink.flush, hflushes] at h
        obtain ⟨hfault, rfl⟩ := Prod.mk.inj h
        exact ⟨reason, part, (Except.error.inj hfault).symm, hfront, rfl, .inr ⟨hall.mp rfl, rfl⟩⟩

/-- A print that is refused has changed nothing, or its text is not written. -/
theorem refused_print {sink left : Sink} {stream : Value}
    (h : sink.print stream v = (.error fault, left)) :
    left = sink ∨ ∃ bytes, v.render = .ok bytes ∧ sink.write bytes = (.error fault, left) := by
  unfold Sink.print at h
  split at h
  · cases hbytes : v.render with
    | error other =>
      rw [hbytes] at h
      exact .inl (Prod.mk.inj h).2.symm
    | ok bytes =>
      rw [hbytes] at h
      exact .inr ⟨bytes, rfl, h⟩
  · exact .inl (Prod.mk.inj h).2.symm

theorem leaves_of_refused_print {stream : Value} (h : s.print stream v = (.error fault, t)) :
    s.Leaves (.print stream v) fault t := by
  unfold print at h
  split at h
  · obtain ⟨-, rfl⟩ := Prod.mk.inj h
    exact .same _ _
  · rename_i copy hcopy
    rcases hprint : s.sink.print stream copy with ⟨answer, left⟩
    rw [hprint] at h
    obtain ⟨rfl, rfl⟩ := Prod.mk.inj h
    rcases refused_print hprint with rfl | ⟨bytes, hbytes, hwrite⟩
    · exact .same _ _
    · obtain ⟨reason, part, rfl, hfront, hwritten, hend⟩ := refused_write hwrite
      exact .cut hcopy hbytes hfront hwritten hend

/-- A read is refused for its stream or its kind, whatever there is to read. -/
theorem refused_read {stream : Value} {kind : Kind} (h : s.read stream kind = .error fault)
    (other : Session) : other.read stream kind = .error fault := by
  unfold read at h ⊢
  by_cases hstream : stream.type = .input
  · rw [if_pos hstream] at h ⊢
    cases kind with
    | integer | real | boolean | character => cases h
    | null | identity | mixed => exact h
  · rw [if_neg hstream] at h ⊢
    exact h

/-- **What a refused request leaves.** A print may have been cut short, and an assignment through a
view begun; all else is as it was. An assignment to a valid variable is only begun through a vector
by itself, of a mixed literal, or into a matrix that no word counts, and a read is refused whatever
there is to read. -/
theorem request_refused (h : s.request r = (.error fault, t)) :
    s.Leaves r fault t ∧
    (∀ target v, r = .assign target v → s.Accepts target v → s.StoresAlike target v → t = s) ∧
    ∀ stream kind, r = .read stream kind →
      ∀ other : Session, other.request r = (.error fault, other) := by
  cases r with
  | assign target v =>
    obtain ⟨hanswer, rfl⟩ := Prod.mk.inj h
    have hrefused : s.assign target v = (.error fault, (s.assign target v).2) :=
      Prod.ext (Result.map_eq_error_iff.mp hanswer) rfl
    refine ⟨leaves_of_refused_assign hrefused, ?_, nofun⟩
    rintro _ _ ⟨⟩ hvalid halike
    exact refused_assign_alike hvalid halike hrefused
  | read stream kind =>
    simp only [request] at h
    cases hread : s.read stream kind with
    | ok answer =>
      rw [hread] at h
      cases (Prod.mk.inj h).1
    | error other =>
      rw [hread] at h
      obtain ⟨hfault, rfl⟩ := Prod.mk.inj h
      obtain rfl := Except.error.inj hfault
      refine ⟨.same _ _, fun _ _ hr => (nomatch hr), ?_⟩
      intro _ _ _ u
      simp only [request, refused_read hread u]
  | print stream v =>
    obtain ⟨hanswer, rfl⟩ := Prod.mk.inj h
    have hrefused := Result.map_eq_error_iff.mp hanswer
    exact ⟨leaves_of_refused_print (Prod.ext hrefused rfl), fun _ _ hr => (nomatch hr), nofun⟩

/-- A literal of an integer and a character, through a view of a vector of integers. -/
theorem request_refused_literal :
    let start := Session.start Settings.default [] Sink.empty
    let v := Value.vector (.integers #[1, 2])
    let whole := Value.ofView (Shape.vector .integer 2) ⟨⟨0, 0⟩, .vector (.many #[0, 1])⟩
    let x : Value := ⟨.array (Shape.vector .mixed 2), .mixed [.integer 5, .character 97]⟩
    let s := ((start.allocate v).2.allocate whole).2
    let r := Request.assign ⟨1, 1⟩ x
    s.scope.index (.anchored ⟨0, 0⟩) [.value v] = .ok whole ∧
      (s.request r).1 = .error (Element.cannotPromote .character .integer) ∧
      s.Leaves r (Element.cannotPromote .character .integer) (s.request r).2 ∧
      (s.request r).2.scope.get ⟨0, 0⟩ = .ok (Value.vector (.integers #[5, 2])) := by
  intro start v whole x s r
  have hrefused : s.request r = (.error (Element.cannotPromote .character .integer),
      (s.request r).2) := rfl
  exact ⟨rfl, rfl, (request_refused hrefused).1, rfl⟩

/-- **A refused request may leave something behind**: the first of two elements of a literal, the
three bytes of five that a write takes, and all five where the flush fails. -/
theorem refused_begun_and_cut :
    let tight : Sink := ⟨[], [.takes 3, .failure "sink full"], []⟩
    let unflushed : Sink := ⟨[], [], [some "sink full"]⟩
    let start := Session.start Settings.default [] tight
    let v := Value.vector (.integers #[1, 2])
    let whole := Value.ofView (Shape.vector .integer 2) ⟨⟨0, 0⟩, .vector (.many #[0, 1])⟩
    let x : Value := ⟨.array (Shape.vector .mixed 2), .mixed [.integer 5, .character 97]⟩
    let hello := Value.string [104, 101, 108, 108, 111]
    let s := ((start.allocate v).2.allocate whole).2
    let u := Session.start Settings.default [] unflushed
    s.scope.index (.anchored ⟨0, 0⟩) [.value v] = .ok whole ∧
      Value.literal [.integer 5, .character 97] = .ok x ∧
      s.scope.get ⟨0, 0⟩ = .ok v ∧ s.scope.get ⟨1, 1⟩ = .ok whole ∧ s.sink.written = [] ∧
      (s.assign ⟨1, 1⟩ x).1 = .error (Element.cannotPromote .character .integer) ∧
      (s.assign ⟨1, 1⟩ x).2.scope.get ⟨0, 0⟩ = .ok (Value.vector (.integers #[5, 2])) ∧
      (s.print Value.output hello).1 = .error (Sink.failed "sink full") ∧
      (s.print Value.output hello).2.sink.written = [104, 101, 108] ∧
      (u.print Value.output hello).1 = .error (Sink.failed "sink full") ∧
      (u.print Value.output hello).2.sink.written = [104, 101, 108, 108, 111] ∧
      (s.assign ⟨1, 1⟩ x).2 ≠ s ∧ (s.print Value.output hello).2.sink.written ≠ s.sink.written ∧
      (u.print Value.output hello).2.sink.written ≠ u.sink.written := by
  intro tight unflushed start v whole x hello s u
  refine ⟨rfl, rfl, rfl, rfl, rfl, rfl, rfl, rfl, rfl, rfl, rfl, fun hsame => ?_, by decide,
    by decide⟩
  have hroots : (s.assign ⟨1, 1⟩ x).2.scope.get ⟨0, 0⟩ = s.scope.get ⟨0, 0⟩ := by rw [hsame]
  obtain ⟨-, hbuffers⟩ := Value.mk.inj (Except.ok.inj hroots)
  exact absurd (Buffer.integers.inj (Payload.elements.inj hbuffers)) (by decide)

end Session

end ArrayMachine
