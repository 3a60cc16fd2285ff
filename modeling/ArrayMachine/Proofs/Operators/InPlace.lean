import ArrayMachine.Buffer.Arithmetic
import ArrayMachine.Proofs.Conversion.Elements

/-!
# Operators in place

A promoted or cast buffer, or one that an operator gives, can be made of zeros by writing over them
what each position is to hold, from the first position on (`Buffer.fillEach`). The elements before a
fault are written and lost, so that the fault of the first position that has one is the answer.
These loops come to what `Buffer.promote`, `Buffer.cast`, `Buffer.unary` and `Buffer.elementwise`
say in terms of all elements at once.

* `Buffer.fillEach_eq`: the loop, by what is written to each position.
* `Mode.convertBuffer_eq_mapInPlace`, `Buffer.unary_eq_mapInPlace`: the loops over one buffer.
* `Buffer.elementwise_eq_fillEach`: the loop over two.
-/

namespace ArrayMachine

/-- What an operator makes of elements is stored, and it is no character. -/
theorem BinaryOp.isBasic_of_resultKind? {op : BinaryOp} {kind result : Kind}
    (h : op.resultKind? kind = some result) : result.isBasic = true ∧ result ≠ .character := by
  cases kind <;> cases op <;> cases h <;> decide

/-- A traversal whose steps are wrapped gives the wrapped values of the traversal. -/
theorem Result.mapM_wrap {α β γ : Type} {f : α → Result β} (wrap : β → γ) (xs : List α) :
    xs.mapM (fun x => wrap <$> f x) = List.map wrap <$> xs.mapM f := by
  induction xs with
  | nil => rfl
  | cons x xs ih =>
    rw [List.mapM_cons, List.mapM_cons, ih]
    cases f x with
    | error fault => rfl
    | ok y => cases xs.mapM f <;> rfl

theorem Element.kind_of_unary {op : UnaryOp} {e r : Element} (h : unary op e = .ok r) :
    r.kind = e.kind := by
  cases op <;> cases e <;> cases h <;> rfl

variable {mode : Mode} {kind : Kind} {f : Nat → Result Element} {g : Element → Result Element}
  {e : Element} {es : List Element} {b out : Buffer} {pos n : Nat} {fault : Fault}

namespace Buffer

/-! ## Writing position by position -/

/-- Zeros, written over with what each position is to hold. -/
def fillEach (kind : Kind) (n : Nat) (f : Nat → Result Element) : Result Buffer := do
  (List.range n).foldlM (fun out pos => do out.set pos (← f pos)) (← zeros kind n)

/-- What cannot be promoted cannot be written. -/
theorem set_of_promote_error (hpos : pos < b.length) (h : e.promote b.kind = .error fault) :
    b.set pos e = .error fault := by
  unfold set
  rw [if_neg (Nat.not_le.mpr hpos)]
  cases b
  all_goals exact Result.map_eq_error_iff.mpr (Result.map_eq_error_iff.mp h)

/-- The loop from some position on: what was written before stays, and the rest is written over. -/
theorem fill_from (f : Nat → Result Element) {done rest : List Element}
    (hout : out.elements = done ++ rest) :
    (List.range' done.length rest.length).foldlM (fun out pos => do out.set pos (← f pos)) out =
      (List.range' done.length rest.length).mapM (fun pos => f pos >>= Element.promote out.kind)
        >>= fun es => ofElements out.kind (done ++ es) := by
  -- on what is still to be written, behind what was
  induction rest generalizing done out with
  | nil =>
    rw [← hout.trans (List.append_nil done)]
    exact (ofElements_elements out).symm.trans (by simp)
  | cons z rest ih =>
    have hpos : done.length < out.length := by
      rw [← length_elements, hout]
      simp
    rw [List.length_cons, List.range'_succ, List.foldlM_cons, List.mapM_cons]
    cases he : f done.length with
    | error fault => rfl
    | ok e =>
      show (out.set done.length e >>= _) = ((e.promote out.kind >>= _) >>= _)
      cases hr : e.promote out.kind with
      | error fault =>
        rw [set_of_promote_error hpos hr]
        rfl
      | ok r =>
        obtain ⟨c, hc, hkind, helements⟩ := exists_set hpos hr
        have hnext : c.elements = (done ++ [r]) ++ rest := by
          rw [helements, hout]
          simp
        have hloop := ih hnext
        rw [List.length_append, List.length_singleton, hkind] at hloop
        rw [hc]
        refine hloop.trans ?_
        show _ = ((List.mapM _ _ >>= fun es => Except.ok (r :: es)) >>= _)
        rw [bind_assoc]
        simp only [List.append_assoc, List.singleton_append]
        rfl

theorem exists_zeros_of_isBasic (hk : kind.isBasic = true) (n : Nat) :
    ∃ out, zeros kind n = .ok out ∧ out.kind = kind ∧ out.elements.length = n := by
  cases kind with
  | null | identity | mixed => cases hk
  | _ => exact ⟨_, rfl, rfl, by simp [elements]⟩

/-- **Written position by position**, a buffer holds what each position was to hold, promoted. -/
theorem fillEach_eq (hk : kind.isBasic = true) (n : Nat) (f : Nat → Result Element) :
    fillEach kind n f =
      (List.range n).mapM (fun pos => f pos >>= Element.promote kind) >>= ofElements kind := by
  obtain ⟨out, hout, rfl, rfl⟩ := exists_zeros_of_isBasic hk n
  have hloop := fill_from f (List.nil_append out.elements).symm
  rw [List.length_nil, ← List.range_eq_range'] at hloop
  unfold fillEach
  rw [hout]
  exact hloop

/-- Nothing is left to promote of elements that have the kind. -/
theorem fillEach_of_kind (hk : kind.isBasic = true)
    (hf : ∀ pos < n, ∀ e, f pos = .ok e → e.kind = kind) :
    fillEach kind n f = (List.range n).mapM f >>= ofElements kind := by
  have hpromoted : (List.range n).mapM (fun pos => f pos >>= Element.promote kind) =
      (List.range n).mapM f := by
    refine Result.mapM_congr fun pos hpos => ?_
    cases he : f pos with
    | error fault => rfl
    | ok e => exact Element.promote_of_kind (hf pos (List.mem_range.mp hpos) e he)
  rw [fillEach_eq hk, hpromoted]

/-! ## One buffer -/

/-- The elements of a buffer changed one after the other. -/
def mapInPlace (b : Buffer) (kind : Kind) (g : Element → Result Element) : Result Buffer :=
  fillEach kind b.length fun pos => do g (← b.get pos)

/-- **Changed one after the other**, the elements are changed each on its own. -/
theorem mapInPlace_eq (b : Buffer) (hk : kind.isBasic = true)
    (hg : ∀ e r, e ∈ b.elements → g e = .ok r → r.kind = kind) :
    b.mapInPlace kind g = b.elements.mapM g >>= ofElements kind := by
  have hread {pos : Nat} (hpos : pos < b.elements.length) :
      (do g (← b.get pos)) = g b.elements[pos] := by
    rw [get_of_lt hpos]
    rfl
  have hall : (List.range b.length).mapM (fun pos => do g (← b.get pos)) = b.elements.mapM g := by
    rw [← length_elements]
    exact Result.mapM_range fun pos hpos => hread hpos
  unfold mapInPlace
  rw [fillEach_of_kind hk, hall]
  intro pos hpos r hr
  rw [← length_elements] at hpos
  rw [hread hpos] at hr
  exact hg _ r (List.getElem_mem hpos) hr

/-- Reading values from elements fails as promoting the elements does. -/
theorem mapM_read_error_iff {α : Type} {read : Element → Result α} (wrap : α → Element)
    (hread : ∀ e, e.promote kind = wrap <$> read e) :
    es.mapM read = .error fault ↔ es.mapM (Element.promote kind) = .error fault := by
  rw [funext hread, Result.mapM_wrap, Result.map_eq_error_iff]

/-- Elements are promoted as they are stored. -/
theorem ofElements_eq_promote (hk : kind.isBasic = true) (es : List Element) :
    ofElements kind es = es.mapM (Element.promote kind) >>= ofElements kind := by
  cases hes : es.mapM (Element.promote kind) with
  | ok fs =>
    obtain ⟨b, hb, rfl⟩ := exists_ofElements hk hes
    rw [hb]
    obtain rfl := kind_of_ofElements hb
    exact (ofElements_elements b).symm
  | error fault =>
    cases kind with
    | boolean =>
      exact Result.map_eq_error_iff.mpr ((mapM_read_error_iff .boolean fun _ => rfl).mpr hes)
    | integer =>
      exact Result.map_eq_error_iff.mpr ((mapM_read_error_iff .integer fun _ => rfl).mpr hes)
    | real =>
      exact Result.map_eq_error_iff.mpr ((mapM_read_error_iff .real fun _ => rfl).mpr hes)
    | character =>
      exact Result.map_eq_error_iff.mpr ((mapM_read_error_iff .character fun _ => rfl).mpr hes)
    | null | identity | mixed => cases hk

theorem promote_eq_mapInPlace (b : Buffer) (hk : kind.isBasic = true) :
    b.promote kind =
      if kind = b.kind then .ok b else b.mapInPlace kind (Element.promote kind) := by
  rw [mapInPlace_eq b hk fun _ _ _ hr => Element.kind_of_promote hr, ← ofElements_eq_promote hk]
  rfl

theorem cast_eq_mapInPlace (b : Buffer) (hk : kind.isBasic = true) :
    b.cast kind = if kind = b.kind then .ok b else b.mapInPlace kind (Element.cast kind) := by
  rw [mapInPlace_eq b hk fun _ _ _ hr => Element.kind_of_cast hr]
  unfold cast
  by_cases hkind : kind = b.kind
  · rw [if_pos hkind, if_pos hkind]
  · rw [if_neg hkind, if_neg hkind, if_neg (by simp [hk])]

/-- **A unary operator** is applied to one element after the other. -/
theorem unary_eq_mapInPlace (op : UnaryOp) (b : Buffer) :
    b.unary op =
      if op.appliesTo b.kind then b.mapInPlace b.kind (Element.unary op)
      else .error (.invalidOperandKind
        s!"unary operator {op.name} is not defined for {b.kind} arrays") := by
  rw [mapInPlace_eq b b.isBasic_kind fun e r he hr =>
    (Element.kind_of_unary hr).trans (kind_of_mem_elements he)]
  rfl

/-! ## Two buffers -/

/-- Equally long buffers are read position by position. -/
theorem elementwise_eq_positions {op : BinaryOp} {a b : Buffer} (hlength : a.length = b.length)
    (hop : op.resultKind? a.kind = some kind) :
    elementwise op a b =
      (List.range a.length).mapM (fun pos => do Element.binary op (← a.get pos) (← b.get pos)) >>=
        ofElements kind := by
  have hzip : (a.elements.zip b.elements).length = a.length := by
    rw [List.length_zip, length_elements, length_elements, ← hlength, Nat.min_self]
  have hpairs : (List.range a.length).mapM
      (fun pos => do Element.binary op (← a.get pos) (← b.get pos)) =
        (a.elements.zip b.elements).mapM fun pair => Element.binary op pair.1 pair.2 := by
    rw [← hzip]
    refine Result.mapM_range fun pos hpos => ?_
    rw [List.length_zip, Nat.lt_min] at hpos
    rw [get_of_lt hpos.1, get_of_lt hpos.2, List.getElem_zip]
    rfl
  unfold elementwise
  rw [if_neg (Classical.not_not.mpr hlength), hop, hpairs]

/-- **A binary operator** is applied to one pair of elements after the other. -/
theorem elementwise_eq_fillEach (op : BinaryOp) (a b : Buffer) :
    elementwise op a b =
      if a.length ≠ b.length then .error (lengthMismatch op a b)
      else match op.resultKind? a.kind with
        | none => .error
            (.invalidOperandKind s!"operator {op.symbol} is not defined for {a.kind} arrays")
        | some kind =>
          fillEach kind a.length (fun pos => do Element.binary op (← a.get pos) (← b.get pos)) := by
  by_cases hlength : a.length = b.length
  · rw [if_neg (Classical.not_not.mpr hlength)]
    cases hop : op.resultKind? a.kind with
    | none =>
      unfold elementwise
      rw [if_neg (Classical.not_not.mpr hlength), hop]
    | some kind =>
      rw [elementwise_eq_positions hlength hop]
      refine (fillEach_of_kind (BinaryOp.isBasic_of_resultKind? hop).1 fun pos _ r hr => ?_).symm
      obtain ⟨x, hx, hr⟩ := Result.bind_eq_ok_iff.mp hr
      obtain ⟨y, -, hr⟩ := Result.bind_eq_ok_iff.mp hr
      have hkind := Element.kind_of_binary hr
      rw [kind_of_mem_elements (List.mem_of_getElem? (get_eq_ok_iff.mp hx)), hop] at hkind
      exact (Option.some.inj hkind).symm
  · unfold elementwise
    rw [if_pos hlength, if_pos hlength]

end Buffer

/-- **A conversion of elements** goes through them one after the other. -/
theorem Mode.convertBuffer_eq_mapInPlace (mode : Mode) (b : Buffer) (hk : kind.isBasic = true) :
    mode.convertBuffer b kind =
      if kind = b.kind then .ok b else b.mapInPlace kind (mode.convertElement kind) := by
  unfold convertBuffer convertElement
  split
  · exact Buffer.cast_eq_mapInPlace b hk
  · exact Buffer.promote_eq_mapInPlace b hk

end ArrayMachine
