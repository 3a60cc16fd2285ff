import ArrayMachine.Proofs.Operators.Rows

/-!
# Concatenation

A concatenation joins the arrays that its operands stand for. Null and identity arrays join like
what they are filled with, an operand beside the empty array joins alone, and two stored arrays are
promoted and appended. So both groupings of three operands join the same three arrays.

* `Joins.unfill`: null and identity arrays.
* `joins_sole`, `joins_operands`: beside the empty array, and two stored arrays.
* `joins_arrays`, `joins_of_binary`: what a concatenation joins.
* `concat_laws`: the elements of a concatenation, and its two groupings.
-/

namespace ArrayMachine

namespace Value

variable {a b c u v w w' x y z : Value} {vs pre us post : List Value} {s t : Shape} {p q : Buffer}
  {k : Kind}

/-! ## What a concatenation joins -/

/-- An array that is filled had nothing to lend. It keeps its dimensions, and is a text if it is
filled with characters. -/
theorem fillSentinel_facts {j : Kind} (h : x.fillSentinel j = .ok u) :
    u.isEmptyArray = x.isEmptyArray ∧ u.rank? = x.rank? ∧ u.isText = (x.isText && j = .character) ∧
      (∀ i, x.basicKind ≠ .ok i) ∧ ∀ i, u.basicKind = .ok i → i = j := by
  obtain ⟨shape, e, b, rfl, he, hb, rfl⟩ := fillSentinel_eq_ok h
  have hsentinel : (sentinel shape).isSentinel = true :=
    Kind.isSentinel_iff.mpr (he.imp And.left And.left)
  exact ⟨rfl, rfl, (Bool.and_assoc _ _ _).symm, fun i => basicKind_of_isSentinel hsentinel,
    fun i hi => (Option.some.inj (kind?_of_basicKind hi)).symm⟩

theorem IsArray.of_beside (hx : x.IsArray) (h : Beside x y u) :
    u.IsArray ∧ u.isSentinel = false := by
  obtain ⟨s, hs⟩ := hx.shape
  obtain ⟨hwell, hmixed, hsentinel, t, ht, -⟩ := h.ready hx.wellFormed hx.isMixed hs
  exact ⟨⟨hwell, hmixed, t, ht⟩, hsentinel⟩

theorem IsArray.promoteLike_fillSentinel {j : Kind} (hx : x.IsArray)
    (h : x.fillSentinel j = .ok u) : Element.PromoteLike x.listed u.listed := by
  have hu : u.IsArray := by
    have hwell := hx.wellFormed.fillSentinel h
    obtain ⟨shape, e, b, -, -, -, rfl⟩ := fillSentinel_eq_ok h
    exact ⟨hwell, rfl, _, rfl⟩
  obtain ⟨es, hes, hlike⟩ := (promotesTo_fillSentinel h).exists_elements hu.elements_eq
  rwa [listed_of_elements hes]

theorem forall_mem_replace {P : Value → Prop} (h : ∀ v ∈ pre ++ u :: post, P v)
    (hself : P u → P x) : ∀ v ∈ pre ++ x :: post, P v := by
  simp only [List.forall_mem_append, List.forall_mem_cons] at h ⊢
  exact ⟨h.1, hself h.2.1, h.2.2⟩

theorem textOf_replace (hempty : u.isEmptyArray = x.isEmptyArray)
    (h : u.isText = x.isText ∨
      k ≠ .character ∧ (pre ++ x :: post).countP (!·.isEmptyArray) ≠ 1) :
    textOf (pre ++ u :: post) k = textOf (pre ++ x :: post) k := by
  have hcount : (pre ++ u :: post).countP (!·.isEmptyArray) =
      (pre ++ x :: post).countP (!·.isEmptyArray) := by
    simp only [List.countP_append, List.countP_cons, hempty]
  unfold textOf
  rw [hcount]
  rcases h with h | ⟨hk, hmany⟩
  · rw [List.any_append, List.any_append, List.any_cons, List.any_cons, h]
  · rw [decide_eq_false hk, decide_eq_false hmany, Bool.or_false, Bool.and_false, Bool.and_false]

/-- **An array that is filled** joins like what it is filled with, if another operand lends the
kind. -/
theorem Joins.unfill (pre post : List Value) {j : Kind} (hx : x.IsArray) (hy : y ∈ pre ++ post)
    (hkind : y.basicKind = .ok j) (hfill : x.fillSentinel j = .ok u)
    (h : Joins (pre ++ u :: post) w) : Joins (pre ++ x :: post) w := by
  obtain ⟨hempty, hrank, htext, hlent, hlent'⟩ := fillSentinel_facts hfill
  have hother (v : Value) : y ∈ pre ++ v :: post := by
    rcases List.mem_append.mp hy with hy | hy <;> simp [hy]
  cases h with
  | empty hall => exact .empty (forall_mem_replace hall fun hu => hempty ▸ hu)
  | @row flag c hmeet hc hflag =>
    have hcharacter (hk : c.kind = .character) : j = .character :=
      Kind.eq_character_of_promotesTo (basicKind_eq_ok hkind).2
        (hk ▸ hmeet.promotes y (hother u) j hkind)
    refine .row ⟨?_, ?_⟩ ?_ fun hplain => ?_
    · obtain ⟨v, hv, hk⟩ := hmeet.lent
      by_cases hu : v = u
      · subst hu
        exact ⟨y, hother x, hlent' _ hk ▸ hkind⟩
      · have hv : v ∈ pre ∨ v ∈ post := by simpa [hu] using hv
        exact ⟨v, by rcases hv with hv | hv <;> simp [hv], hk⟩
    · exact forall_mem_replace hmeet.promotes fun _ i hi => absurd hi (hlent i)
    · have hlike : Element.PromoteLike ((pre ++ x :: post).flatMap listed)
          ((pre ++ u :: post).flatMap listed) := by
        rw [List.flatMap_append, List.flatMap_append, List.flatMap_cons, List.flatMap_cons]
        exact (Element.PromoteLike.refl _).append
          ((hx.promoteLike_fillSentinel hfill).append (.refl _))
      exact hlike _ _ hc
    · have hplain' : Plain (pre ++ u :: post) := by
        refine hplain.imp (forall_mem_replace · fun hx => hempty ▸ hx)
          (forall_mem_replace · fun hx hscalar => ?_)
        rw [htext, hx (hrank ▸ hscalar), Bool.false_and]
      rw [hflag hplain']
      refine textOf_replace hempty ?_
      cases hself : x.isEmptyArray with
      | true => exact .inl (by simp [isText, hempty, hself])
      | false =>
        by_cases hk : c.kind = .character
        · exact .inl (by rw [htext, decide_eq_true (hcharacter hk), Bool.and_true])
        · have hmany : 1 < (pre ++ x :: post).countP (!·.isEmptyArray) := by
            have hpartner : 0 < (pre ++ post).countP (!·.isEmptyArray) :=
              List.countP_pos_iff.mpr ⟨y, hy, by simp [(basicKind_eq_ok hkind).1]⟩
            simp only [List.countP_append, List.countP_cons, hself] at hpartner ⊢
            simp
            omega
          exact .inr ⟨hk, by omega⟩

/-- Beside the empty array, a vector stays what it is, and a scalar becomes a vector that is no
text. -/
theorem concatEmpty_eq_ok (hq : t.IsOperand q) (h : (stored t q).concatEmpty = .ok w) :
    ∃ flag, w = stored (Shape.ofExtents q.kind [some q.length] flag) q ∧
      (flag = t.isString ∨ t.rank = .scalar ∧ flag = false) := by
  unfold concatEmpty at h
  obtain ⟨shape, hshape, h⟩ := Result.bind_eq_ok_iff.mp h
  obtain rfl : t = shape := Except.ok.inj hshape
  split at h
  · rename_i hnone
    exact absurd hnone (of_decide_eq_false hq.nonempty)
  · rename_i hscalar
    obtain ⟨buffer, hbuffer, h⟩ := Result.bind_eq_ok_iff.mp h
    obtain rfl : q = buffer := Except.ok.inj hbuffer
    obtain ⟨-, -, rfl⟩ := ofBuffer_eq_ok_iff.mp h
    refine ⟨false, ?_, .inr ⟨hscalar, rfl⟩⟩
    rw [hq.fits.kind, hq.fits.size, Shape.size_of_scalar hscalar]
    rfl
  · rename_i hvector
    obtain rfl := Except.ok.inj h
    refine ⟨t.isString, ?_, .inl rfl⟩
    rw [hq.fits.kind, hq.fits.size, ← Shape.eq_vector hvector hq.known]
  · cases h

theorem isText_stored (hq : t.IsOperand q) : (stored t q).isText = t.isString := by
  show (!t.isEmptyArray && t.isString) = t.isString
  rw [hq.nonempty]
  rfl

/-- An operand beside empty arrays only. -/
theorem joins_sole (pre post : List Value) (hq : t.IsOperand q) (hbeside : pre ++ post ≠ [])
    (hempty : ∀ v ∈ pre ++ post, v.IsArray ∧ v.isEmptyArray = true)
    (h : (stored t q).concatEmpty = .ok w) : Joins (pre ++ stored t q :: post) w := by
  obtain ⟨flag, rfl, hflag⟩ := concatEmpty_eq_ok hq h
  have hkind : (stored t q).basicKind = .ok q.kind := hq.fits.kind ▸ basicKind_stored hq
  have hpre : ∀ v ∈ pre, v.isEmptyArray = true := fun v hv => (hempty v (by simp [hv])).2
  have hpost : ∀ v ∈ post, v.isEmptyArray = true := fun v hv => (hempty v (by simp [hv])).2
  refine .row ⟨⟨stored t q, by simp, hkind⟩, ?_⟩ ?_ fun hplain => ?_
  · refine forall_mem_replace (u := emptyArray) (fun v hv j hj => ?_) fun _ j hj => ?_
    · have hnone : v.isEmptyArray = true := by
        simp only [List.mem_append, List.mem_cons] at hv
        rcases hv with hv | rfl | hv
        · exact hpre v hv
        · rfl
        · exact hpost v hv
      cases hnone.symm.trans (basicKind_eq_ok hj).1
    · obtain rfl := Except.ok.inj (hkind.symm.trans hj)
      exact Kind.promotesTo_self (by cases q <;> nofun)
  · rw [List.flatMap_append, List.flatMap_cons, listed_stored hq.fits,
      listed_of_empty (fun v hv => (hempty v (by simp [hv])).1) hpre,
      listed_of_empty (fun v hv => (hempty v (by simp [hv])).1) hpost, List.nil_append,
      List.append_nil]
    exact (Buffer.ofElements_eq_ok_iff.mp q.ofElements_elements).2
  · obtain ⟨hpretext, hprecount⟩ := isText_of_empty hpre
    obtain ⟨hposttext, hpostcount⟩ := isText_of_empty hpost
    have hself : (stored t q).isEmptyArray = false := hq.nonempty
    have htext : textOf (pre ++ stored t q :: post) q.kind = t.isString := by
      simp [textOf, hpretext, hposttext, hprecount, hpostcount, hself, isText_stored hq]
    rw [htext]
    rcases hflag with hflag | ⟨hscalar, hflag⟩
    · exact hflag
    · rcases hplain with hplain | hplain
      · obtain ⟨v, hv⟩ := List.exists_mem_of_ne_nil _ hbeside
        have hnonempty := hplain v (by rcases List.mem_append.mp hv with hv | hv <;> simp [hv])
        cases (hempty v hv).2.symm.trans hnonempty
      · rw [hflag, ← isText_stored hq, hplain (stored t q) (by simp) (congrArg some hscalar)]

/-- Appended buffers, under one extent. -/
theorem concat_eq_ok {c d : Buffer} (h : concat (stored s c) (stored t d) = .ok w) :
    ∃ joined, c.kind = joined.kind ∧ joined.elements = c.elements ++ d.elements ∧
      w = stored (Shape.ofExtents joined.kind [some joined.length]
        ((s.isString || t.isString) && joined.kind = .character)) joined := by
  unfold concat at h
  obtain ⟨s', hs, h⟩ := Result.bind_eq_ok_iff.mp h
  obtain rfl : s = s' := Except.ok.inj hs
  obtain ⟨t', ht, h⟩ := Result.bind_eq_ok_iff.mp h
  obtain rfl : t = t' := Except.ok.inj ht
  split at h
  · cases h
  · split at h
    · cases h
    · obtain ⟨c', hc, h⟩ := Result.bind_eq_ok_iff.mp h
      obtain rfl : c = c' := Except.ok.inj hc
      obtain ⟨d', hd, h⟩ := Result.bind_eq_ok_iff.mp h
      obtain rfl : d = d' := Except.ok.inj hd
      obtain ⟨joined, hjoined, h⟩ := Result.bind_eq_ok_iff.mp h
      obtain ⟨-, -, rfl⟩ := ofBuffer_eq_ok_iff.mp h
      exact ⟨joined, (Buffer.kind_of_concat hjoined).1.symm, Buffer.elements_of_concat hjoined, rfl⟩

/-- An array that is promoted keeps its elements, and its text flag if it is promoted to
characters. -/
theorem promoteArray_eq_ok (hp : s.IsOperand p) (h : (stored s p).promoteArray k = .ok w) :
    ∃ u c, w = stored u c ∧ c.kind = k ∧ p.elements.mapM (Element.promote k) = .ok c.elements ∧
      (u.isString && k = .character) = (s.isString && k = .character) := by
  unfold promoteArray at h
  obtain ⟨s', hs, h⟩ := Result.bind_eq_ok_iff.mp h
  obtain rfl : s = s' := Except.ok.inj hs
  split at h
  · rename_i hkind
    obtain rfl := Except.ok.inj h
    have hself := (Buffer.ofElements_eq_ok_iff.mp p.ofElements_elements).2
    rw [hp.fits.kind, hkind] at hself
    exact ⟨s, p, rfl, hp.fits.kind.trans hkind, hself, rfl⟩
  · obtain ⟨p', hp', h⟩ := Result.bind_eq_ok_iff.mp h
    obtain rfl : p = p' := Except.ok.inj hp'
    obtain ⟨c, hc, h⟩ := Result.bind_eq_ok_iff.mp h
    obtain ⟨-, -, rfl⟩ := ofBuffer_eq_ok_iff.mp h
    obtain ⟨hkind, helements⟩ := Buffer.elements_promote hc
    refine ⟨s.withElement k, c, rfl, hkind, helements, ?_⟩
    show ((s.isString && decide (k = .character)) && decide (k = .character)) = _
    rw [Bool.and_assoc, Bool.and_self]

/-- **Stored arrays** are promoted to where their kinds meet, and then appended. -/
theorem joins_operands (hp : s.IsOperand p) (hq : t.IsOperand q)
    (h : arraysOfKinds .concat (stored s p) (stored t q) = .ok w) :
    Joins [stored s p, stored t q] w := by
  cases hmeet : s.element.common? t.element with
  | none =>
    obtain ⟨text, hfault⟩ := arraysOfKinds_of_common?_eq_none hp hq hmeet .concat
    cases h.symm.trans hfault
  | some k =>
    obtain ⟨hk, hsk, htk⟩ := Kind.promotesTo_common? hp.isBasic hq.isBasic hmeet
    obtain ⟨s', t', c, d, -, -, hc, hd, happly⟩ := arraysOfKinds_promoted hp hq hmeet
    obtain ⟨_, _, hpromoted, hckind, hcall, hctext⟩ := promoteArray_eq_ok hp hc
    cases hpromoted
    obtain ⟨_, _, hpromoted, hdkind, hdall, hdtext⟩ := promoteArray_eq_ok hq hd
    cases hpromoted
    have hconcat : concat (stored s' c) (stored t' d) = .ok w := by
      rw [← h, happly]
      cases k <;> first | rfl | cases hk
    obtain ⟨joined, hkind, helements, rfl⟩ := concat_eq_ok hconcat
    obtain rfl : k = joined.kind := hckind.symm.trans hkind
    refine .row ⟨?_, ?_⟩ ?_ fun _ => ?_
    · rcases Kind.common?_eq_some hmeet with hlent | hlent
      · exact ⟨stored s p, by simp, hlent ▸ basicKind_stored hp⟩
      · exact ⟨stored t q, by simp, hlent ▸ basicKind_stored hq⟩
    · intro v hv j hj
      rcases List.mem_cons.mp hv with rfl | hv
      · exact Except.ok.inj ((basicKind_stored hp).symm.trans hj) ▸ hsk
      · obtain rfl := List.mem_singleton.mp hv
        exact Except.ok.inj ((basicKind_stored hq).symm.trans hj) ▸ htk
    · rw [List.flatMap_cons, List.flatMap_singleton, listed_stored hp.fits, listed_stored hq.fits,
        helements]
      exact Element.mapM_append_eq_ok_iff.mpr ⟨_, _, hcall, hdall, rfl⟩
    · have hself : (stored s p).isEmptyArray = false := hp.nonempty
      have hself' : (stored t q).isEmptyArray = false := hq.nonempty
      rw [Bool.and_or_distrib_right, hctext, hdtext, ← Bool.and_or_distrib_right]
      simp [textOf, isText_stored hp, isText_stored hq, hself, hself']

/-- Arrays without null and identity ones. -/
theorem joins_ready (hx : x.IsArray) (hy : y.IsArray) (hxready : x.isSentinel = false)
    (hyready : y.isSentinel = false)
    (h : (if x.isEmptyArray || y.isEmptyArray then concatEmpty (if x.isEmptyArray then y else x)
      else arraysOfKinds .concat x y) = .ok w) : Joins [x, y] w := by
  obtain ⟨s, hs⟩ := hx.shape
  obtain ⟨t, ht⟩ := hy.shape
  cases hxempty : x.isEmptyArray with
  | true =>
    rw [hxempty] at h
    have h : y.concatEmpty = .ok w := h
    cases hyempty : y.isEmptyArray with
    | true =>
      have hrank : t.rank = .unspecified :=
        of_decide_eq_true ((isEmptyArray_eq ht).symm.trans hyempty)
      unfold concatEmpty arrayShape at h
      rw [ht] at h
      dsimp only [bind, Except.bind] at h
      rw [hrank] at h
      obtain rfl := Except.ok.inj h
      exact .empty (by simp [hxempty, hyempty])
    | false =>
      obtain ⟨q, hq, rfl⟩ := hy.wellFormed.isOperand ht hyempty hyready hy.isMixed
      exact joins_sole [x] [] hq (by simp) (by simp [hx, hxempty]) h
  | false =>
    rw [hxempty] at h
    obtain ⟨p, hp, rfl⟩ := hx.wellFormed.isOperand hs hxempty hxready hx.isMixed
    cases hyempty : y.isEmptyArray with
    | true =>
      rw [hyempty] at h
      exact joins_sole [] [y] hp (by simp) (by simp [hy, hyempty]) h
    | false =>
      rw [hyempty] at h
      obtain ⟨q, hq, rfl⟩ := hy.wellFormed.isOperand ht hyempty hyready hy.isMixed
      exact joins_operands hp hq h

/-- **What a concatenation of arrays joins.** -/
theorem joins_arrays (hx : x.IsArray) (hy : y.IsArray) (h : arrays .concat x y = .ok w) :
    Joins [x, y] w := by
  obtain ⟨s, hs⟩ := hx.shape
  obtain ⟨t, ht⟩ := hy.shape
  rw [arrays_eq hs ht] at h
  obtain ⟨⟨u, v⟩, hready, h⟩ := Result.bind_eq_ok_iff.mp h
  obtain ⟨hu, hv⟩ := withoutSentinels_eq_ok hready
  obtain ⟨huarray, huready⟩ := hx.of_beside hu
  obtain ⟨hvarray, hvready⟩ := hy.of_beside hv
  have hjoins : Joins [u, v] w := joins_ready huarray hvarray huready hvready h
  cases hu with
  | same _ =>
    cases hv with
    | same _ => exact hjoins
    | filled _ hkind hfill =>
      exact Joins.unfill [x] [] hy (by simp) hkind hfill hjoins
  | filled hsentinel hkind hfill =>
    cases hv with
    | same _ => exact Joins.unfill [] [y] hx (by simp) hkind hfill hjoins
    | filled hsentinel' _ _ => exact absurd hkind (basicKind_of_isSentinel hsentinel')

/-- An operand and the array it stands for are empty together, and scalars together. -/
theorem WellFormed.plain_row (hv : v.WellFormed) (h : v.row = .ok x) :
    x.isEmptyArray = v.isEmptyArray ∧
      (x.rank? = some .scalar → v.rank? = some .scalar ∧ (v.isText = false → x.isText = false)) := by
  obtain ⟨y, hy, rfl⟩ := Result.map_eq_ok_iff.mp h
  rcases promoteMixed_eq_ok hy with
    ⟨-, rfl⟩ | ⟨shape, elements, kind, rfl, -, ⟨-, rfl⟩ | ⟨b, -, rfl⟩⟩
  · cases hv with
    | interval kind i => exact ⟨rfl, nofun⟩
    | _ => exact ⟨rfl, fun hscalar => ⟨hscalar, id⟩⟩
  all_goals
    refine ⟨rfl, fun hscalar => ⟨hscalar, fun htext => ?_⟩⟩
    have htext : (!shape.isEmptyArray && shape.isString) = false := htext
    show (!shape.isEmptyArray && (shape.isString && decide (kind = .character))) = false
    rw [← Bool.and_assoc, htext, Bool.false_and]

/-- Whatever has been joined is an array already. -/
theorem Joins.row_eq (h : Joins vs w) : w.row = .ok w := by
  cases h <;> rfl

theorem binaryPlain_concat (ha : a.WellFormed) (hb : b.WellFormed) :
    binaryPlain .concat a b = arrays .concat a.widened b.widened := by
  show (if a.interval?.isSome || b.interval?.isSome then withInterval .concat a b
    else arrays .concat a b) = _
  split
  · obtain ⟨i?, hi⟩ := ha.exists_asInterval
    obtain ⟨j?, hj⟩ := hb.exists_asInterval
    rw [withInterval_eq hi hj]
    cases i? <;> cases j? <;> rfl
  · rename_i hnone
    obtain ⟨hi, hj⟩ := Bool.or_eq_false_iff.mp (Bool.eq_false_iff.mpr hnone)
    rw [widened_of_isSome_interval? hi, widened_of_isSome_interval? hj]

/-- **What a concatenation joins**: the arrays that its operands stand for. -/
theorem joins_of_binary (ha : a.WellFormed) (hb : b.WellFormed)
    (h : binary .concat a b = .ok w) :
    ∃ x y, a.row = .ok x ∧ b.row = .ok y ∧ x.IsArray ∧ y.IsArray ∧ Joins [x, y] w := by
  have hready : ¬(a.Refused ∨ b.Refused) := by
    intro hrefused
    obtain ⟨text, hfault⟩ := binary_of_refused ha hb hrefused .concat
    cases h.symm.trans hfault
  obtain ⟨x, hx, hxrole⟩ := ha.operand_cases.resolve_right fun hrefused => hready (.inl hrefused)
  obtain ⟨y, hy, hyrole⟩ := hb.operand_cases.resolve_right fun hrefused => hready (.inr hrefused)
  have hfields : a.fields? = none ∨ b.fields? = none := by
    cases ha with
    | tuple _ _ =>
      cases hb with
      | tuple _ _ =>
        unfold binary at h
        cases h
      | _ => exact .inr rfl
    | _ => exact .inl rfl
  rw [binary_of_operands hxrole hyrole hfields] at h
  split at h
  · cases h
  · rename_i htuple
    obtain ⟨hxtuple, hytuple⟩ := Bool.or_eq_false_iff.mp (Bool.eq_false_iff.mpr htuple)
    have hwidened {v z : Value} (hv : v.WellFormed) (hz : v.promoteMixed = .ok z)
        (hrole : v.operand "" = .ok z) (htuple : z.type.isTuple = false) : z.widened.IsArray :=
      ⟨invariant_wellFormed.widened (hv.promoteMixed hz),
        isMixed_widened (isMixed_of_promoteMixed hz),
        (hv.shape?_of_operand hrole).resolve_left (Bool.eq_false_iff.mp htuple)⟩
    have hxarray := hwidened ha hx (hxrole "") hxtuple
    have hyarray := hwidened hb hy (hyrole "") hytuple
    rw [binaryPlain_concat (ha.promoteMixed hx) (hb.promoteMixed hy)] at h
    exact ⟨x.widened, y.widened, Result.map_eq_ok_iff.mpr ⟨x, hx, rfl⟩,
      Result.map_eq_ok_iff.mpr ⟨y, hy, rfl⟩, hxarray, hyarray, joins_arrays hxarray hyarray h⟩

/-- A row has elements of its own kind. -/
theorem Joins.exists_kind (h : Joins vs w) :
    ∃ k, w.kind? = some k ∧ w.elements = .ok w.listed ∧
      w.listed.mapM (Element.promote k) = .ok w.listed := by
  cases h with
  | empty _ => exact ⟨.mixed, rfl, rfl, rfl⟩
  | @row flag c _ _ _ =>
    refine ⟨c.kind, rfl, ?_, ?_⟩
    · rw [listed_stored ⟨rfl, rfl⟩, elements_stored ⟨rfl, rfl⟩]
    · rw [listed_stored ⟨rfl, rfl⟩]
      exact (Buffer.ofElements_eq_ok_iff.mp c.ofElements_elements).2

/-- **The elements of a concatenation** are those of its operands, promoted. -/
theorem elements_of_concat (ha : a.WellFormed) (hb : b.WellFormed)
    (h : binary .concat a b = .ok w) :
    ∃ k xs ys zs, a.elements = .ok xs ∧ b.elements = .ok ys ∧ w.elements = .ok zs ∧
      w.kind? = some k ∧ (xs ++ ys).mapM (Element.promote k) = .ok zs := by
  obtain ⟨x, y, hx, hy, hxarray, hyarray, hjoins⟩ := joins_of_binary ha hb h
  obtain ⟨xs, hxs, hxlike⟩ := (ha.promotesTo_row hx).exists_elements hxarray.elements_eq
  obtain ⟨ys, hys, hylike⟩ := (hb.promotesTo_row hy).exists_elements hyarray.elements_eq
  obtain ⟨k, hkind, hzs, hself⟩ := hjoins.exists_kind
  have hrow : Element.PromoteLike ([x, y].flatMap listed) w.listed :=
    hjoins.promoteLike (by simp [hxarray, hyarray])
  rw [List.flatMap_cons, List.flatMap_singleton] at hrow
  exact ⟨k, xs, ys, w.listed, hxs, hys, hzs, hkind, (hxlike.append hylike).trans hrow k _ hself⟩

/-- **Two groupings** join the same operands. -/
theorem joins_groupings (ha : a.WellFormed) (hb : b.WellFormed) (hc : c.WellFormed)
    (hu : binary .concat a b = .ok u) (hw : binary .concat u c = .ok w)
    (hv : binary .concat b c = .ok v) (hw' : binary .concat a v = .ok w') :
    ∃ x y z, a.row = .ok x ∧ b.row = .ok y ∧ c.row = .ok z ∧ Joins [x, y, z] w ∧
      Joins [x, y, z] w' := by
  obtain ⟨x, y, hx, hy, hxarray, hyarray, hjoinsu⟩ := joins_of_binary ha hb hu
  obtain ⟨y', z, hy', hz, -, hzarray, hjoinsv⟩ := joins_of_binary hb hc hv
  obtain rfl := Except.ok.inj (hy.symm.trans hy')
  obtain ⟨u', z', hu', hz', -, -, hjoinsw⟩ := joins_of_binary (invariant_wellFormed.binary ha hb hu)
    hc hw
  obtain rfl := Except.ok.inj (hz.symm.trans hz')
  obtain rfl := Except.ok.inj (hjoinsu.row_eq.symm.trans hu')
  obtain ⟨x', v', hx', hv', -, -, hjoinsw'⟩ := joins_of_binary ha
    (invariant_wellFormed.binary hb hc hv) hw'
  obtain rfl := Except.ok.inj (hx.symm.trans hx')
  obtain rfl := Except.ok.inj (hjoinsv.row_eq.symm.trans hv')
  exact ⟨x, y, z, hx, hy, hz,
    Joins.flatten [] [z] (by simp) (by simp [hxarray, hyarray]) hjoinsu hjoinsw,
    Joins.flatten [x] [] (by simp) (by simp [hyarray, hzarray]) hjoinsv hjoinsw'⟩

/-- **Concatenation.** A concatenation has as many elements as its two operands have together: those
of the one and then of the other, promoted to its kind. Both groupings of three operands have the
same kind, extents and elements. They are the same value, text flag included, unless there is a
scalar among them that is a text, and the empty array. -/
theorem concat_laws (ha : a.WellFormed) (hb : b.WellFormed) (hc : c.WellFormed) :
    (∀ w, binary .concat a b = .ok w →
      ∃ k xs ys zs, a.elements = .ok xs ∧ b.elements = .ok ys ∧ w.elements = .ok zs ∧
        a.length = .ok xs.length ∧ b.length = .ok ys.length ∧
        w.length = .ok (xs.length + ys.length) ∧
        w.kind? = some k ∧ (xs ++ ys).mapM (Element.promote k) = .ok zs) ∧
    ∀ u w v w', binary .concat a b = .ok u → binary .concat u c = .ok w →
      binary .concat b c = .ok v → binary .concat a v = .ok w' →
      (w = w' ∨ ∃ flag flag' d, w = stored (Shape.ofExtents d.kind [some d.length] flag) d ∧
        w' = stored (Shape.ofExtents d.kind [some d.length] flag') d) ∧
      (Plain [a, b, c] → w = w') := by
  refine ⟨fun w hw => ?_, fun u w v w' hu hw hv hw' => ?_⟩
  · obtain ⟨k, xs, ys, zs, hxs, hys, hzs, hkind, hall⟩ := elements_of_concat ha hb hw
    refine ⟨k, xs, ys, zs, hxs, hys, hzs, (elements_eq_ok_iff.mp hxs).1,
      (elements_eq_ok_iff.mp hys).1, ?_, hkind, hall⟩
    rw [(elements_eq_ok_iff.mp hzs).1, Result.length_of_mapM hall, List.length_append]
  · obtain ⟨x, y, z, hx, hy, hz, hjoins, hjoins'⟩ := joins_groupings ha hb hc hu hw hv hw'
    obtain ⟨hsame, hplain⟩ := hjoins.unique hjoins'
    obtain ⟨hxempty, hxscalar⟩ := ha.plain_row hx
    obtain ⟨hyempty, hyscalar⟩ := hb.plain_row hy
    obtain ⟨hzempty, hzscalar⟩ := hc.plain_row hz
    refine ⟨hsame, fun h => hplain ?_⟩
    rcases h with h | h
    · exact .inl (by simpa [hxempty, hyempty, hzempty] using h)
    · simp only [List.forall_mem_cons] at h
      refine .inr ?_
      simp only [List.forall_mem_cons]
      exact ⟨fun hrank => (hxscalar hrank).2 (h.1 (hxscalar hrank).1),
        fun hrank => (hyscalar hrank).2 (h.2.1 (hyscalar hrank).1),
        fun hrank => (hzscalar hrank).2 (h.2.2.1 (hzscalar hrank).1), nofun⟩

/-- A null becomes an integer and then a real, or a real at once. -/
theorem concat_laws_null :
    let digit := vector (.integers #[7])
    let one := real Single.one
    null.WellFormed ∧ digit.WellFormed ∧ one.WellFormed ∧
      ∃ u w v w', binary .concat null digit = .ok u ∧ binary .concat u one = .ok w ∧
        binary .concat digit one = .ok v ∧ binary .concat null v = .ok w' ∧
        u.kind? = some .integer ∧ v.kind? = some .real ∧ w = w' ∧ w.length = .ok 3 := by
  intro digit one
  have hnull : null.WellFormed := .sentinel rfl rfl
  have hdigit : digit.WellFormed := .stored ⟨rfl, rfl⟩ rfl
  have hone : one.WellFormed := .stored ⟨rfl, rfl⟩ rfl
  have hu : binary .concat null digit = .ok (vector (.integers #[0, 7])) := by
    unfold binary
    rfl
  have hw : binary .concat (vector (.integers #[0, 7])) one =
      .ok (vector (.reals #[Single.ofInt 0, Single.ofInt 7, Single.one])) := by
    unfold binary
    rfl
  have hv : binary .concat digit one = .ok (vector (.reals #[Single.ofInt 7, Single.one])) := by
    unfold binary
    rfl
  have hw' : binary .concat null (vector (.reals #[Single.ofInt 7, Single.one])) =
      .ok (vector (.reals #[Single.zero false, Single.ofInt 7, Single.one])) := by
    unfold binary
    rfl
  have hplain : Plain [null, digit, one] := by
    refine .inl ?_
    simp only [List.forall_mem_cons]
    exact ⟨rfl, rfl, rfl, List.forall_mem_nil _⟩
  exact ⟨hnull, hdigit, hone, _, _, _, _, hu, hw, hv, hw', rfl, rfl,
    ((concat_laws hnull hdigit hone).2 _ _ _ _ hu hw hv hw').2 hplain, rfl⟩

/-- A scalar that is a text is none any more beside the empty array, but makes a text of what it is
joined with before. -/
theorem concat_scalar_text :
    let letter := stored ⟨.character, .fixed [], true⟩ (.characters #[97])
    let word := vector (.characters #[98])
    emptyArray.WellFormed ∧ letter.WellFormed ∧ word.WellFormed ∧
      ∃ u w v w', binary .concat emptyArray letter = .ok u ∧ binary .concat u word = .ok w ∧
        binary .concat letter word = .ok v ∧ binary .concat emptyArray v = .ok w' ∧ w ≠ w' := by
  intro letter word
  have hempty : emptyArray.WellFormed := .empty rfl
  have hletter : letter.WellFormed := .stored ⟨rfl, rfl⟩ rfl
  have hword : word.WellFormed := .stored ⟨rfl, rfl⟩ rfl
  refine ⟨hempty, hletter, hword, vector (.characters #[97]), vector (.characters #[97, 98]),
    string [97, 98], string [97, 98], ?_, ?_, ?_, ?_, fun h => ?_⟩
  · unfold binary
    rfl
  · unfold binary
    rfl
  · unfold binary
    rfl
  · unfold binary
    rfl
  · cases congrArg isText h

end Value

end ArrayMachine
