import ArrayMachine.Proofs.Reader.Printed
import ArrayMachine.Proofs.Value.Promotion

/-!
# Rendering loses nothing

Integers and booleans print as words without blanks and brackets. Words between brackets, one blank
apart, can be told from each other whatever stands behind them, since a word ends where a blank or a
bracket follows. The rows of a matrix are told apart by the same argument, since a row ends with its
own bracket: `Printed.bracketed_inj` is used at both levels.

So the text of an array gives all of it back. The rank is the number of brackets in front, the
extents are how many rows and words there are, and each word is the text of one element only.

* `Element.text_inj`: the word of an element.
* `Printed.bracketed_inj`: words in brackets, and brackets in brackets.
* `Printed.mapM_rowOf`, `Printed.le_length_of_mapM_rowOf`: the rows are all there if, and only if, a
  word counts the elements.
* `Value.prints_renderElements`: what an array prints as, by its extents.
* `Value.render_eq_iff`: arrays that print alike are the same.
-/

namespace ArrayMachine

/-! ## Words -/

/-- A text without blanks and brackets. -/
structure Printed.Word (text : List UInt8) : Prop where
  ne_nil : text ≠ []
  inside : ∀ b ∈ text, b ≠ Ascii.space ∧ b ≠ Ascii.openBracket ∧ b ≠ Ascii.closeBracket

namespace Element

variable {e f : Element}

/-- An integer or a boolean. -/
def IsPlain (e : Element) : Prop := e.kind = .integer ∨ e.kind = .boolean

theorem IsPlain.exists_scalar (h : e.IsPlain) : ∃ s : Scalar, s.element = e := by
  cases e with
  | boolean x => exact ⟨.boolean x, rfl⟩
  | integer n => exact ⟨.integer n, rfl⟩
  | _ => obtain h | h := h <;> cases h

theorem IsPlain.word_text (h : e.IsPlain) : Printed.Word e.text := by
  obtain ⟨s, rfl⟩ := h.exists_scalar
  refine ⟨s.text_ne_nil, fun b hb => ?_⟩
  obtain hdigit | rfl | rfl | rfl := Scalar.byte_of_mem_text hb
  · refine ⟨?_, ?_, ?_⟩ <;> (rintro rfl; cases hdigit)
  all_goals decide

/-- **The word of an element** gives the element. -/
theorem text_inj (he : e.IsPlain) (hf : f.IsPlain) (h : e.text = f.text) : e = f := by
  obtain ⟨s, rfl⟩ := he.exists_scalar
  obtain ⟨t, rfl⟩ := hf.exists_scalar
  have hinteger (n : Int32) : Token.integer? (integer n).text = some n :=
    Token.integer?_integerText n
  have hletter (x : Bool) : Token.integer? (boolean x).text = none := by
    cases x <;> rfl
  have hread := congrArg Token.integer? h
  cases s with
  | integer n =>
    cases t with
    | integer m =>
      have hsame := (hinteger n).symm.trans (hread.trans (hinteger m))
      rw [Option.some.inj hsame]
    | boolean y => cases (hinteger n).symm.trans (hread.trans (hletter y))
  | boolean x =>
    cases t with
    | integer m => cases (hletter x).symm.trans (hread.trans (hinteger m))
    | boolean y =>
      have hletters := congrArg Token.boolean? h
      have hsame := (Token.boolean?_text x).symm.trans (hletters.trans (Token.boolean?_text y))
      rw [Option.some.inj hsame]

end Element

namespace Printed

/-! ## Brackets -/

/-- What stands behind a text between brackets: a blank, or the bracket that closes. -/
inductive Ends : List UInt8 → Prop where
  | blank (rest : List UInt8) : Ends (Ascii.space :: rest)
  | close (rest : List UInt8) : Ends (Ascii.closeBracket :: rest)

/-- Things are told from each other by what their texts begin with, up to where they end. -/
def Apart {α : Type} (text : α → List UInt8) (p : α → Prop) : Prop :=
  ∀ x y s t, p x → p y → Ends s → Ends t → text x ++ s = text y ++ t → x = y ∧ s = t

theorem apart_text : Apart Element.text Element.IsPlain := by
  intro e f s t he hf hs ht h
  have hrun {text rest : List UInt8} (htext : Word text) (hrest : Ends rest) :
      (text ++ rest).takeWhile (fun b => b ≠ Ascii.space && b ≠ Ascii.closeBracket) = text := by
    refine Reader.takeWhile_run (fun b hb => ?_) fun b hb => ?_
    · have := htext.inside b hb
      simp [this]
    · cases hrest <;> (cases hb; rfl)
  have htext : e.text = f.text := by
    rw [← hrun he.word_text hs, h, hrun hf.word_text ht]
  obtain rfl := Element.text_inj he hf htext
  exact ⟨rfl, List.append_cancel_left h⟩

section Brackets

variable {α : Type} {text : α → List UInt8} {p : α → Prop} {xs ys : List α} {s t : List UInt8}

/-- What stands behind the first of some texts in brackets: the others, each with a blank in front,
and the bracket that closes. -/
def behind (others : List (List UInt8)) (rest : List UInt8) : List UInt8 :=
  others.flatMap (Ascii.space :: ·) ++ Ascii.closeBracket :: rest

theorem ends_behind (others : List (List UInt8)) (rest : List UInt8) :
    Ends (behind others rest) := by
  cases others with
  | nil => exact .close rest
  | cons first others => exact .blank _

theorem behind_cons (first : List UInt8) (others : List (List UInt8)) (rest : List UInt8) :
    behind (first :: others) rest = Ascii.space :: (first ++ behind others rest) := by
  simp [behind]

theorem bracketed_append (first : List UInt8) (others : List (List UInt8)) (rest : List UInt8) :
    bracketed (first :: others) ++ rest =
      Ascii.openBracket :: (first ++ behind others rest) := by
  have hinside : [Ascii.space].intercalate (first :: others) ++ Ascii.closeBracket :: rest =
      first ++ behind others rest := by
    induction others generalizing first with
    | nil => rw [List.intercalate_singleton, behind, List.flatMap_nil, List.nil_append]
    | cons second others ih =>
      rw [List.intercalate_cons_cons, List.append_assoc, List.append_assoc, ih, behind_cons,
        List.singleton_append]
  simp [bracketed, hinside]

theorem behind_inj (hp : Apart text p) (hpxs : ∀ x ∈ xs, p x) (hpys : ∀ y ∈ ys, p y)
    (h : behind (xs.map text) s = behind (ys.map text) t) : xs = ys ∧ s = t := by
  induction xs generalizing ys with
  | nil =>
    cases ys with
    | nil => exact ⟨rfl, (List.cons.inj h).2⟩
    | cons y ys => cases h
  | cons x xs ih =>
    cases ys with
    | nil => cases h
    | cons y ys =>
      rw [List.forall_mem_cons] at hpxs hpys
      rw [List.map_cons, List.map_cons, behind_cons, behind_cons, List.cons.injEq] at h
      obtain ⟨rfl, hothers⟩ := hp x y _ _ hpxs.1 hpys.1 (ends_behind _ _) (ends_behind _ _) h.2
      obtain ⟨rfl, hrest⟩ := ih hpxs.2 hpys.2 hothers
      exact ⟨rfl, hrest⟩

/-- **Texts in brackets** tell what is in the brackets, and what stands behind them, if the texts of
single things tell what they are. -/
theorem bracketed_inj (hp : Apart text p) (hxs : xs ≠ []) (hys : ys ≠ []) (hpxs : ∀ x ∈ xs, p x)
    (hpys : ∀ y ∈ ys, p y) (h : bracketed (xs.map text) ++ s = bracketed (ys.map text) ++ t) :
    xs = ys ∧ s = t := by
  obtain ⟨x, xs, rfl⟩ := List.exists_cons_of_ne_nil hxs
  obtain ⟨y, ys, rfl⟩ := List.exists_cons_of_ne_nil hys
  rw [List.forall_mem_cons] at hpxs hpys
  rw [List.map_cons, List.map_cons, bracketed_append, bracketed_append, List.cons.injEq] at h
  obtain ⟨rfl, hothers⟩ := hp x y _ _ hpxs.1 hpys.1 (ends_behind _ _) (ends_behind _ _) h.2
  obtain ⟨rfl, hrest⟩ := behind_inj hp hpxs.2 hpys.2 hothers
  exact ⟨rfl, hrest⟩

/-- The brackets in front of a text. -/
def openings (text : List UInt8) : Nat := (text.takeWhile (· = Ascii.openBracket)).length

theorem openings_word {word : List UInt8} (h : Word word) (rest : List UInt8) :
    openings (word ++ rest) = 0 := by
  obtain ⟨b, more, rfl⟩ := List.exists_cons_of_ne_nil h.ne_nil
  have hb : b ≠ Ascii.openBracket := (h.inside b List.mem_cons_self).2.1
  simp [openings, hb]

theorem openings_bracketed (first : List UInt8) (others : List (List UInt8)) (rest : List UInt8) :
    openings (bracketed (first :: others) ++ rest) =
      openings (first ++ behind others rest) + 1 := by
  rw [bracketed_append]
  simp [openings]

end Brackets

/-! ## Rows -/

section Rows

variable {es fs : List Element} {s t : List UInt8} {n m i j : Nat}

/-- The text of a row. -/
def rowText (row : List Element) : List UInt8 := bracketed (row.map Element.text)

/-- A row of integers or booleans, with one of them at least. -/
structure PlainRow (row : List Element) : Prop where
  ne_nil : row ≠ []
  plain : ∀ e ∈ row, e.IsPlain

/-- A row is told from its text, whatever stands behind it. -/
theorem rowText_inj (hes : PlainRow es) (hfs : PlainRow fs)
    (h : rowText es ++ s = rowText fs ++ t) : es = fs ∧ s = t :=
  bracketed_inj apart_text hes.ne_nil hfs.ne_nil hes.plain hfs.plain h

theorem apart_rowText : Apart rowText PlainRow :=
  fun _ _ _ _ hes hfs _ _ => rowText_inj hes hfs

theorem openings_rowText (h : PlainRow es) (rest : List UInt8) :
    openings (rowText es ++ rest) = 1 := by
  obtain ⟨e, others, rfl⟩ := List.exists_cons_of_ne_nil h.ne_nil
  have hword := (h.plain e List.mem_cons_self).word_text
  rw [rowText, List.map_cons, openings_bracketed, openings_word hword]

/-- Row `i` of elements in rows of `m`. -/
def row {α : Type} (m i : Nat) (cells : List α) : List α := (cells.drop (i * m)).take m

/-- Elements in `n` rows of `m`. -/
def rows {α : Type} (n m : Nat) (cells : List α) : List (List α) :=
  (List.range n).map fun i => row m i cells

theorem rows_map {α β : Type} (f : α → β) (n m : Nat) (cells : List α) :
    rows n m (cells.map f) = (rows n m cells).map (List.map f) := by
  simp [rows, row, List.map_take, List.map_drop]

theorem rows_ne_nil (hn : 0 < n) : rows n m es ≠ [] := by
  simpa [rows] using Nat.ne_of_gt hn

theorem row_end_le {α : Type} {cells : List α} (hlength : cells.length = n * m) (hi : i < n) :
    i * m + m ≤ cells.length := by
  rw [hlength, ← Nat.succ_mul]
  exact Nat.mul_le_mul_right m hi

theorem length_row {α : Type} {cells : List α} (hlength : cells.length = n * m) (hi : i < n) :
    (row m i cells).length = m := by
  have hend := row_end_le hlength hi
  simp only [row, List.length_take, List.length_drop]
  omega

theorem getElem?_row {α : Type} {cells : List α} (hj : j < m) :
    (row m i cells)[j]? = cells[i * m + j]? := by
  simp [row, hj]

theorem plainRow_row (hlength : es.length = n * m) (hi : i < n) (hm : 0 < m)
    (hes : ∀ e ∈ es, e.IsPlain) : PlainRow (row m i es) := by
  refine ⟨List.ne_nil_of_length_pos ((length_row hlength hi).symm ▸ hm), fun e he => hes e ?_⟩
  exact List.mem_of_mem_drop (List.mem_of_mem_take he)

/-- The rows tell how many they are, how long they are and what is in them. -/
theorem rows_inj {n' m' : Nat} (hn : 0 < n) (hes : es.length = n * m) (hfs : fs.length = n' * m')
    (h : rows n m es = rows n' m' fs) : n = n' ∧ m = m' ∧ es = fs := by
  obtain rfl : n = n' := by simpa [rows] using congrArg List.length h
  have hrow (i : Nat) (hi : i < n) : row m i es = row m' i fs := by
    have := congrArg (·[i]?) h
    simpa [rows, hi] using this
  obtain rfl : m = m' := by rw [← length_row hes hn, hrow 0 hn, length_row hfs hn]
  refine ⟨rfl, rfl, List.ext_getElem? fun pos => ?_⟩
  by_cases hpos : pos < n * m
  · have hm : 0 < m := Nat.pos_of_mul_pos_left (Nat.zero_lt_of_lt hpos)
    have hi : pos / m < n := (Nat.div_lt_iff_lt_mul hm).mpr hpos
    have hj : pos % m < m := Nat.mod_lt pos hm
    have hflat : pos / m * m + pos % m = pos := Nat.div_add_mod' pos m
    calc es[pos]? = es[pos / m * m + pos % m]? := by rw [hflat]
      _ = fs[pos / m * m + pos % m]? := by rw [← getElem?_row hj, hrow _ hi, getElem?_row hj]
      _ = fs[pos]? := by rw [hflat]
  · rw [List.getElem?_eq_none (by omega), List.getElem?_eq_none (by omega)]

/-- A row is had if it ends within the cells. -/
theorem rowOf_eq_ok_iff {α : Type} {cells cell : List α} :
    Value.rowOf m cells i = .ok cell ↔
      rowMajor m i 0 + m ≤ cells.length ∧ cell = (cells.drop (rowMajor m i 0)).take m := by
  unfold Value.rowOf
  dsimp only
  split
  · rename_i hlt
    constructor
    · intro h
      cases h
    · rintro ⟨hle, -⟩
      exact absurd hlt (Nat.not_lt.mpr hle)
  · rename_i hle
    constructor
    · intro h
      exact ⟨Nat.not_lt.mp hle, (Except.ok.inj h).symm⟩
    · rintro ⟨-, rfl⟩
      rfl

/-- All rows are there. -/
theorem mapM_rowOf {α : Type} {cells : List α} (hlength : cells.length = n * m) (hm : 0 < m)
    (hcount : n * m < UInt64.size) :
    (List.range n).mapM (Value.rowOf m cells) = .ok (rows n m cells) := by
  refine Result.mapM_eq_ok_iff.mpr ?_
  rw [rows, List.map_map]
  refine List.map_congr_left fun i hi => ?_
  have hi : i < n := List.mem_range.mp hi
  have hfirst : rowMajor m i 0 = i * m := rowMajor_eq hi hm hcount
  have hend := row_end_le hlength hi
  exact rowOf_eq_ok_iff.mpr ⟨hfirst ▸ hend, by rw [hfirst]; rfl⟩

/-- Rows that are all there end where a word can count them: each begins where the one before it
ends. -/
theorem le_length_of_mapM_rowOf {α : Type} {cells : List α} {found : List (List α)}
    (h : (List.range n).mapM (Value.rowOf m cells) = .ok found)
    (hwords : cells.length < UInt64.size) : n * m ≤ cells.length := by
  have hend (i : Nat) (hi : i < n) : rowMajor m i 0 + m ≤ cells.length := by
    have hcell := Result.getElem_of_mapM_range h
      (i := i) (by rw [Result.length_of_mapM h, List.length_range]; exact hi)
    exact (rowOf_eq_ok_iff.mp hcell).1
  suffices hprefix : ∀ p ≤ n, p * m ≤ cells.length from hprefix n (Nat.le_refl n)
  intro p hp
  induction p with
  | zero => omega
  | succ p ih =>
    have hle : p * m ≤ cells.length := ih (by omega)
    have hfirst : rowMajor m p 0 = p * m := inWord_of_lt (Nat.lt_of_le_of_lt hle hwords)
    rw [Nat.succ_mul, ← hfirst]
    exact hend p hp

end Rows

end Printed

open Printed

/-! ## Arrays -/

/-- The shape of an array of integers or booleans, at least one of them, with two dimensions at
most. -/
structure Shape.IsPlain (s : Shape) : Prop where
  kind : s.element = .integer ∨ s.element = .boolean
  isString : s.isString = false
  known : s.hasOpenExtent = false
  atMostTwo : s.extents.length ≤ 2
  pos : 0 < s.size

namespace Value

variable {s t : Shape} {b c : Buffer} {es fs : List Element}

theorem render_stored (h : s.Fits b) :
    (stored s b).render = renderElements s b.elements := by
  have helements := elements_stored h
  show (do renderElements s (← (stored s b).elements)) = _
  rw [helements]
  rfl

/-- What an array of a plain shape prints as, by its extents. -/
inductive Prints (s : Shape) (es : List Element) : List UInt8 → Prop where
  | scalar {e : Element} : s.dims = .fixed [] → es = [e] → e.IsPlain → Prints s es e.text
  | vector : s.dims = .fixed [some es.length] → PlainRow es → Prints s es (rowText es)
  | matrix {n m : Nat} : s.dims = .fixed [some n, some m] → es.length = n * m → 0 < n →
    (∀ row ∈ rows n m es, PlainRow row) → Prints s es (bracketed ((rows n m es).map rowText))

/-- A plain array with as many elements as rows and columns say can be printed. -/
theorem prints_renderElements (hs : s.IsPlain) (hcount : s.Countable) (hlength : es.length = s.size)
    (hes : ∀ e ∈ es, e.IsPlain) : ∃ text, renderElements s es = .ok text ∧ Prints s es text := by
  obtain ⟨element, dims, isString⟩ := s
  obtain ⟨hkind, rfl, hknown, htwo, hpos⟩ := hs
  match dims with
  | .unspecified => cases hpos
  | .fixed [] =>
    obtain ⟨e, rfl⟩ := List.length_eq_one_iff.mp hlength
    exact ⟨_, congrArg Except.ok List.flatten_singleton, .scalar rfl rfl (hes e List.mem_cons_self)⟩
  | .fixed [some n] =>
    obtain rfl : es.length = n := hlength
    exact ⟨_, rfl, .vector rfl ⟨List.ne_nil_of_length_pos hpos, hes⟩⟩
  | .fixed [some n, some m] =>
    have hwords : n * m < UInt64.size := hcount
    have hlength : es.length = n * m := hlength.trans (inWord_of_lt hwords)
    have hpos : 0 < n * m := Nat.lt_of_lt_of_le hpos (inWord_le (n * m))
    have hn : 0 < n := Nat.pos_of_mul_pos_right hpos
    have hm : 0 < m := Nat.pos_of_mul_pos_left hpos
    have htext : renderElements ⟨element, .fixed [some n, some m], false⟩ es =
        .ok (bracketed ((rows n m es).map rowText)) := by
      show ((List.range n).mapM (rowOf m (es.map Element.text)) >>= fun rows =>
        pure (bracketed (rows.map bracketed))) = _
      rw [mapM_rowOf (by rw [List.length_map, hlength]) hm hwords, rows_map]
      show Except.ok (bracketed (((rows n m es).map (List.map Element.text)).map bracketed)) = _
      rw [List.map_map]
      rfl
    refine ⟨_, htext, .matrix rfl hlength hn fun row hrow => ?_⟩
    obtain ⟨i, hi, rfl⟩ := List.mem_map.mp hrow
    exact plainRow_row hlength (List.mem_range.mp hi) hm hes
  | .fixed (none :: _) => cases hknown
  | .fixed (some _ :: none :: _) => cases hknown
  | .fixed (_ :: _ :: _ :: _) => simp [Shape.extents] at htwo

/-- What can be printed has as many elements as rows and columns say. -/
theorem countable_of_renderElements {text : List UInt8} (h : renderElements s es = .ok text)
    (hlength : es.length = s.size) : s.Countable := by
  by_cases hrank : s.rank = .matrix
  · unfold renderElements at h
    rw [hrank] at h
    obtain ⟨found, hfound, -⟩ := Result.bind_eq_ok_iff.mp h
    have hcells : (es.map Element.text).length = inWord (s.extent 0 * s.extent 1) := by
      rw [List.length_map, hlength, Shape.size_of_matrix hrank]
    have hle := le_length_of_mapM_rowOf hfound (hcells ▸ inWord_lt _)
    exact Nat.lt_of_le_of_lt hle (hcells ▸ inWord_lt _)
  · exact Shape.countable_of_rank_ne hrank

/-- There is a bracket in front for every dimension. -/
theorem Prints.openings_eq {text : List UInt8} (h : Prints s es text) :
    openings text = s.extents.length := by
  unfold Shape.extents
  cases h with
  | scalar hdims _ he =>
    rw [hdims]
    simpa using openings_word he.word_text []
  | vector hdims hes =>
    rw [hdims]
    simpa using openings_rowText hes []
  | matrix hdims hlength hn hrows =>
    rw [hdims]
    obtain ⟨row, others, hsplit⟩ := List.exists_cons_of_ne_nil (rows_ne_nil hn)
    rw [hsplit] at hrows
    have hopen := openings_bracketed (rowText row) (others.map rowText) []
    rw [openings_rowText (hrows row List.mem_cons_self), List.append_nil] at hopen
    rw [hsplit]
    exact hopen

/-- **The text tells the extents and the elements.** -/
theorem Prints.inj {text : List UInt8} (hs : Prints s es text) (ht : Prints t fs text) :
    s.dims = t.dims ∧ es = fs := by
  have hextents := hs.openings_eq.symm.trans ht.openings_eq
  unfold Shape.extents at hextents
  generalize htext : text = same at ht
  cases hs with
  | scalar hdims hes he =>
    cases ht with
    | scalar hdims' hfs hf =>
      rw [hdims, hdims', hes, hfs, Element.text_inj he hf htext]
      exact ⟨rfl, rfl⟩
    | vector hdims' _ => simp [hdims, hdims'] at hextents
    | matrix hdims' _ _ _ => simp [hdims, hdims'] at hextents
  | vector hdims hes =>
    cases ht with
    | scalar hdims' _ _ => simp [hdims, hdims'] at hextents
    | vector hdims' hfs =>
      obtain ⟨rfl, -⟩ := rowText_inj hes hfs (congrArg (· ++ []) htext)
      exact ⟨hdims.trans hdims'.symm, rfl⟩
    | matrix hdims' _ _ _ => simp [hdims, hdims'] at hextents
  | matrix hdims hlength hn hrows =>
    cases ht with
    | scalar hdims' _ _ => simp [hdims, hdims'] at hextents
    | vector hdims' _ => simp [hdims, hdims'] at hextents
    | matrix hdims' hlength' hn' hrows' =>
      obtain ⟨hsame, -⟩ := bracketed_inj apart_rowText (rows_ne_nil hn) (rows_ne_nil hn') hrows
        hrows' (congrArg (· ++ []) htext)
      obtain ⟨rfl, rfl, rfl⟩ := rows_inj hn hlength hlength' hsame
      exact ⟨hdims.trans hdims'.symm, rfl⟩

/-- **Rendering loses nothing.** Arrays of integers or booleans, with at least one element and two
dimensions at most, can be printed if they have as many elements as rows and columns say. What prints
alike has the same kind, the same extents and the same elements. -/
theorem render_eq_iff (hs : s.IsPlain) (hb : s.Fits b) (ht : t.IsPlain) (hc : t.Fits c) :
    ((∃ u, (stored s b).render = .ok u) ↔ s.Countable) ∧
      ∀ u v, (stored s b).render = .ok u → (stored t c).render = .ok v →
        (u = v ↔ s = t ∧ b = c) := by
  rw [render_stored hb, render_stored hc]
  have hplain {r : Shape} {d : Buffer} (hr : r.IsPlain) (hd : r.Fits d) :
      ∀ e ∈ d.elements, e.IsPlain := fun e he => by
    rw [Element.IsPlain, Buffer.kind_of_mem_elements he, hd.kind]
    exact hr.kind
  have hlength {r : Shape} {d : Buffer} (hd : r.Fits d) : d.elements.length = r.size :=
    d.length_elements.trans hd.size
  have hcount {r : Shape} {d : Buffer} {text : List UInt8} (hr : r.IsPlain) (hd : r.Fits d)
      (h : renderElements r d.elements = .ok text) : r.Countable :=
    countable_of_renderElements h (hlength hd)
  have hprints {r : Shape} {d : Buffer} {text : List UInt8} (hr : r.IsPlain) (hd : r.Fits d)
      (h : renderElements r d.elements = .ok text) : Prints r d.elements text := by
    obtain ⟨text', htext', hprints⟩ :=
      prints_renderElements hr (hcount hr hd h) (hlength hd) (hplain hr hd)
    obtain rfl := Except.ok.inj (h.symm.trans htext')
    exact hprints
  refine ⟨⟨fun ⟨u, hu⟩ => hcount hs hb hu, fun hwords => ?_⟩, fun u v hu hv => ⟨fun h => ?_, ?_⟩⟩
  · obtain ⟨u, hu, -⟩ := prints_renderElements hs hwords (hlength hb) (hplain hs hb)
    exact ⟨u, hu⟩
  · obtain ⟨hdims, helements⟩ := (hprints hs hb hu).inj (hprints ht hc (h ▸ hv))
    -- there is an element, and it is of the kind of both
    obtain ⟨e, he⟩ : ∃ e, e ∈ b.elements := by
      refine List.exists_mem_of_length_pos ?_
      rw [b.length_elements, hb.size]
      exact hs.pos
    have hkind : b.kind = c.kind := by
      rw [← Buffer.kind_of_mem_elements he, ← Buffer.kind_of_mem_elements (helements ▸ he)]
    obtain ⟨element, dims, isString⟩ := s
    obtain ⟨element', dims', isString'⟩ := t
    obtain rfl : element = element' := hb.kind.symm.trans (hkind.trans hc.kind)
    obtain rfl : isString = isString' := hs.isString.trans ht.isString.symm
    obtain rfl : dims = dims' := hdims
    exact ⟨rfl, Buffer.ext_elements hkind helements⟩
  · rintro ⟨rfl, rfl⟩
    exact Except.ok.inj (hu.symm.trans hv)

/-- Two rows of two and one row of four print otherwise, though the words are the same. -/
theorem render_eq_iff_rows :
    let numbers := Buffer.integers #[1, -2, 3, 4]
    ∃ u v, (stored (Shape.matrix .integer 2 2) numbers).render = .ok u ∧
      (stored (Shape.matrix .integer 1 4) numbers).render = .ok v ∧ u ≠ v := by
  intro numbers
  have hplain (n m : Nat) (hpos : 0 < (Shape.matrix .integer n m).size) :
      (Shape.matrix .integer n m).IsPlain := ⟨.inl rfl, rfl, rfl, Nat.le_refl 2, hpos⟩
  have hsquare : (Shape.matrix .integer 2 2).Fits numbers := ⟨rfl, rfl⟩
  have hrow : (Shape.matrix .integer 1 4).Fits numbers := ⟨rfl, rfl⟩
  have hone := render_eq_iff (hplain 2 2 (by decide)) hsquare (hplain 1 4 (by decide)) hrow
  have hother := render_eq_iff (hplain 1 4 (by decide)) hrow (hplain 2 2 (by decide)) hsquare
  obtain ⟨u, hu⟩ := hone.1.mpr (by decide)
  obtain ⟨v, hv⟩ := hother.1.mpr (by decide)
  refine ⟨u, v, hu, hv, fun h => ?_⟩
  cases ((hone.2 u v hu hv).mp h).1

end Value

end ArrayMachine
