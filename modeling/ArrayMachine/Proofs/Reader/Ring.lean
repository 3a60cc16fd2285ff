import ArrayMachine.Input.Reader
import Mathlib.Data.List.Basic

/-!
# The ring keeps the order of the input

The bytes a reader has not read for good lie in three places: the cells of the ring from `start` to
`stop`, the stash, and the script. `Reader.onward r n` puts them in a row from position `n` on, and
`Reader.Extends r s` says that `s` comes from `r` by taking bytes in: it has the same positions and
the same row.

* `window_take`: writing behind the held bytes, in no more cells than `contiguousRoom`, appends to
  the row and disturbs no held byte, wherever the ring wraps.
* `extends_fill`, `extends_peek`, `extends_peekBeyond`: looking ahead only moves bytes from the
  script or the stash into the ring.
* `peek_byte`, `peek_full`, `onward_of_peekBeyond_byte`: what looking ahead says about the row.
-/

namespace ArrayMachine

/-! ## The bytes of a script -/

/-- The bytes a delivery brings. -/
def Delivery.contents : Delivery → List UInt8
  | bytes first more => first :: more
  | endOfInput => []
  | failure => []

namespace Source

/-- All bytes of a script, in order. -/
def contents : Source → List UInt8
  | [] => []
  | .bytes bytes :: rest => bytes ++ contents rest
  | .interruption :: rest => contents rest
  | .failure :: rest => contents rest

theorem contents_pushBack (bytes : List UInt8) (rest : Source) :
    contents (pushBack bytes rest) = bytes ++ contents rest := by
  unfold pushBack
  split
  · rename_i h
    rw [h, List.nil_append]
  · rfl

/-- **A read takes the bytes it gives off the front of the script.** -/
theorem contents_of_read {room : Nat} {source rest : Source} {d : Delivery}
    (h : read room source = (d, rest)) : source.contents = d.contents ++ rest.contents := by
  fun_induction read room source with
  | case1 =>
    obtain ⟨rfl, rfl⟩ := Prod.mk.inj h
    rfl
  | case2 =>
    obtain ⟨rfl, rfl⟩ := Prod.mk.inj h
    rfl
  | case3 first more tail =>
    obtain ⟨rfl, rfl⟩ := Prod.mk.inj h
    rw [contents_pushBack]
    simp only [contents, Delivery.contents, List.cons_append]
    rw [← List.append_assoc, List.take_append_drop]
  | case4 tail ih => exact ih h
  | case5 =>
    obtain ⟨rfl, rfl⟩ := Prod.mk.inj h
    rfl

/-- A read gives no more bytes than there is room for. -/
theorem length_of_read {room : Nat} {source rest : Source} {first : UInt8} {more : List UInt8}
    (hroom : 0 < room) (h : read room source = (.bytes first more, rest)) :
    (first :: more).length ≤ room := by
  fun_induction read room source with
  | case1 => simp at h
  | case2 => simp at h
  | case3 f m tail =>
    simp only [Prod.mk.injEq, Delivery.bytes.injEq] at h
    obtain ⟨⟨-, rfl⟩, -⟩ := h
    simp only [List.length_cons, List.length_take]
    omega
  | case4 tail ih => exact ih h
  | case5 => simp at h

end Source

namespace Reader

/-! ## Cells -/

theorem size_writeCells (ring : Array UInt8) (first : Nat) (bytes : List UInt8) :
    (writeCells ring first bytes).size = ring.size := by
  induction bytes generalizing ring first with
  | nil => rfl
  | cons byte rest ih => rw [writeCells, ih, Array.size_setIfInBounds]

/-- The cells in front of the written ones and behind them keep their bytes. -/
theorem getD_writeCells_outside {ring : Array UInt8} {first j : Nat} {bytes : List UInt8}
    (h : j < first ∨ first + bytes.length ≤ j) :
    (writeCells ring first bytes).getD j 0 = ring.getD j 0 := by
  induction bytes generalizing ring first with
  | nil => rfl
  | cons byte rest ih =>
    rw [List.length_cons] at h
    rw [writeCells, ih (by omega)]
    simp only [Array.getD_eq_getD_getElem?]
    rw [Array.getElem?_setIfInBounds_ne (by omega)]

/-- The written cells hold the bytes, in order. -/
theorem getD_writeCells_inside {ring : Array UInt8} {first i : Nat} {bytes : List UInt8}
    (hroom : first + bytes.length ≤ ring.size) (hi : i < bytes.length) :
    (writeCells ring first bytes).getD (first + i) 0 = bytes[i] := by
  induction bytes generalizing ring first i with
  | nil => exact absurd hi (Nat.not_lt_zero i)
  | cons byte rest ih =>
    rw [List.length_cons] at hroom hi
    rw [writeCells]
    cases i with
    | zero =>
      rw [getD_writeCells_outside (Or.inl (by omega)), Array.getD_eq_getD_getElem?,
        Nat.add_zero, Array.getElem?_setIfInBounds_self_of_lt (by omega)]
      rfl
    | succ i =>
      rw [show first + (i + 1) = first + 1 + i by omega]
      exact ih (by rw [Array.size_setIfInBounds]; omega) (by omega)

/-- Positions less than a ring's length apart lie in different cells. -/
theorem mod_ne_mod {m n c : Nat} (h : m < n) (hc : n < m + c) : m % c ≠ n % c := by
  intro he
  have hd : c ∣ n - m := Nat.dvd_of_mod_eq_zero (Nat.sub_mod_eq_zero_of_mod_eq he.symm)
  have := Nat.le_of_dvd (by omega) hd
  omega

/-! ## The row of bytes -/

/-- The positions are in order, and the ring has a cell for each byte it holds. -/
structure Sound (r : Reader) : Prop where
  start_le : r.start ≤ r.cursor
  cursor_le : r.cursor ≤ r.stop
  stop_le : r.stop ≤ r.start + r.capacity
  capacity_pos : 0 < r.capacity

/-- The bytes in the ring from a position on. -/
def window (r : Reader) (n : Nat) : List UInt8 :=
  (List.range (r.stop - n)).map fun i => r.cell (n + i)

/-- The bytes from a position on: in the ring, in the stash and in the script. -/
def onward (r : Reader) (n : Nat) : List UInt8 :=
  r.window n ++ (r.stash.toList ++ r.source.contents)

variable {r s : Reader}

theorem length_window (n : Nat) : (r.window n).length = r.stop - n := by
  simp [window]

theorem getElem_window {n i : Nat} (h : i < (r.window n).length) :
    (r.window n)[i] = r.cell (n + i) := by
  simp [window]

theorem window_stop : r.window r.stop = [] := by
  simp [window]

theorem window_cons {n : Nat} (h : n < r.stop) : r.window n = r.cell n :: r.window (n + 1) := by
  obtain ⟨k, hk⟩ : ∃ k, r.stop - n = k + 1 := ⟨r.stop - n - 1, by omega⟩
  have hk' : r.stop - (n + 1) = k := by omega
  unfold window
  rw [hk, hk', List.range_succ_eq_map, List.map_cons, List.map_map]
  refine congrArg _ (List.map_congr_left fun i _ => ?_)
  simp only [Function.comp]
  rw [show n + (i + 1) = n + 1 + i by omega]

theorem onward_cons {n : Nat} (h : n < r.stop) : r.onward n = r.cell n :: r.onward (n + 1) := by
  unfold onward
  rw [window_cons h, List.cons_append]

theorem onward_stop : r.onward r.stop = r.stash.toList ++ r.source.contents := by
  unfold onward
  rw [window_stop, List.nil_append]

/-! ## Taking bytes in -/

theorem capacity_take (bytes : List UInt8) : (r.take bytes).capacity = r.capacity :=
  size_writeCells _ _ _

/-- Bytes that find room leave the positions in order. -/
theorem Sound.take (h : r.Sound) {bytes : List UInt8} (hb : bytes.length ≤ r.contiguousRoom) :
    (r.take bytes).Sound := by
  have hstart := h.start_le
  have hcursor := h.cursor_le
  have hle := h.stop_le
  unfold contiguousRoom free at hb
  refine ⟨hstart, Nat.le_add_right_of_le hcursor, ?_, ?_⟩
  · rw [capacity_take]
    show r.stop + bytes.length ≤ r.start + r.capacity
    omega
  · rw [capacity_take]
    exact h.capacity_pos

/-- A held byte is in none of the cells with room. -/
theorem held_apart_room (h : r.Sound) {n : Nat} (hn : r.start ≤ n) (hs : n < r.stop) :
    n % r.capacity < r.stop % r.capacity ∨
      r.stop % r.capacity + r.contiguousRoom ≤ n % r.capacity := by
  have hmod := Nat.mod_lt r.stop h.capacity_pos
  have hstop := h.stop_le
  by_contra hin
  unfold contiguousRoom free at hin
  -- such a byte would share its cell with a position less than a ring ahead
  have hcell : n % r.capacity = (r.stop + (n % r.capacity - r.stop % r.capacity)) % r.capacity := by
    rw [← Nat.mod_add_mod, show r.stop % r.capacity + (n % r.capacity - r.stop % r.capacity) =
      n % r.capacity by omega, Nat.mod_mod]
  exact mod_ne_mod (by omega) (by omega) hcell

/-- Bytes taken in do not overwrite the held ones. -/
theorem cell_take_held (h : r.Sound) {bytes : List UInt8} (hb : bytes.length ≤ r.contiguousRoom)
    {n : Nat} (hn : r.start ≤ n) (hs : n < r.stop) : (r.take bytes).cell n = r.cell n := by
  have hapart := held_apart_room h hn hs
  unfold cell
  rw [capacity_take]
  apply getD_writeCells_outside
  omega

/-- Bytes taken in follow the held ones. -/
theorem cell_take_new (h : r.Sound) {bytes : List UInt8} (hb : bytes.length ≤ r.contiguousRoom)
    {i : Nat} (hi : i < bytes.length) : (r.take bytes).cell (r.stop + i) = bytes[i] := by
  have hmod := Nat.mod_lt r.stop h.capacity_pos
  unfold contiguousRoom at hb
  have hcell : (r.stop + i) % r.capacity = r.stop % r.capacity + i := by
    rw [← Nat.mod_add_mod]
    exact Nat.mod_eq_of_lt (by omega)
  unfold cell
  rw [capacity_take, hcell]
  exact getD_writeCells_inside (by rw [show r.ring.size = r.capacity from rfl]; omega) hi

/-- **Taking bytes in appends them to the held ones.** -/
theorem window_take (h : r.Sound) {bytes : List UInt8} (hb : bytes.length ≤ r.contiguousRoom)
    {n : Nat} (hn : r.start ≤ n) (hs : n ≤ r.stop) :
    (r.take bytes).window n = r.window n ++ bytes := by
  have hstop : (r.take bytes).stop = r.stop + bytes.length := rfl
  apply List.ext_getElem
  · rw [List.length_append, length_window, length_window, hstop]
    omega
  · intro i h1 h2
    have hi := h1
    rw [length_window, hstop] at hi
    rw [getElem_window]
    by_cases hheld : i < r.stop - n
    · rw [List.getElem_append_left (by rw [length_window]; exact hheld), getElem_window]
      exact cell_take_held h hb (by omega) (by omega)
    · rw [List.getElem_append_right (by rw [length_window]; omega)]
      have hpos : n + i = r.stop + (i - (r.stop - n)) := by omega
      rw [hpos, cell_take_new h hb (by omega)]
      simp only [length_window]

/-- `s` is `r` with more bytes taken in: the same positions, and the same row of bytes. -/
structure Extends (r s : Reader) : Prop where
  sound : s.Sound
  start_eq : s.start = r.start
  cursor_eq : s.cursor = r.cursor
  stop_le : r.stop ≤ s.stop
  capacity_eq : s.capacity = r.capacity
  onward_eq : ∀ n, r.start ≤ n → n ≤ r.stop → s.onward n = r.onward n

theorem Extends.refl (h : r.Sound) : Extends r r :=
  ⟨h, rfl, rfl, Nat.le_refl _, rfl, fun _ _ _ => rfl⟩

/-- The row from the first byte not read for good stays. -/
theorem Extends.onward_start (hs : Extends r s) (h : r.Sound) :
    s.onward s.start = r.onward r.start := by
  rw [hs.start_eq]
  exact hs.onward_eq _ (Nat.le_refl _) (Nat.le_trans h.start_le h.cursor_le)

/-- The row ahead of the cursor stays. -/
theorem Extends.onward_cursor (hs : Extends r s) (h : r.Sound) :
    s.onward s.cursor = r.onward r.cursor := by
  rw [hs.cursor_eq]
  exact hs.onward_eq _ h.start_le h.cursor_le

/-- A reader with another script of the same contents and another memory of its end. -/
theorem Extends.of_source (h : r.Sound) {source : Source} (exhausted : Bool)
    (hc : source.contents = r.source.contents) :
    Extends r { r with source, exhausted } := by
  refine ⟨⟨h.start_le, h.cursor_le, h.stop_le, h.capacity_pos⟩, rfl, rfl, Nat.le_refl _, rfl, ?_⟩
  intro n _ _
  show r.window n ++ (r.stash.toList ++ source.contents) = r.onward n
  rw [hc]
  rfl

/-- Bytes that move from the stash and the script into the ring keep their place in the row. -/
theorem Extends.of_take (h : r.Sound) {bytes : List UInt8} {stash : Option UInt8} {source : Source}
    (hb : bytes.length ≤ r.contiguousRoom)
    (hrow : bytes ++ (stash.toList ++ source.contents) = r.stash.toList ++ r.source.contents) :
    Extends r ({ r with stash, source }.take bytes) := by
  have hsound : (r.take bytes).Sound := h.take hb
  refine ⟨⟨hsound.start_le, hsound.cursor_le, hsound.stop_le, hsound.capacity_pos⟩, rfl, rfl,
    Nat.le_add_right _ _, capacity_take bytes, ?_⟩
  intro n hn hs
  have hw : ({ r with stash, source }.take bytes).window n = r.window n ++ bytes :=
    window_take h hb hn hs
  show ({ r with stash, source }.take bytes).window n ++ (stash.toList ++ source.contents) = _
  rw [hw, List.append_assoc, hrow]
  rfl

/-! ## Looking ahead -/

theorem contiguousRoom_pos (h : r.Sound) (hfree : r.free ≠ 0) : 0 < r.contiguousRoom := by
  have := Nat.mod_lt r.stop h.capacity_pos
  unfold contiguousRoom
  omega

/-- **Filling the ring keeps the row.** -/
theorem extends_fill (h : r.Sound) : Extends r r.fill.2 := by
  unfold fill
  split
  · exact Extends.refl h
  · rename_i hfree
    have hroom := contiguousRoom_pos h hfree
    split
    · rename_i byte hstash
      have hrow : [byte] ++ (none.toList ++ r.source.contents) =
          r.stash.toList ++ r.source.contents := by
        rw [hstash]
        rfl
      exact Extends.of_take h hroom hrow
    · rename_i hstash
      split
      · exact Extends.refl h
      · split
        · rename_i first more source hread
          have hrow : first :: more ++ (r.stash.toList ++ source.contents) =
              r.stash.toList ++ r.source.contents := by
            rw [hstash, Source.contents_of_read hread]
            rfl
          exact Extends.of_take h (Source.length_of_read hroom hread) hrow
        · rename_i source hread
          exact Extends.of_source h true (Source.contents_of_read hread).symm
        · rename_i source hread
          exact Extends.of_source h r.exhausted (Source.contents_of_read hread).symm

theorem extends_peek (h : r.Sound) {p : Peek} (hp : r.peek = (p, s)) : Extends r s := by
  obtain rfl : r.peek.2 = s := congrArg Prod.snd hp
  unfold peek
  split
  · exact Extends.refl h
  · exact extends_fill h

/-- A byte put into the empty stash keeps its place in the row. -/
theorem extends_peekBeyond (h : r.Sound) {p : Peek} (hp : r.peekBeyond = (p, s)) :
    Extends r s := by
  obtain rfl : r.peekBeyond.2 = s := congrArg Prod.snd hp
  unfold peekBeyond
  split
  · exact Extends.refl h
  · rename_i hstash
    split
    · exact Extends.refl h
    · split
      · rename_i first more source hread
        have hmore : more = [] := by
          have := Source.length_of_read (Nat.one_pos) hread
          simpa using this
        have hc := Source.contents_of_read hread
        refine ⟨⟨h.start_le, h.cursor_le, h.stop_le, h.capacity_pos⟩, rfl, rfl, Nat.le_refl _, rfl, ?_⟩
        intro n _ _
        show r.window n ++ ([first] ++ source.contents) = r.onward n
        unfold onward
        rw [hstash, hc, hmore]
        rfl
      · rename_i source hread
        exact Extends.of_source h true (Source.contents_of_read hread).symm
      · rename_i source hread
        exact Extends.of_source h r.exhausted (Source.contents_of_read hread).symm

/-- The byte seen is at the cursor, in the ring. -/
theorem peek_byte (h : r.Sound) {byte : UInt8} (hp : r.peek = (.byte byte, s)) :
    s.cursor < s.stop ∧ s.cell s.cursor = byte := by
  have hcursor := h.cursor_le
  unfold peek at hp
  split at hp
  · rename_i hlt
    obtain ⟨hb, rfl⟩ := Prod.mk.inj hp
    exact ⟨hlt, Peek.byte.inj hb⟩
  · unfold fill at hp
    split at hp
    · simp at hp
    · split at hp
      · obtain ⟨hb, rfl⟩ := Prod.mk.inj hp
        exact ⟨Nat.lt_succ_of_le hcursor, Peek.byte.inj hb⟩
      · split at hp
        · simp at hp
        · split at hp
          · obtain ⟨hb, rfl⟩ := Prod.mk.inj hp
            refine ⟨?_, Peek.byte.inj hb⟩
            show r.cursor < r.stop + (_ + 1)
            omega
          · simp at hp
          · simp at hp

/-- **The byte seen is the next of the row.** -/
theorem onward_of_peek_byte (h : r.Sound) {byte : UInt8} (hp : r.peek = (.byte byte, s)) :
    r.onward r.cursor = byte :: s.onward (s.cursor + 1) := by
  have hs := extends_peek h hp
  obtain ⟨hlt, hcell⟩ := peek_byte h hp
  rw [← hs.onward_cursor h, onward_cons hlt, hcell]

/-- Only a ring that is full of unread bytes up to the cursor is reported as full. -/
theorem peek_full (h : r.Sound) (hp : r.peek = (.full, s)) :
    s = r ∧ r.cursor = r.stop ∧ r.stop = r.start + r.capacity := by
  have hcursor := h.cursor_le
  have hstart := h.start_le
  have hstop := h.stop_le
  unfold peek at hp
  split at hp
  · simp at hp
  · unfold fill at hp
    split at hp
    · rename_i hge hfree
      unfold free at hfree
      exact ⟨(Prod.mk.inj hp).2.symm, by omega, by omega⟩
    · split at hp
      · simp at hp
      · split at hp
        · simp at hp
        · split at hp <;> simp at hp

/-- A ring of which nothing is passed is not reported as full. -/
theorem peek_ne_full (h : r.Sound) (hc : r.cursor = r.start) : r.peek.1 ≠ .full := by
  intro hp
  obtain ⟨-, hstop, hfull⟩ := peek_full (s := r.peek.2) h (Prod.ext hp rfl)
  have := h.capacity_pos
  omega

/-- The byte behind a full ring is the next of the row. -/
theorem onward_of_peekBeyond_byte {byte : UInt8} (hp : r.peekBeyond = (.byte byte, s)) :
    ∃ rest, r.onward r.stop = byte :: rest := by
  rw [onward_stop]
  unfold peekBeyond at hp
  split at hp
  · rename_i b hstash
    obtain ⟨hb, rfl⟩ := Prod.mk.inj hp
    rw [hstash, Peek.byte.inj hb]
    exact ⟨_, rfl⟩
  · rename_i hstash
    split at hp
    · simp at hp
    · split at hp
      · rename_i first more source hread
        obtain ⟨hb, rfl⟩ := Prod.mk.inj hp
        rw [hstash, Source.contents_of_read hread, Peek.byte.inj hb]
        exact ⟨_, rfl⟩
      · simp at hp
      · simp at hp

theorem peekBeyond_ne_full : r.peekBeyond.1 ≠ .full := by
  unfold peekBeyond
  split
  · simp
  · split
    · simp
    · split <;> simp

end Reader

end ArrayMachine
