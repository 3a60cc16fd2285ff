import ArrayMachine.Proofs.Reader.Points

/-!
# A reader stays in bounds

At every point of every read (`Reader.Point`) the positions are in order and at most the capacity
apart, and the source is given only cells of the ring that hold no unread byte, one at least. So the
source never writes over a byte that a rewind comes back to. The ring can be found full only where the
cursor has passed a byte, and it looks for another one there only within a token.

* `isFree_room`: wherever the ring wraps, the cells in front of the wrap or of the first unread byte
  are free.
* `Point.Sound.next`: a step keeps what each stage knows of the reader, and `Point.Sound.iterate`:
  so does a read.
* `reads_stay_in_bounds`: every point of every read is in bounds (`Point.InBounds`).
-/

namespace ArrayMachine

namespace Reader

variable {r s : Reader}

/-! ## What is known at each point -/

/-- A span has a cell, its cells are in the ring, and none of them holds a byte that is not read for
good. -/
structure Span.IsFree (span : Span) (r : Reader) : Prop where
  length_pos : 0 < span.length
  in_ring : span.first + span.length ≤ r.ring.size
  apart : ∀ n, r.start ≤ n → n < r.stop →
    n % r.capacity < span.first ∨ span.first + span.length ≤ n % r.capacity

/-- Where the ring is not full, the source is given free cells. -/
theorem isFree_room (h : r.Sound) (hfree : r.free ≠ 0) : r.room.IsFree r := by
  have hmod := Nat.mod_lt r.stop h.capacity_pos
  refine ⟨contiguousRoom_pos h hfree, ?_, fun n hn hs => held_apart_room h hn hs⟩
  show r.stop % r.capacity + min r.free (r.capacity - r.stop % r.capacity) ≤ r.capacity
  omega

/-- Unless it looks for the end of a token, the cursor has passed nothing. -/
def Site.Settled (r : Reader) : Site → Prop
  | .blanks _ => r.cursor = r.start
  | .token _ _ => True
  | .character => r.cursor = r.start

/-- What a stage says of the reader. While the source is tried only the script changes, so the span
that it is given stays the room there is. -/
def Stage.Knows (r : Reader) : Stage → Prop
  | .look site => site.Settled r
  | .fill site span => site.Settled r ∧ r.cursor = r.stop ∧ r.free ≠ 0 ∧ span = r.room
  | .found site peek => site.Settled r ∧ (∀ byte, peek = .byte byte → r.cursor < r.stop) ∧
    (peek = .full → r.cursor ≠ r.start)
  | .done _ => r.cursor = r.start
  | _ => True

/-- The reader of a point is sound, and as its stage says. -/
structure Point.Sound (capacity : Nat) (p : Point) : Prop where
  reader : p.reader.Sound
  capacity_eq : p.reader.capacity = capacity
  stage : p.stage.Knows p.reader

/-- The positions and the capacity decide. -/
theorem Sound.of_eq (h : r.Sound) (hstart : s.start = r.start) (hcursor : s.cursor = r.cursor)
    (hstop : s.stop = r.stop) (hcapacity : s.capacity = r.capacity) : s.Sound := by
  refine ⟨?_, ?_, ?_, ?_⟩
  · rw [hstart, hcursor]
    exact h.start_le
  · rw [hcursor, hstop]
    exact h.cursor_le
  · rw [hstop, hstart, hcapacity]
    exact h.stop_le
  · rw [hcapacity]
    exact h.capacity_pos

theorem Site.Settled.of_eq {site : Site} (h : site.Settled r) (hstart : s.start = r.start)
    (hcursor : s.cursor = r.cursor) : site.Settled s := by
  cases site with
  | token request seen => trivial
  | blanks request => exact hcursor.trans (h.trans hstart.symm)
  | character => exact hcursor.trans (h.trans hstart.symm)

variable {capacity : Nat} {site : Site} {span : Span}

/-- Bytes taken in are behind the cursor that looked for them. -/
theorem sound_found_take (h : r.Sound) (hcapacity : r.capacity = capacity) (hsite : site.Settled r)
    {first : UInt8} {more : List UInt8} (hroom : (first :: more).length ≤ r.contiguousRoom)
    (stash : Option UInt8) (byte : UInt8) :
    Point.Sound capacity ⟨.found site (.byte byte), { r with stash }.take (first :: more)⟩ := by
  have htake : (r.take (first :: more)).Sound := h.take hroom
  have hsound : ({ r with stash }.take (first :: more)).Sound := htake.of_eq rfl rfl rfl rfl
  refine ⟨hsound, (capacity_take _).trans hcapacity, hsite.of_eq rfl rfl, fun _ _ => ?_, by simp⟩
  show r.cursor < r.stop + (first :: more).length
  have := h.cursor_le
  rw [List.length_cons]
  omega

theorem sound_stepLook (h : r.Sound) (hcapacity : r.capacity = capacity)
    (hsite : site.Settled r) : (r.stepLook site).Sound capacity := by
  unfold stepLook
  split
  · rename_i hlt
    exact ⟨h, hcapacity, hsite, fun _ _ => hlt, by simp⟩
  · rename_i hge
    have hstop : r.cursor = r.stop := by
      have := h.cursor_le
      omega
    split
    · rename_i hfree
      refine ⟨h, hcapacity, hsite, by simp, fun _ => ?_⟩
      -- a full ring holds a byte, and the cursor is behind all that it holds
      have := h.capacity_pos
      unfold free at hfree
      show r.cursor ≠ r.start
      omega
    · rename_i hfree
      split
      · rename_i byte hstash
        have hroom : [byte].length ≤ r.contiguousRoom := contiguousRoom_pos h hfree
        exact sound_found_take h hcapacity hsite hroom none _
      · split
        · exact ⟨h, hcapacity, hsite, by simp, by simp⟩
        · exact ⟨h, hcapacity, hsite, hstop, hfree, rfl⟩

/-- The bytes that the source gives stay within the span it is given. -/
theorem sound_stepFill (h : r.Sound) (hcapacity : r.capacity = capacity)
    (hfill : (Stage.fill site span).Knows r) {source rest : Source} {d : Delivery}
    (hread : source.read span.length = (d, rest)) :
    (stepFill site span r d).Sound capacity := by
  obtain ⟨hsite, hstop, hfree, rfl⟩ := hfill
  cases d with
  | bytes first more =>
    have hroom := Source.length_of_read (contiguousRoom_pos h hfree) hread
    exact sound_found_take h hcapacity hsite hroom r.stash _
  | endOfInput =>
    exact ⟨h.of_eq rfl rfl rfl rfl, hcapacity, hsite.of_eq rfl rfl, by simp, by simp⟩
  | failure => exact ⟨h, hcapacity, hsite, by simp, by simp⟩

theorem sound_stepFound (h : r.Sound) (hcapacity : r.capacity = capacity) {peek : Peek}
    (hfound : (Stage.found site peek).Knows r) : (r.stepFound site peek).Sound capacity := by
  obtain ⟨hsite, hbyte, -⟩ := hfound
  cases peek with
  | byte byte =>
    have hadvance := h.advance (hbyte byte rfl)
    cases site with
    | blanks request =>
      rw [stepFound]
      split
      · exact ⟨hadvance, hcapacity, trivial⟩
      · exact ⟨h, hcapacity, trivial⟩
    | token request seen =>
      rw [stepFound]
      split
      · exact ⟨h, hcapacity, trivial⟩
      · exact ⟨hadvance, hcapacity, trivial⟩
    | character => exact ⟨hadvance, hcapacity, trivial⟩
  | endOfInput => cases site <;> exact ⟨h, hcapacity, trivial⟩
  | full => cases site <;> exact ⟨h, hcapacity, trivial⟩
  | failed => cases site <;> exact ⟨h, hcapacity, trivial⟩

/-- Looking behind a full ring moves no position. -/
theorem sound_stepLookBeyond (h : r.Sound) (hcapacity : r.capacity = capacity)
    (request : Request) (seen : List UInt8) :
    (r.stepLookBeyond request seen).Sound capacity := by
  unfold stepLookBeyond
  split
  · exact ⟨h, hcapacity, trivial⟩
  · split
    · exact ⟨h, hcapacity, trivial⟩
    · exact ⟨h, hcapacity, trivial⟩

theorem sound_stepStash (h : r.Sound) (hcapacity : r.capacity = capacity) (request : Request)
    (seen : List UInt8) (d : Delivery) : (stepStash request seen r d).Sound capacity := by
  cases d with
  | bytes first more => exact ⟨h.of_eq rfl rfl rfl rfl, hcapacity, trivial⟩
  | endOfInput => exact ⟨h.of_eq rfl rfl rfl rfl, hcapacity, trivial⟩
  | failure => exact ⟨h, hcapacity, trivial⟩

/-- A try to read moves no position before its bytes are there. -/
theorem sound_tryRead {room : Nat} {again : Stage} {go : Reader → Delivery → Point}
    (hagain : ∀ source, Point.Sound capacity ⟨again, { r with source }⟩)
    (hgo : ∀ d rest, r.source.read room = (d, rest) →
      (go { r with source := rest } d).Sound capacity) :
    (r.tryRead room again go).Sound capacity := by
  unfold tryRead
  split
  · exact hagain _
  · rename_i htry
    exact hgo _ _ (Source.read_of_tryRead htry)

theorem sound_finish (h : r.Sound) (state : StreamState) : (r.finish state).Sound := by
  unfold finish
  split
  · exact h.commit.of_eq rfl rfl rfl rfl
  · exact h.rewind.of_eq rfl rfl rfl rfl

theorem capacity_finish (r : Reader) (state : StreamState) :
    (r.finish state).capacity = r.capacity := by
  unfold finish
  split <;> rfl

/-- **A step keeps what is known.** -/
theorem Point.Sound.next {p : Point} (h : p.Sound capacity) : (next p).Sound capacity := by
  obtain ⟨stage, r⟩ := p
  obtain ⟨hr, hcapacity, hstage⟩ := h
  -- a reader that differs in its script only is as sound
  have hsource (source : Source) : ({ r with source } : Reader).Sound := hr.of_eq rfl rfl rfl rfl
  cases stage with
  | look site => exact sound_stepLook hr hcapacity hstage
  | fill site span =>
    refine sound_tryRead (fun source => ⟨hsource source, hcapacity, hstage⟩) ?_
    intro d rest hread
    exact sound_stepFill (hsource rest) hcapacity hstage hread
  | found site peek => exact sound_stepFound hr hcapacity hstage
  | blank request => exact ⟨hr.commit, hcapacity, rfl⟩
  | lookBeyond request seen => exact sound_stepLookBeyond hr hcapacity request seen
  | stash request seen =>
    refine sound_tryRead (fun source => ⟨hsource source, hcapacity, trivial⟩) ?_
    intro d rest _
    exact sound_stepStash (hsource rest) hcapacity request seen d
  | foundBeyond request seen peek => exact ⟨hr, hcapacity, trivial⟩
  | scanned request scan =>
    have hknows : (answerTo request scan).Knows r := by
      unfold answerTo
      split
      · split <;> trivial
      all_goals trivial
    exact ⟨hr, hcapacity, hknows⟩
  | answered answer state =>
    exact ⟨sound_finish hr state, (capacity_finish r state).trans hcapacity, cursor_finish r state⟩
  | done answer => exact ⟨hr, hcapacity, hstage⟩

theorem Point.Sound.iterate {p : Point} (h : p.Sound capacity) (n : Nat) :
    (Reader.next^[n] p).Sound capacity := by
  induction n with
  | zero => exact h
  | succ n ih =>
    rw [Function.iterate_succ_apply']
    exact ih.next

/-! ## Between reads -/

/-- The reader is between two reads. -/
structure Idle (capacity : Nat) (r : Reader) : Prop where
  sound : r.Sound
  capacity_eq : r.capacity = capacity
  settled : r.cursor = r.start

theorem idle_ofSource (source : Source) (capacity : Nat) :
    Idle (max capacity 2) (ofSource source capacity) :=
  ⟨sound_ofSource source capacity, capacity_ofSource source capacity, rfl⟩

theorem Idle.enter (h : r.Idle capacity) (request : Request) :
    (r.enter request).Sound capacity := by
  cases request <;> exact ⟨h.sound, h.capacity_eq, h.settled⟩

theorem Idle.read (h : r.Idle capacity) (request : Request) : (r.read request).2.Idle capacity := by
  obtain ⟨n, hn⟩ := leads_read r request
  have hdone := (h.enter request).iterate n
  rw [hn] at hdone
  exact ⟨hdone.reader, hdone.capacity_eq, hdone.stage⟩

theorem Idle.after (h : r.Idle capacity) (requests : List Request) :
    (r.after requests).Idle capacity := by
  induction requests generalizing r with
  | nil => exact h
  | cons request requests ih => exact ih (h.read request)

/-! ## Every point is in bounds -/

/-- What holds at every point of a read. -/
structure Point.InBounds (capacity : Nat) (p : Point) : Prop where
  start_le : p.reader.start ≤ p.reader.cursor
  cursor_le : p.reader.cursor ≤ p.reader.stop
  stop_le : p.reader.stop ≤ p.reader.start + capacity
  capacity_eq : p.reader.capacity = capacity
  /-- A read that is done has committed or rewound. -/
  settled : ∀ answer, p.stage = .done answer → p.reader.cursor = p.reader.start
  /-- The source is given the cells that the next bytes go to, and they are free. -/
  given : ∀ site span, p.stage = .fill site span → span = p.reader.room ∧ span.IsFree p.reader
  /-- Where the cursor has passed nothing, looking does not find the ring full. -/
  not_full : p.reader.cursor = p.reader.start → p.reader.peek.1 ≠ .full
  /-- The ring is found full only in search of the end of a token. -/
  full_in_token : ∀ site, p.stage = .found site .full → ∃ request seen, site = .token request seen

theorem Point.Sound.inBounds {p : Point} (h : p.Sound capacity) : p.InBounds capacity := by
  obtain ⟨stage, r⟩ := p
  obtain ⟨hr, rfl, hstage⟩ := h
  refine ⟨hr.start_le, hr.cursor_le, hr.stop_le, rfl, ?_, ?_, peek_ne_full hr, ?_⟩
  · rintro answer rfl
    exact hstage
  · rintro site span rfl
    obtain ⟨-, -, hfree, hspan⟩ := hstage
    refine ⟨hspan, ?_⟩
    rw [hspan]
    exact isFree_room hr hfree
  · rintro site rfl
    obtain ⟨hsite, -, hfull⟩ := hstage
    cases site with
    | blanks request => exact absurd hsite (hfull rfl)
    | token request seen => exact ⟨request, seen, rfl⟩
    | character => exact absurd hsite (hfull rfl)

/-- **A reader stays in bounds.** After any sequence of reads the cursor is at the start, and the
steps of the next read lead to its answer. At every point on the way the positions are in order and
at most the capacity apart, the source is given free cells, and the ring is found full only in search
of the end of a token: not among the blanks in front of it, nor for a character. -/
theorem reads_stay_in_bounds (source : Source) (capacity : Nat) (requests : List Request)
    (request : Request) :
    let r := (ofSource source capacity).after requests
    r.cursor = r.start ∧
      (∃ n, next^[n] (r.enter request) = ⟨.done (r.read request).1, (r.read request).2⟩) ∧
      ∀ n, (next^[n] (r.enter request)).InBounds (max capacity 2) := by
  have hidle := (idle_ofSource source capacity).after requests
  exact ⟨hidle.settled, leads_read _ request, fun n => ((hidle.enter request).iterate n).inBounds⟩

/-- A ring of four cells with an unread byte in the last one. The source is given the cells in front
of it, and once more after it was interrupted. -/
example :
    let source : Source := [.bytes [49, 50, 32, 51], .interruption, .bytes [52, 53, 32]]
    let p := ((ofSource source 4).after [.integer]).enter .integer
    (next^[8] p).stage = .fill (.token .integer [51]) ⟨0, 3⟩ ∧
      (next^[9] p).stage = .fill (.token .integer [51]) ⟨0, 3⟩ := by
  decide +kernel

end Reader

end ArrayMachine
