import ArrayMachine.Element
import ArrayMachine.Proofs.Reader.Scan

/-!
# Reading through the ring is reading the flat bytes

A flat reader has no ring, no stash and no script: only the bytes not read yet, in a list, and the
length of the longest token it takes. `Reader.reads_flat` says that a reader answers as the flat one
does whatever the sequence of reads, so its answers do not depend on how the script cuts the bytes,
on where the ring wraps, or on the byte looked at beyond it.

* `next_nextToken`: looking for a token finds the run of bytes behind the blanks, if the ring can
  hold it.
* `read_readToken`, `read_readCharacter`: one read answers as the flat one and leaves the same row.
* `reads_flat`: so does any sequence of reads.
-/

namespace ArrayMachine

/-- A scalar to read. -/
inductive Request where
  | integer | boolean | real | character
deriving DecidableEq

/-! ## The flat reader -/

namespace Flat

/-- The byte is part of a token. -/
def inToken (byte : UInt8) : Bool := !Ascii.isBlank byte

/-- The value of the token in front, how the read went, and the bytes left. Blanks in front are gone
for good; a token that is not read stays. -/
def readToken {α : Type} (limit : Nat) (parse : List UInt8 → Option α) (fallback : α)
    (bytes : List UInt8) : (α × StreamState) × List UInt8 :=
  let ahead := bytes.dropWhile Ascii.isBlank
  let token := ahead.takeWhile inToken
  if ahead = [] then ((fallback, .endOfInput), [])
  else if limit < token.length then ((fallback, .readError), ahead)
  else match parse token with
    | some value => ((value, .success), ahead.drop token.length)
    | none => ((fallback, .readError), ahead)

/-- The byte in front. -/
def readCharacter : List UInt8 → (UInt8 × StreamState) × List UInt8
  | byte :: rest => ((byte, .success), rest)
  | [] => ((0, .endOfInput), [])

/-- One read. -/
def read (limit : Nat) (bytes : List UInt8) : Request → (Element × StreamState) × List UInt8
  | .integer =>
    let ((n, state), rest) := readToken limit Token.integer? 0 bytes
    ((.integer n, state), rest)
  | .boolean =>
    let ((b, state), rest) := readToken limit Token.boolean? false bytes
    ((.boolean b, state), rest)
  | .real =>
    let ((x, state), rest) := readToken limit Token.real? (Single.zero false) bytes
    ((.real x, state), rest)
  | .character =>
    let ((c, state), rest) := readCharacter bytes
    ((.character c, state), rest)

/-- The answers to a sequence of reads. -/
def reads (limit : Nat) (bytes : List UInt8) : List Request → List (Element × StreamState)
  | [] => []
  | request :: requests =>
    let (answer, rest) := read limit bytes request
    answer :: reads limit rest requests

end Flat

namespace Reader

/-- One read. -/
def read (r : Reader) : Request → Element × Reader
  | .integer => let (n, s) := r.readInteger; (.integer n, s)
  | .boolean => let (b, s) := r.readBoolean; (.boolean b, s)
  | .real => let (x, s) := r.readReal; (.real x, s)
  | .character => let (c, s) := r.readCharacter; (.character c, s)

/-- The answers to a sequence of reads, each with how the read went. -/
def reads (r : Reader) : List Request → List (Element × StreamState)
  | [] => []
  | request :: requests =>
    let (answer, s) := r.read request
    (answer, s.state) :: s.reads requests

variable {r s : Reader}

/-! ## The token ahead -/

/-- The reader is between two reads of a steady script. -/
structure Ready (r : Reader) : Prop where
  sound : r.Sound
  settled : r.cursor = r.start
  steady : r.Steady

/-- `r` has looked for a token, found `scan`, and become `s`. -/
structure Next (r : Reader) (scan : Scan) (s : Reader) : Prop where
  sound : s.Sound
  capacity_eq : s.capacity = r.capacity
  steady : s.Steady
  onward_eq : s.onward s.start = (r.onward r.start).dropWhile Ascii.isBlank
  token : ∀ t, scan = .token t → s.onward s.start ≠ [] ∧
    t = (s.onward s.start).takeWhile Flat.inToken ∧ t.length ≤ r.capacity ∧
    s.onward s.cursor = (s.onward s.start).drop t.length
  ended : scan = .endOfInput → s.onward s.start = []
  overflow : scan = .overflow → s.onward s.start ≠ [] ∧
    r.capacity < ((s.onward s.start).takeWhile Flat.inToken).length
  ok : scan ≠ .failed

/-- A row of bytes of one sort ends where another byte or nothing follows. -/
theorem dropWhile_run {p : UInt8 → Bool} {run rest : List UInt8} (hrun : ∀ b ∈ run, p b = true)
    (hrest : ∀ b, rest.head? = some b → p b = false) : (run ++ rest).dropWhile p = rest := by
  rw [List.dropWhile_append_of_pos hrun]
  cases rest with
  | nil => rfl
  | cons b more => rw [List.dropWhile_cons_of_neg (by rw [hrest b rfl]; decide)]

theorem takeWhile_run {p : UInt8 → Bool} {run rest : List UInt8} (hrun : ∀ b ∈ run, p b = true)
    (hrest : ∀ b, rest.head? = some b → p b = false) : (run ++ rest).takeWhile p = run := by
  rw [List.takeWhile_append_of_pos hrun]
  cases rest with
  | nil => exact List.append_nil run
  | cons b more => rw [List.takeWhile_cons_of_neg (by rw [hrest b rfl]; decide), List.append_nil]

/-- On a steady script, what stops the blanks before a byte is the end of the input. -/
theorem next_of_obstacle (h : r.Ready) {o : Scan} (hskip : Skipped r (some o) s) : Next r o s := by
  obtain ⟨hsteady, hok, hend⟩ := hskip.steady h.steady
  obtain ⟨blanks, hblanks, hdrop⟩ := hskip.dropped
  obtain rfl : o = .endOfInput := by
    rcases hskip.obstacle with ho | ho | ho
    · cases ho
    · exact Option.some.inj ho
    · exact absurd ho hok
  have hnil := hend rfl
  refine ⟨hskip.sound, hskip.capacity_eq, hsteady, ?_, by simp, fun _ => hnil, by simp, by simp⟩
  rw [hdrop, dropWhile_run hblanks (by simp [hnil])]

/-- A token taken behind the blanks is the run of bytes there, or is longer than the ring. -/
theorem next_of_taken (h : r.Ready) {t : Reader} {scan : Scan} (hskip : Skipped r none t)
    (htake : Taken t scan s) : Next r scan s := by
  obtain ⟨hsteady, -, -⟩ := hskip.steady h.steady
  obtain ⟨blanks, hblanks, hdrop⟩ := hskip.dropped
  obtain ⟨byte, more, hrow, hbyte⟩ := hskip.ahead rfl
  obtain ⟨hsteady', hok, hstop⟩ := htake.steady hsteady
  have hcap := hskip.capacity_eq
  have hpos := hskip.cursor_eq
  have hcursor : t.onward t.cursor = s.onward s.start := by
    rw [htake.onward_eq, hpos]
  have hne : s.onward s.start ≠ [] := by
    rw [htake.onward_eq, hrow]
    simp
  refine ⟨htake.sound, htake.capacity_eq.trans hcap, hsteady', ?_, ?_,
    fun he => absurd he htake.found, ?_, hok⟩
  · rw [htake.onward_eq, hdrop, dropWhile_run hblanks]
    rw [hrow]
    rintro b ⟨rfl⟩
    exact hbyte
  · intro token htoken
    obtain ⟨hlen, hin, hsplit⟩ := htake.token token htoken
    rw [hcursor] at hsplit
    refine ⟨hne, ?_, ?_, ?_⟩
    · rw [hsplit, takeWhile_run (by simpa [Flat.inToken] using hin)]
      intro b hb
      rw [Flat.inToken, hstop token htoken b hb]
      rfl
    · -- the cursor stays within a ring's length of the start
      have hcapacity := htake.capacity_eq
      have h1 := htake.sound.cursor_le
      have h2 := htake.sound.stop_le
      have h3 := htake.start_eq
      omega
    · rw [hsplit, List.drop_left]
  · intro ho
    obtain ⟨token, rest, hsplit, hin, hlong⟩ := htake.overflow ho
    refine ⟨hne, ?_⟩
    rw [← hcursor, hsplit, List.takeWhile_append_of_pos (by simpa [Flat.inToken] using hin),
      List.length_append]
    omega

/-- **Looking for a token** on a steady script finds the run of bytes behind the blanks, unless
there is none or it is longer than the ring. -/
theorem next_nextToken (h : r.Ready) {scan : Scan} (hn : r.nextToken = (scan, s)) :
    Next r scan s := by
  unfold nextToken at hn
  split at hn
  · rename_i o t hskips
    obtain ⟨rfl, rfl⟩ := Prod.mk.inj hn
    exact next_of_obstacle h (skipped_skipBlanks h.sound h.settled hskips)
  · rename_i t hskips
    have hskip := skipped_skipBlanks h.sound h.settled hskips
    exact next_of_taken h hskip (taken_takeToken hskip.sound hn)

/-! ## One read -/

/-- A read that answered as the flat one. -/
structure Read {α : Type} (r : Reader) (answer : α × Reader)
    (flat : (α × StreamState) × List UInt8) : Prop where
  ready : answer.2.Ready
  capacity_eq : answer.2.capacity = r.capacity
  value_eq : answer.1 = flat.1.1
  state_eq : answer.2.state = flat.1.2
  onward_eq : answer.2.onward answer.2.start = flat.2

/-- A read that succeeds leaves what is ahead of the cursor. -/
theorem ready_finish_success (hs : s.Sound) (h : s.Steady) : (s.finish .success).Ready := by
  have hc := hs.commit
  exact ⟨⟨hc.start_le, hc.cursor_le, hc.stop_le, hc.capacity_pos⟩, rfl, ⟨h.source, h.ended⟩⟩

/-- Any other read leaves what was ahead before, less the blanks. -/
theorem ready_finish_other (state : StreamState) (hne : state ≠ .success) (hs : s.Sound)
    (h : s.Steady) : (s.finish state).Ready ∧ (s.finish state).capacity = s.capacity ∧
      (s.finish state).state = state ∧
      (s.finish state).onward (s.finish state).start = s.onward s.start := by
  have hc := hs.rewind
  unfold finish
  rw [if_neg hne]
  exact ⟨⟨⟨hc.start_le, hc.cursor_le, hc.stop_le, hc.capacity_pos⟩, rfl, ⟨h.source, h.ended⟩⟩,
    rfl, rfl, rfl⟩

/-- **Reading a token** through the ring is reading it from the flat row. -/
theorem read_readToken {α : Type} (parse : List UInt8 → Option α) (fallback : α) (h : r.Ready) :
    Read r (r.readToken parse fallback)
      (Flat.readToken r.capacity parse fallback (r.onward r.start)) := by
  obtain ⟨scan, s, hn⟩ : ∃ scan s, r.nextToken = (scan, s) := ⟨_, _, rfl⟩
  have hnext := next_nextToken h hn
  have hcap := hnext.capacity_eq
  unfold readToken Flat.readToken
  rw [hn, ← hnext.onward_eq]
  cases scan with
  | token t =>
    obtain ⟨hne, ht, hlen, hrest⟩ := hnext.token t rfl
    dsimp only
    rw [if_neg hne, ← ht, if_neg (Nat.not_lt.mpr hlen)]
    cases parse t with
    | some value =>
      exact ⟨ready_finish_success hnext.sound hnext.steady, hcap, rfl, rfl, hrest⟩
    | none =>
      obtain ⟨h1, h2, h3, h4⟩ := ready_finish_other .readError (by simp) hnext.sound hnext.steady
      exact ⟨h1, h2.trans hcap, rfl, h3, h4⟩
  | endOfInput =>
    obtain ⟨h1, h2, h3, h4⟩ := ready_finish_other .endOfInput (by simp) hnext.sound hnext.steady
    rw [hnext.ended rfl] at h4
    dsimp only
    rw [if_pos (hnext.ended rfl)]
    exact ⟨h1, h2.trans hcap, rfl, h3, h4⟩
  | overflow =>
    obtain ⟨hne, hlong⟩ := hnext.overflow rfl
    obtain ⟨h1, h2, h3, h4⟩ := ready_finish_other .readError (by simp) hnext.sound hnext.steady
    dsimp only
    rw [if_neg hne, if_pos hlong]
    exact ⟨h1, h2.trans hcap, rfl, h3, h4⟩
  | failed => exact absurd rfl hnext.ok

/-- **Reading a raw byte** through the ring is taking the first of the flat row. -/
theorem read_readCharacter (h : r.Ready) :
    Read r r.readCharacter (Flat.readCharacter (r.onward r.start)) := by
  obtain ⟨p, s, hp⟩ : ∃ p s, r.peek = (p, s) := ⟨_, _, rfl⟩
  have hs := extends_peek h.sound hp
  have hcap := hs.capacity_eq
  obtain ⟨hsteady, hok, hnil⟩ := h.steady.peek h.sound hp
  unfold readCharacter
  rw [hp, ← h.settled]
  cases p with
  | byte byte =>
    obtain ⟨hlt, -⟩ := peek_byte h.sound hp
    rw [onward_of_peek_byte h.sound hp]
    have hready := ready_finish_success (hs.sound.advance hlt) ⟨hsteady.source, hsteady.ended⟩
    exact ⟨hready, hcap, rfl, rfl, rfl⟩
  | endOfInput =>
    obtain ⟨h1, h2, h3, h4⟩ := ready_finish_other .endOfInput (by simp) hs.sound hsteady
    rw [hs.onward_start h.sound, ← h.settled, hnil rfl] at h4
    rw [hnil rfl]
    exact ⟨h1, h2.trans hcap, rfl, h3, h4⟩
  | full => exact absurd (congrArg Prod.fst hp) (peek_ne_full h.sound h.settled)
  | failed => exact absurd rfl hok

/-- **One read** through the ring is one read of the flat row. -/
theorem read_read (h : r.Ready) (request : Request) :
    Read r (r.read request) (Flat.read r.capacity (r.onward r.start) request) := by
  cases request with
  | integer =>
    obtain ⟨h1, h2, h3, h4, h5⟩ := read_readToken Token.integer? 0 h
    exact ⟨h1, h2, congrArg Element.integer h3, h4, h5⟩
  | boolean =>
    obtain ⟨h1, h2, h3, h4, h5⟩ := read_readToken Token.boolean? false h
    exact ⟨h1, h2, congrArg Element.boolean h3, h4, h5⟩
  | real =>
    obtain ⟨h1, h2, h3, h4, h5⟩ := read_readToken Token.real? (Single.zero false) h
    exact ⟨h1, h2, congrArg Element.real h3, h4, h5⟩
  | character =>
    obtain ⟨h1, h2, h3, h4, h5⟩ := read_readCharacter h
    exact ⟨h1, h2, congrArg Element.character h3, h4, h5⟩

/-! ## Any sequence of reads -/

theorem capacity_ofSource (source : Source) (capacity : Nat) :
    (ofSource source capacity).capacity = max capacity 2 := by
  simp [Reader.capacity, ofSource]

theorem sound_ofSource (source : Source) (capacity : Nat) : (ofSource source capacity).Sound := by
  have hpos : 0 < (ofSource source capacity).capacity := by
    rw [capacity_ofSource]
    omega
  exact ⟨Nat.le_refl _, Nat.le_refl _, Nat.zero_le _, hpos⟩

/-- A reader at the beginning of a steady script is between two reads. -/
theorem ready_ofSource {source : Source} (h : source.Steady) (capacity : Nat) :
    (ofSource source capacity).Ready :=
  ⟨sound_ofSource source capacity, rfl, ⟨h, by simp [ofSource]⟩⟩

theorem reads_of_ready (h : r.Ready) (requests : List Request) :
    r.reads requests = Flat.reads r.capacity (r.onward r.start) requests := by
  induction requests generalizing r with
  | nil => rfl
  | cons request requests ih =>
    have hread := read_read h request
    unfold reads Flat.reads
    dsimp only
    rw [ih hread.ready, hread.capacity_eq, hread.onward_eq, hread.value_eq, hread.state_eq]

/-- **A reader answers as the flat one**, whatever is read in whatever order: the values and states
depend on the bytes of the script and the capacity alone. -/
theorem reads_flat {source : Source} (h : source.Steady) (capacity : Nat)
    (requests : List Request) :
    (ofSource source capacity).reads requests =
      Flat.reads (max capacity 2) source.contents requests := by
  have hrow : (ofSource source capacity).onward 0 = source.contents := rfl
  rw [← capacity_ofSource source, ← hrow]
  exact reads_of_ready (ready_ofSource h capacity) requests

/-- A ring of four cells: the second token fills it, and the third does not fit until its first
digit is taken as a character. -/
theorem reads_flat_four :
    Source.Steady [.bytes [49, 50, 32, 51], .interruption, .bytes [52, 53, 54, 32, 55, 56, 57],
      .bytes [48, 49, 10, 84]] ∧
    (ofSource [.bytes [49, 50, 32, 51], .interruption, .bytes [52, 53, 54, 32, 55, 56, 57],
      .bytes [48, 49, 10, 84]] 4).reads
        [.integer, .integer, .integer, .character, .integer, .boolean, .integer] =
      [(.integer 12, .success), (.integer 3456, .success), (.integer 0, .readError),
        (.character 55, .success), (.integer 8901, .success), (.boolean true, .success),
        (.integer 0, .endOfInput)] :=
  ⟨by decide, (reads_flat (by decide) 4 _).trans (by decide)⟩

end Reader

end ArrayMachine
