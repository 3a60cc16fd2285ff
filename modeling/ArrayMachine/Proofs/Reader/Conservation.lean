import ArrayMachine.Proofs.Reader.Flat

/-!
# Reading conserves the input

Whatever the script does, reads that fail and empty chunks included, the bytes taken off it are
those that were read for good, then those that wait in the ring, then the stashed one. This holds
after any sequence of reads and wherever the next one stands: a read is made of a few acts
(`Reader.Act`), all of which keep the row of bytes (`Act.keeps`), and only a commit gives bytes
away, those in front of the cursor.

What is given away is accounted for (`Reader.Consumes`): by a read that succeeds, the blanks skipped
and the token read, or the one character; by any other read, nothing but blanks.

* `course_read`: one read, its acts and what it consumes.
* `reads_conserve`: any sequence of reads.
-/

namespace ArrayMachine

/-! ## What a request asks for -/

namespace Request

/-- The value of a token. No token is read as a character. -/
def parse : Request → List UInt8 → Option Element
  | integer, token => (Token.integer? token).map .integer
  | boolean, token => (Token.boolean? token).map .boolean
  | real, token => (Token.real? token).map .real
  | character, _ => none

/-- The answer of a read that does not succeed. -/
def fallback : Request → Element
  | integer => .integer 0
  | boolean => .boolean false
  | real => .real (Single.zero false)
  | character => .character 0

end Request

namespace Reader

variable {r s t : Reader} {xs ys : List UInt8} {request : Request}

/-! ## Acts -/

/-- The bytes that the cursor has passed and that are not read for good. -/
def passed (r : Reader) : List UInt8 := (r.window r.start).take (r.cursor - r.start)

/-- What a reader does on the way through a read, and the bytes it gives away. -/
inductive Act : Reader → List UInt8 → Reader → Prop where
  | peek (r : Reader) : Act r [] r.peek.2
  | peekBeyond (r : Reader) : Act r [] r.peekBeyond.2
  /-- The cursor passes a byte that is in the ring. -/
  | advance {r : Reader} : r.cursor < r.stop → Act r [] r.advance
  | commit (r : Reader) : Act r r.passed r.commit
  | rewind (r : Reader) : Act r [] r.rewind
  | report (r : Reader) (state : StreamState) : Act r [] { r with state }

/-- Acts one after the other, and all the bytes they give away. -/
inductive Course : Reader → List UInt8 → Reader → Prop where
  | refl (r : Reader) : Course r [] r
  | cons {r s t : Reader} {xs ys : List UInt8} :
    Act r xs s → Course s ys t → Course r (xs ++ ys) t

theorem Act.course (h : Act r xs s) : Course r xs s := by
  have hcourse := Course.cons h (.refl s)
  rwa [List.append_nil] at hcourse

theorem Course.trans (h : Course r xs s) (h' : Course s ys t) : Course r (xs ++ ys) t := by
  induction h with
  | refl r => exact h'
  | cons hact _ ih =>
    rw [List.append_assoc]
    exact .cons hact (ih h')

theorem drop_window (n k : Nat) : (r.window n).drop k = r.window (n + k) := by
  refine List.ext_getElem ?_ fun i _ _ => ?_
  · rw [List.length_drop, length_window, length_window, Nat.sub_sub]
  · rw [List.getElem_drop, getElem_window, getElem_window, Nat.add_assoc]

/-- The bytes in the ring are those that the cursor has passed and those ahead of it. -/
theorem window_start (h : r.Sound) : r.window r.start = r.passed ++ r.window r.cursor := by
  have hdrop := drop_window (r := r) r.start (r.cursor - r.start)
  rw [Nat.add_sub_of_le h.start_le] at hdrop
  rw [passed, ← hdrop, List.take_append_drop]

/-- **An act keeps the row of bytes**, except for those it gives away. -/
theorem Act.keeps (h : Act r xs s) (hr : r.Sound) :
    s.Sound ∧ r.onward r.start = xs ++ s.onward s.start := by
  cases h with
  | peek =>
    have hs := extends_peek hr rfl
    exact ⟨hs.sound, (hs.onward_start hr).symm⟩
  | peekBeyond =>
    have hs := extends_peekBeyond hr rfl
    exact ⟨hs.sound, (hs.onward_start hr).symm⟩
  | advance hlt => exact ⟨hr.advance hlt, rfl⟩
  | commit =>
    refine ⟨hr.commit, ?_⟩
    unfold onward
    rw [window_start hr, List.append_assoc]
    rfl
  | rewind => exact ⟨hr.rewind, rfl⟩
  | report state => exact ⟨⟨hr.start_le, hr.cursor_le, hr.stop_le, hr.capacity_pos⟩, rfl⟩

theorem Course.keeps (h : Course r xs s) (hr : r.Sound) :
    s.Sound ∧ r.onward r.start = xs ++ s.onward s.start := by
  induction h with
  | refl r => exact ⟨hr, rfl⟩
  | cons hact _ ih =>
    obtain ⟨hs, hrow⟩ := hact.keeps hr
    obtain ⟨ht, hrest⟩ := ih hs
    exact ⟨ht, by rw [hrow, hrest, List.append_assoc]⟩

/-- The row at both ends says which bytes were given away. -/
theorem Course.of_onward {bytes : List UInt8} (h : Course r xs s) (hr : r.Sound)
    (hrow : r.onward r.start = bytes ++ s.onward s.start) : Course r bytes s := by
  have hsame := (h.keeps hr).2.symm.trans hrow
  rwa [List.append_cancel_right hsame] at h

/-! ## The acts of a read -/

theorem course_peek {p : Peek} (hp : r.peek = (p, s)) : Course r [] s := by
  obtain rfl : r.peek.2 = s := congrArg Prod.snd hp
  exact (Act.peek r).course

theorem course_peekBeyond {p : Peek} (hp : r.peekBeyond = (p, s)) : Course r [] s := by
  obtain rfl : r.peekBeyond.2 = s := congrArg Prod.snd hp
  exact (Act.peekBeyond r).course

/-- The cursor passes the byte just seen. -/
theorem course_advance (h : r.Sound) {byte : UInt8} (hp : r.peek = (.byte byte, s)) :
    Course r [] s.advance :=
  (course_peek hp).trans (Act.advance (peek_byte h hp).1).course

theorem course_skipBlanks (h : r.Sound) {o : Option Scan} (hs : r.skipBlanks = (o, s)) :
    ∃ bytes, Course r bytes s := by
  fun_induction skipBlanks r with
  | case1 r byte t hp hb ih =>
    have hadvance := course_advance h hp
    have ht := (hadvance.keeps h).1
    obtain ⟨bytes, hcourse⟩ := ih ht.commit hs
    exact ⟨_, hadvance.trans (.cons (.commit _) hcourse)⟩
  | case2 r byte t hp hb =>
    obtain ⟨-, rfl⟩ := Prod.mk.inj hs
    exact ⟨[], course_peek hp⟩
  | case3 r t hp =>
    obtain ⟨-, rfl⟩ := Prod.mk.inj hs
    exact ⟨[], course_peek hp⟩
  | case4 r t hp =>
    obtain ⟨-, rfl⟩ := Prod.mk.inj hs
    exact ⟨[], course_peek hp⟩
  | case5 r t hp =>
    obtain ⟨-, rfl⟩ := Prod.mk.inj hs
    exact ⟨[], course_peek hp⟩

theorem course_endOfFull {scan : Scan} (hs : r.endOfFull = (scan, s)) : Course r [] s := by
  unfold endOfFull at hs
  split at hs
  all_goals
    rename_i hp
    obtain ⟨-, rfl⟩ := Prod.mk.inj hs
    exact course_peekBeyond hp

theorem course_takeToken (h : r.Sound) {scan : Scan} (hs : r.takeToken = (scan, s)) :
    Course r [] s := by
  fun_induction takeToken r generalizing scan s with
  | case1 r byte t hp hb =>
    obtain ⟨-, rfl⟩ := Prod.mk.inj hs
    exact course_peek hp
  | case2 r byte t hp hb more u hmore ih =>
    obtain ⟨-, rfl⟩ := Prod.mk.inj hs
    have hadvance := course_advance h hp
    exact hadvance.trans (ih (hadvance.keeps h).1 hmore)
  | case3 r t hp =>
    obtain ⟨-, rfl⟩ := Prod.mk.inj hs
    exact course_peek hp
  | case4 r t hp => exact (course_peek hp).trans (course_endOfFull hs)
  | case5 r t hp =>
    obtain ⟨-, rfl⟩ := Prod.mk.inj hs
    exact course_peek hp

/-- A read that succeeds gives away what the cursor has passed, any other read nothing. -/
theorem course_finish (r : Reader) (state : StreamState) :
    ∃ bytes, Course r bytes (r.finish state) := by
  unfold finish
  split
  · exact ⟨_, .cons (.commit r) (Act.report r.commit state).course⟩
  · exact ⟨_, .cons (.rewind r) (Act.report r.rewind state).course⟩

theorem course_nextToken (h : r.Sound) {scan : Scan} (hs : r.nextToken = (scan, s)) :
    ∃ bytes, Course r bytes s := by
  unfold nextToken at hs
  split at hs
  · rename_i o t hskip
    obtain ⟨-, rfl⟩ := Prod.mk.inj hs
    exact course_skipBlanks h hskip
  · rename_i t hskip
    obtain ⟨bytes, hcourse⟩ := course_skipBlanks h hskip
    exact ⟨_, hcourse.trans (course_takeToken (hcourse.keeps h).1 hs)⟩

theorem course_readToken {α : Type} (h : r.Sound) (parse : List UInt8 → Option α) (fallback : α) :
    ∃ bytes, Course r bytes (r.readToken parse fallback).2 := by
  obtain ⟨scan, s, hn⟩ : ∃ scan s, r.nextToken = (scan, s) := ⟨_, _, rfl⟩
  obtain ⟨bytes, hcourse⟩ := course_nextToken h hn
  have hfinish (state : StreamState) : ∃ bytes, Course r bytes (s.finish state) := by
    obtain ⟨rest, hrest⟩ := course_finish s state
    exact ⟨_, hcourse.trans hrest⟩
  unfold readToken
  rw [hn]
  cases scan with
  | token token =>
    dsimp only
    cases parse token with
    | some value => exact hfinish .success
    | none => exact hfinish .readError
  | endOfInput => exact hfinish .endOfInput
  | overflow => exact hfinish .readError
  | failed => exact hfinish .readError

theorem course_readCharacter (h : r.Sound) : ∃ bytes, Course r bytes r.readCharacter.2 := by
  obtain ⟨p, s, hp⟩ : ∃ p s, r.peek = (p, s) := ⟨_, _, rfl⟩
  have hpeek := course_peek hp
  unfold readCharacter
  rw [hp]
  cases p with
  | byte byte =>
    obtain ⟨bytes, hfinish⟩ := course_finish s.advance .success
    exact ⟨_, (course_advance h hp).trans hfinish⟩
  | endOfInput =>
    obtain ⟨bytes, hfinish⟩ := course_finish s .endOfInput
    exact ⟨_, hpeek.trans hfinish⟩
  | full =>
    obtain ⟨bytes, hfinish⟩ := course_finish s .readError
    exact ⟨_, hpeek.trans hfinish⟩
  | failed =>
    obtain ⟨bytes, hfinish⟩ := course_finish s .readError
    exact ⟨_, hpeek.trans hfinish⟩

/-! ## What a read consumes -/

/-- What a read consumes that gives an answer and reports a state. -/
inductive Consumes : Request → Element × StreamState → List UInt8 → Prop where
  /-- The blanks skipped, and the token behind them. -/
  | token {request : Request} {blanks token : List UInt8} {value : Element} :
    (∀ b ∈ blanks, Ascii.isBlank b = true) → (∀ b ∈ token, Ascii.isBlank b = false) →
    request.parse token = some value → Consumes request (value, .success) (blanks ++ token)
  | character (byte : UInt8) : Consumes .character (.character byte, .success) [byte]
  /-- Blanks, and nothing at all in search of a character. -/
  | refused {request : Request} {state : StreamState} {blanks : List UInt8} :
    state ≠ .success → (∀ b ∈ blanks, Ascii.isBlank b = true) →
    (request = .character → blanks = []) → Consumes request (request.fallback, state) blanks

/-- `r` has looked for a token, found `scan`, and become `s`. -/
structure Found (r : Reader) (scan : Scan) (s : Reader) : Prop where
  dropped : ∃ blanks, (∀ b ∈ blanks, Ascii.isBlank b = true) ∧
    r.onward r.start = blanks ++ s.onward s.start
  token : ∀ token, scan = .token token →
    (∀ b ∈ token, Ascii.isBlank b = false) ∧ s.onward s.start = token ++ s.onward s.cursor

/-- **Looking for a token**, on any script, drops blanks and leaves the cursor behind the token. -/
theorem found_nextToken (h : r.Sound) (hc : r.cursor = r.start) {scan : Scan}
    (hn : r.nextToken = (scan, s)) : Found r scan s := by
  unfold nextToken at hn
  split at hn
  · rename_i o t hskips
    obtain ⟨rfl, rfl⟩ := Prod.mk.inj hn
    have hskip := skipped_skipBlanks h hc hskips
    refine ⟨hskip.dropped, ?_⟩
    rintro token rfl
    have hobstacle := hskip.obstacle
    simp at hobstacle
  · rename_i t hskips
    have hskip := skipped_skipBlanks h hc hskips
    have htake := taken_takeToken hskip.sound hn
    refine ⟨htake.onward_eq ▸ hskip.dropped, fun token htoken => ?_⟩
    obtain ⟨-, hin, hrow⟩ := htake.token token htoken
    rw [hskip.cursor_eq] at hrow
    exact ⟨hin, htake.onward_eq.trans hrow⟩

theorem cursor_finish (r : Reader) (state : StreamState) :
    (r.finish state).cursor = (r.finish state).start := by
  unfold finish
  split <;> rfl

theorem onward_finish_success (r : Reader) :
    (r.finish .success).onward (r.finish .success).start = r.onward r.cursor := rfl

theorem onward_finish_other {state : StreamState} (hstate : state ≠ .success) (r : Reader) :
    (r.finish state).onward (r.finish state).start = r.onward r.start := by
  unfold finish
  rw [if_neg hstate]
  rfl

/-- A read that answered, and the bytes it consumed off the row. -/
structure Accounted (r : Reader) (request : Request) (answer : Element × Reader)
    (bytes : List UInt8) : Prop where
  consumes : Consumes request (answer.1, answer.2.state) bytes
  onward_eq : r.onward r.start = bytes ++ answer.2.onward answer.2.start
  settled : answer.2.cursor = answer.2.start

theorem exists_accounted_readToken (h : r.Sound) (hc : r.cursor = r.start)
    (hrequest : request ≠ .character) :
    ∃ bytes, Accounted r request (r.readToken request.parse request.fallback) bytes := by
  obtain ⟨scan, s, hn⟩ : ∃ scan s, r.nextToken = (scan, s) := ⟨_, _, rfl⟩
  have hfound := found_nextToken h hc hn
  obtain ⟨blanks, hblanks, hrow⟩ := hfound.dropped
  have hrefused (state : StreamState) (hstate : state ≠ .success) :
      ∃ bytes, Accounted r request (request.fallback, s.finish state) bytes := by
    refine ⟨blanks, .refused hstate hblanks fun he => absurd he hrequest, ?_, cursor_finish s state⟩
    rw [onward_finish_other hstate, hrow]
  unfold readToken
  rw [hn]
  cases scan with
  | token token =>
    obtain ⟨hin, hsplit⟩ := hfound.token token rfl
    dsimp only
    cases hvalue : request.parse token with
    | some value =>
      refine ⟨blanks ++ token, .token hblanks hin hvalue, ?_, cursor_finish s .success⟩
      rw [onward_finish_success, hrow, hsplit, List.append_assoc]
    | none => exact hrefused .readError (by decide)
  | endOfInput => exact hrefused .endOfInput (by decide)
  | overflow => exact hrefused .readError (by decide)
  | failed => exact hrefused .readError (by decide)

theorem exists_accounted_readCharacter (h : r.Sound) (hc : r.cursor = r.start) :
    ∃ bytes, Accounted r .character (r.read .character) bytes := by
  obtain ⟨p, s, hp⟩ : ∃ p s, r.peek = (p, s) := ⟨_, _, rfl⟩
  have hs := extends_peek h hp
  have hrefused (state : StreamState) (hstate : state ≠ .success) :
      ∃ bytes, Accounted r .character (.character 0, s.finish state) bytes := by
    refine ⟨[], .refused hstate nofun fun _ => rfl, ?_, cursor_finish s state⟩
    rw [onward_finish_other hstate, hs.onward_start h]
    rfl
  unfold read readCharacter
  rw [hp]
  cases p with
  | byte byte =>
    refine ⟨[byte], .character byte, ?_, cursor_finish s.advance .success⟩
    rw [← hc]
    exact onward_of_peek_byte h hp
  | endOfInput => exact hrefused .endOfInput (by decide)
  | full => exact hrefused .readError (by decide)
  | failed => exact hrefused .readError (by decide)

/-- What is made of the value of a token can be made of it as it is parsed. -/
theorem readToken_map {α β : Type} (f : α → β) (parse : List UInt8 → Option α) (fallback : α)
    (r : Reader) :
    r.readToken (fun token => (parse token).map f) (f fallback) =
      (f (r.readToken parse fallback).1, (r.readToken parse fallback).2) := by
  obtain ⟨scan, s, hn⟩ : ∃ scan s, r.nextToken = (scan, s) := ⟨_, _, rfl⟩
  unfold readToken
  rw [hn]
  cases scan with
  | token token =>
    dsimp only
    cases parse token <;> rfl
  | _ => rfl

/-- Every read but that of a character is one of a token. -/
theorem read_eq_readToken (hrequest : request ≠ .character) (r : Reader) :
    r.read request = r.readToken request.parse request.fallback := by
  cases request with
  | integer => exact (readToken_map Element.integer Token.integer? 0 r).symm
  | boolean => exact (readToken_map Element.boolean Token.boolean? false r).symm
  | real => exact (readToken_map Element.real Token.real? (Single.zero false) r).symm
  | character => exact absurd rfl hrequest

/-- **One read** is a course of acts, and the bytes it gives away are those it may consume. -/
theorem course_read (h : r.Sound) (hc : r.cursor = r.start) (request : Request) :
    ∃ bytes, Course r bytes (r.read request).2 ∧ Accounted r request (r.read request) bytes := by
  have hread : (∃ bytes, Course r bytes (r.read request).2) ∧
      ∃ bytes, Accounted r request (r.read request) bytes := by
    by_cases hrequest : request = .character
    · subst hrequest
      exact ⟨course_readCharacter h, exists_accounted_readCharacter h hc⟩
    · rw [read_eq_readToken hrequest]
      exact ⟨course_readToken h _ _, exists_accounted_readToken h hc hrequest⟩
  obtain ⟨⟨_, hcourse⟩, bytes, haccounted⟩ := hread
  exact ⟨bytes, hcourse.of_onward h haccounted.onward_eq, haccounted⟩

/-! ## Any sequence of reads -/

/-- The reader after a sequence of reads. -/
def after (r : Reader) (requests : List Request) : Reader :=
  requests.foldl (fun r request => (r.read request).2) r

/-- Each read of a sequence consumes its portion. -/
theorem course_after (h : r.Sound) (hc : r.cursor = r.start) (requests : List Request) :
    ∃ portions, List.Forall₂ (fun read bytes => Consumes read.1 read.2 bytes)
        (requests.zip (r.reads requests)) portions ∧
      Course r portions.flatten (r.after requests) := by
  induction requests generalizing r with
  | nil => exact ⟨[], .nil, .refl r⟩
  | cons request requests ih =>
    obtain ⟨bytes, hcourse, haccounted⟩ := course_read h hc request
    obtain ⟨portions, hportions, hrest⟩ := ih (hcourse.keeps h).1 haccounted.settled
    exact ⟨bytes :: portions, .cons haccounted.consumes hportions, hcourse.trans hrest⟩

/-- **No byte is lost, doubled or moved.** Wherever a reader stands, after a sequence of reads or on
the way through the next one, the bytes taken off the script are the portions that the reads have
consumed and the bytes that the next one has given away so far, in this order, then the bytes in the
ring, and then the stashed one. -/
theorem reads_conserve (source : Source) (capacity : Nat) (requests : List Request) :
    ∃ portions, List.Forall₂ (fun read bytes => Consumes read.1 read.2 bytes)
        (requests.zip ((ofSource source capacity).reads requests)) portions ∧
      Course (ofSource source capacity) portions.flatten
        ((ofSource source capacity).after requests) ∧
      ∀ bytes point, Course ((ofSource source capacity).after requests) bytes point →
        ∃ taken, source.contents = taken ++ point.source.contents ∧
          taken = portions.flatten ++ bytes ++ (point.window point.start ++ point.stash.toList) := by
  have hsound := sound_ofSource source capacity
  obtain ⟨portions, hportions, hcourse⟩ := course_after hsound rfl requests
  refine ⟨portions, hportions, hcourse, fun bytes point hpoint => ⟨_, ?_, rfl⟩⟩
  have hrow := ((hcourse.trans hpoint).keeps hsound).2
  calc source.contents
      = portions.flatten ++ bytes ++ point.onward point.start := hrow
    _ = _ := by simp [onward]

/-- A ring of two cells. The source fails behind a token that fills it, and when it is tried again
the token goes on. Two reads are refused, which leaves the token in the ring and a byte of it in the
stash. -/
theorem reads_conserve_failing :
    let source : Source := [.bytes [32, 49, 50], .failure, .bytes [51, 52, 32]]
    (ofSource source 2).reads [.integer, .integer] =
        [(.integer 0, .readError), (.integer 0, .readError)] ∧
      ∃ portions taken, source.contents = taken ++ [52, 32] ∧
        taken = List.flatten portions ++ [] ++ ([49, 50] ++ [51]) := by
  obtain ⟨r, hr⟩ : ∃ r, r = (ofSource [.bytes [32, 49, 50], .failure, .bytes [51, 52, 32]] 2).after
    [.integer, .integer] := ⟨_, rfl⟩
  have hkept : r.window r.start ++ r.stash.toList = [49, 50] ++ [51] := by
    rw [hr]
    decide +kernel
  have hleft : r.source.contents = [52, 32] := by
    rw [hr]
    decide +kernel
  obtain ⟨portions, -, -, hpoints⟩ := reads_conserve
    [.bytes [32, 49, 50], .failure, .bytes [51, 52, 32]] 2 [.integer, .integer]
  obtain ⟨taken, hsource, htaken⟩ := hpoints [] r (hr ▸ .refl r)
  rw [hleft] at hsource
  rw [hkept] at htaken
  exact ⟨by decide +kernel, portions, taken, hsource, htaken⟩

end Reader

end ArrayMachine
