import ArrayMachine.Proofs.Reader.Conservation
import Mathlib.Logic.Function.Iterate

/-!
# The points of a read

A read moves the positions one at a time and asks the source for bytes, again and again while it is
interrupted. `Reader.next` goes through a read in these steps: a `Reader.Point` says how far it has
come (`Reader.Stage`) and what the reader is like there, and a step assigns one position at most. In
front of each try to read into the ring the point names the cells that the source is given
(`Reader.Span`), and it is these that the source writes to.

* `leads_tryRead`: however often a read from the source is interrupted, it ends as `Source.read`.
* `leads_look`, `leads_lookBeyond`: looking ahead finds what `Reader.peek` and `Reader.peekBeyond`
  say.
* `leads_read`: the steps of a read end, with the answer of `Reader.read` and the reader it leaves.
-/

namespace ArrayMachine

/-! ## Tries to read -/

namespace Source

variable {room : Nat} {source rest : Source} {d : Delivery}

/-- One try to read, and the script that is left. An interrupted one gives nothing. -/
def tryRead (room : Nat) : Source → Option Delivery × Source
  | .interruption :: rest => (none, rest)
  | source => (some (read room source).1, (read room source).2)

/-- A try that gives something is a read. -/
theorem read_of_tryRead (h : tryRead room source = (some d, rest)) :
    read room source = (d, rest) := by
  unfold tryRead at h
  split at h
  · simp at h
  · obtain ⟨hd, hrest⟩ := Prod.mk.inj h
    exact Prod.ext (Option.some.inj hd) hrest

end Source

namespace Reader

variable {r s : Reader}

/-! ## Points -/

/-- Consecutive cells of the ring, such as the source is given to write to. -/
structure Span where
  first : Nat
  length : Nat
deriving DecidableEq

/-- The cells that the next bytes go to. -/
def room (r : Reader) : Span := ⟨r.stop % r.capacity, r.contiguousRoom⟩

/-- Where a read looks for a byte. -/
inductive Site where
  /-- Among the blanks in front of a token. -/
  | blanks (request : Request)
  /-- Behind the bytes of a token that were seen. -/
  | token (request : Request) (seen : List UInt8)
  /-- At the one byte that is read raw. -/
  | character
deriving DecidableEq

/-- How far a read has come. -/
inductive Stage where
  /-- It is about to look at the byte at the cursor. -/
  | look (site : Site)
  /-- It is about to try to read from the source into cells of the ring. -/
  | fill (site : Site) (span : Span)
  /-- It has looked. -/
  | found (site : Site) (peek : Peek)
  /-- The cursor has passed a blank. -/
  | blank (request : Request)
  /-- It is about to look at the byte behind a full ring. -/
  | lookBeyond (request : Request) (seen : List UInt8)
  /-- It is about to try to read one byte into the stash. -/
  | stash (request : Request) (seen : List UInt8)
  /-- It has looked behind a full ring. -/
  | foundBeyond (request : Request) (seen : List UInt8) (peek : Peek)
  /-- It knows what stands where a token should be. -/
  | scanned (request : Request) (scan : Scan)
  /-- It knows the answer and how the read went. -/
  | answered (answer : Element) (state : StreamState)
  | done (answer : Element)
deriving DecidableEq

/-- A reader on the way through a read. -/
structure Point where
  stage : Stage
  reader : Reader

/-- Where a read begins. -/
def enter (r : Reader) : Request → Point
  | .character => ⟨.look .character, r⟩
  | request => ⟨.look (.blanks request), r⟩

/-! ## Steps -/

/-- One try to read. If it is interrupted there will be another. -/
def tryRead (r : Reader) (room : Nat) (again : Stage) (go : Reader → Delivery → Point) : Point :=
  match r.source.tryRead room with
  | (none, source) => ⟨again, { r with source }⟩
  | (some delivery, source) => go { r with source } delivery

/-- Looking at the byte at the cursor, as far as the source is not needed. -/
def stepLook (site : Site) (r : Reader) : Point :=
  if r.cursor < r.stop then ⟨.found site (.byte (r.cell r.cursor)), r⟩
  else if r.free = 0 then ⟨.found site .full, r⟩
  else match r.stash with
    | some byte =>
      let filled := { r with stash := none }.take [byte]
      ⟨.found site (.byte (filled.cell r.cursor)), filled⟩
    | none => if r.exhausted then ⟨.found site .endOfInput, r⟩ else ⟨.fill site r.room, r⟩

/-- What the source gives goes into the span. -/
def stepFill (site : Site) (span : Span) (r : Reader) : Delivery → Point
  | .bytes first more =>
    let filled :=
      { r with
        ring := writeCells r.ring span.first (first :: more)
        stop := r.stop + (first :: more).length }
    ⟨.found site (.byte (filled.cell r.cursor)), filled⟩
  | .endOfInput => ⟨.found site .endOfInput, { r with exhausted := true }⟩
  | .failure => ⟨.found site .failed, r⟩

/-- What is made of what was found at the cursor. -/
def stepFound (r : Reader) : Site → Peek → Point
  | .blanks request, .byte byte =>
    if Ascii.isBlank byte then ⟨.blank request, r.advance⟩ else ⟨.look (.token request []), r⟩
  | .blanks request, .endOfInput => ⟨.scanned request .endOfInput, r⟩
  | .blanks request, .full => ⟨.scanned request .overflow, r⟩
  | .blanks request, .failed => ⟨.scanned request .failed, r⟩
  | .token request seen, .byte byte =>
    if Ascii.isBlank byte then ⟨.scanned request (.token seen), r⟩
    else ⟨.look (.token request (seen ++ [byte])), r.advance⟩
  | .token request seen, .endOfInput => ⟨.scanned request (.token seen), r⟩
  | .token request seen, .full => ⟨.lookBeyond request seen, r⟩
  | .token request _, .failed => ⟨.scanned request .failed, r⟩
  | .character, .byte byte => ⟨.answered (.character byte) .success, r.advance⟩
  | .character, .endOfInput => ⟨.answered (.character 0) .endOfInput, r⟩
  | .character, .full => ⟨.answered (.character 0) .readError, r⟩
  | .character, .failed => ⟨.answered (.character 0) .readError, r⟩

/-- Looking at the byte behind a full ring, as far as the source is not needed. -/
def stepLookBeyond (request : Request) (seen : List UInt8) (r : Reader) : Point :=
  match r.stash with
  | some byte => ⟨.foundBeyond request seen (.byte byte), r⟩
  | none =>
    if r.exhausted then ⟨.foundBeyond request seen .endOfInput, r⟩ else ⟨.stash request seen, r⟩

/-- What the source gives goes into the stash. -/
def stepStash (request : Request) (seen : List UInt8) (r : Reader) : Delivery → Point
  | .bytes first _ => ⟨.foundBeyond request seen (.byte first), { r with stash := some first }⟩
  | .endOfInput => ⟨.foundBeyond request seen .endOfInput, { r with exhausted := true }⟩
  | .failure => ⟨.foundBeyond request seen .failed, r⟩

/-- What is found behind a full ring ends the token or makes it too long. -/
def scanBeyond (seen : List UInt8) : Peek → Scan
  | .byte byte => if Ascii.isBlank byte then .token seen else .overflow
  | .endOfInput => .token seen
  | .full => .overflow
  | .failed => .failed

/-- The answer to a request for a token, and how the read went. -/
def answerTo (request : Request) : Scan → Stage
  | .token token =>
    match request.parse token with
    | some value => .answered value .success
    | none => .answered request.fallback .readError
  | .endOfInput => .answered request.fallback .endOfInput
  | .overflow => .answered request.fallback .readError
  | .failed => .answered request.fallback .readError

/-- One step. A read that is done stays where it is. -/
def next : Point → Point
  | ⟨.look site, r⟩ => r.stepLook site
  | ⟨.fill site span, r⟩ => r.tryRead span.length (.fill site span) (stepFill site span)
  | ⟨.found site peek, r⟩ => r.stepFound site peek
  | ⟨.blank request, r⟩ => ⟨.look (.blanks request), r.commit⟩
  | ⟨.lookBeyond request seen, r⟩ => r.stepLookBeyond request seen
  | ⟨.stash request seen, r⟩ => r.tryRead 1 (.stash request seen) (stepStash request seen)
  | ⟨.foundBeyond request seen peek, r⟩ => ⟨.scanned request (scanBeyond seen peek), r⟩
  | ⟨.scanned request scan, r⟩ => ⟨answerTo request scan, r⟩
  | ⟨.answered answer state, r⟩ => ⟨.done answer, r.finish state⟩
  | ⟨.done answer, r⟩ => ⟨.done answer, r⟩

theorem next_fill (site : Site) (span : Span) (r : Reader) :
    next ⟨.fill site span, r⟩ = r.tryRead span.length (.fill site span) (stepFill site span) := rfl

theorem next_stash (request : Request) (seen : List UInt8) (r : Reader) :
    next ⟨.stash request seen, r⟩ =
      r.tryRead 1 (.stash request seen) (stepStash request seen) := rfl

/-! ## The steps of a read end with its answer -/

/-- Steps lead from the one point to the other. -/
def Leads (p q : Point) : Prop := ∃ n, next^[n] p = q

variable {p q : Point}

theorem Leads.refl (p : Point) : Leads p p := ⟨0, rfl⟩

theorem Leads.step (h : Leads (next p) q) : Leads p q := by
  obtain ⟨n, hn⟩ := h
  exact ⟨n + 1, hn⟩

theorem Leads.trans {t : Point} (h : Leads p q) (h' : Leads q t) : Leads p t := by
  obtain ⟨m, rfl⟩ := h
  obtain ⟨n, rfl⟩ := h'
  exact ⟨n + m, Function.iterate_add_apply next n m p⟩

/-- **Tries end with what one read gives**, after as many interruptions as the script has there. -/
theorem leads_tryRead {room : Nat} {again : Stage} {go : Reader → Delivery → Point}
    (hnext : ∀ r, next ⟨again, r⟩ = r.tryRead room again go) {d : Delivery} {rest : Source}
    (hread : r.source.read room = (d, rest)) :
    Leads ⟨again, r⟩ (go { r with source := rest } d) := by
  suffices h : ∀ source : Source, Leads ⟨again, { r with source }⟩
      (go { r with source := (source.read room).2 } (source.read room).1) by
    have hlast := h r.source
    rwa [hread] at hlast
  -- on the script: an interruption in front of it is one more step to the same point
  intro source
  induction source with
  | nil =>
    refine .step ?_
    rw [hnext]
    exact .refl _
  | cons chunk rest ih =>
    refine .step ?_
    rw [hnext]
    cases chunk with
    | bytes bytes => exact .refl _
    | interruption => exact ih
    | failure => exact .refl _

theorem leads_fill (site : Site) (hge : ¬ r.cursor < r.stop) {peek : Peek}
    (hp : r.fill = (peek, s)) : Leads ⟨.look site, r⟩ ⟨.found site peek, s⟩ := by
  unfold fill at hp
  split at hp
  · rename_i hfree
    obtain ⟨rfl, rfl⟩ := Prod.mk.inj hp
    refine .step ?_
    rw [next, stepLook, if_neg hge, if_pos hfree]
    exact .refl _
  · rename_i hfree
    split at hp
    · rename_i byte hstash
      obtain ⟨rfl, rfl⟩ := Prod.mk.inj hp
      refine .step ?_
      rw [next, stepLook, if_neg hge, if_neg hfree, hstash]
      exact .refl _
    · rename_i hstash
      split at hp
      · rename_i hend
        obtain ⟨rfl, rfl⟩ := Prod.mk.inj hp
        refine .step ?_
        rw [next, stepLook, if_neg hge, if_neg hfree, hstash]
        dsimp only
        rw [if_pos hend]
        exact .refl _
      · rename_i hend
        have hask : next ⟨.look site, r⟩ = ⟨.fill site r.room, r⟩ := by
          rw [next, stepLook, if_neg hge, if_neg hfree, hstash]
          exact if_neg hend
        refine .step ?_
        rw [hask]
        split at hp
        all_goals
          rename_i hread
          obtain ⟨rfl, rfl⟩ := Prod.mk.inj hp
          exact leads_tryRead (next_fill site r.room) hread

theorem leads_look (site : Site) {peek : Peek} (hp : r.peek = (peek, s)) :
    Leads ⟨.look site, r⟩ ⟨.found site peek, s⟩ := by
  unfold Reader.peek at hp
  split at hp
  · rename_i hlt
    obtain ⟨rfl, rfl⟩ := Prod.mk.inj hp
    refine .step ?_
    rw [next, stepLook, if_pos hlt]
    exact .refl _
  · rename_i hge
    exact leads_fill site hge hp

theorem leads_lookBeyond (request : Request) (seen : List UInt8) {peek : Peek}
    (hp : r.peekBeyond = (peek, s)) :
    Leads ⟨.lookBeyond request seen, r⟩ ⟨.foundBeyond request seen peek, s⟩ := by
  unfold peekBeyond at hp
  split at hp
  · rename_i byte hstash
    obtain ⟨rfl, rfl⟩ := Prod.mk.inj hp
    refine .step ?_
    rw [next, stepLookBeyond, hstash]
    exact .refl _
  · rename_i hstash
    split at hp
    · rename_i hend
      obtain ⟨rfl, rfl⟩ := Prod.mk.inj hp
      refine .step ?_
      rw [next, stepLookBeyond, hstash]
      dsimp only
      rw [if_pos hend]
      exact .refl _
    · rename_i hend
      have hask : next ⟨.lookBeyond request seen, r⟩ = ⟨.stash request seen, r⟩ := by
        rw [next, stepLookBeyond, hstash]
        exact if_neg hend
      refine .step ?_
      rw [hask]
      split at hp
      all_goals
        rename_i hread
        obtain ⟨rfl, rfl⟩ := Prod.mk.inj hp
        exact leads_tryRead (next_stash request seen) hread

/-- Where a read goes on behind the blanks. -/
def behindBlanks (request : Request) (r : Reader) : Option Scan → Point
  | some scan => ⟨.scanned request scan, r⟩
  | none => ⟨.look (.token request []), r⟩

/-- What a read does with the blanks in front of a token. -/
theorem leads_skipBlanks (request : Request) {o : Option Scan} (ho : r.skipBlanks = (o, s)) :
    Leads ⟨.look (.blanks request), r⟩ (s.behindBlanks request o) := by
  fun_induction skipBlanks r with
  | case1 r byte t hp hb ih =>
    refine (leads_look _ hp).trans (.step ?_)
    rw [next, stepFound, if_pos hb]
    exact .step (ih ho)
  | case2 r byte t hp hb =>
    obtain ⟨rfl, rfl⟩ := Prod.mk.inj ho
    refine (leads_look _ hp).trans (.step ?_)
    rw [next, stepFound, if_neg hb]
    exact .refl _
  | case3 r t hp =>
    obtain ⟨rfl, rfl⟩ := Prod.mk.inj ho
    exact (leads_look _ hp).trans (.step (.refl _))
  | case4 r t hp =>
    obtain ⟨rfl, rfl⟩ := Prod.mk.inj ho
    exact (leads_look _ hp).trans (.step (.refl _))
  | case5 r t hp =>
    obtain ⟨rfl, rfl⟩ := Prod.mk.inj ho
    exact (leads_look _ hp).trans (.step (.refl _))

/-- Bytes seen in front of the end of a token make it longer. -/
theorem foldr_cons_token (seen bytes : List UInt8) :
    seen.foldr Scan.cons (.token bytes) = .token (seen ++ bytes) := by
  induction seen with
  | nil => rfl
  | cons byte seen ih => rw [List.foldr_cons, ih, Scan.cons, List.cons_append]

/-- Bytes seen in front of an obstacle do not matter. -/
theorem foldr_cons_other (seen : List UInt8) {scan : Scan} (h : ∀ bytes, scan ≠ .token bytes) :
    seen.foldr Scan.cons scan = scan := by
  induction seen with
  | nil => rfl
  | cons byte seen ih =>
    rw [List.foldr_cons, ih]
    cases scan with
    | token bytes => exact absurd rfl (h bytes)
    | _ => rfl

theorem leads_endOfFull (request : Request) (seen : List UInt8) {scan : Scan}
    (hs : r.endOfFull = (scan, s)) :
    Leads ⟨.lookBeyond request seen, r⟩ ⟨.scanned request (seen.foldr Scan.cons scan), s⟩ := by
  unfold endOfFull at hs
  split at hs
  all_goals
    rename_i hp
    obtain ⟨rfl, rfl⟩ := Prod.mk.inj hs
    refine (leads_lookBeyond request seen hp).trans (.step ?_)
    rw [next, scanBeyond]
  · split
    · rw [foldr_cons_token, List.append_nil]
      exact .refl _
    · rw [foldr_cons_other seen (by simp)]
      exact .refl _
  · rw [foldr_cons_token, List.append_nil]
    exact .refl _
  · rw [foldr_cons_other seen (by simp)]
    exact .refl _
  · rw [foldr_cons_other seen (by simp)]
    exact .refl _

/-- What a read does with the bytes of a token, some of which were seen. -/
theorem leads_takeToken (request : Request) (seen : List UInt8) {scan : Scan}
    (hs : r.takeToken = (scan, s)) :
    Leads ⟨.look (.token request seen), r⟩ ⟨.scanned request (seen.foldr Scan.cons scan), s⟩ := by
  fun_induction takeToken r generalizing seen scan s with
  | case1 r byte t hp hb =>
    obtain ⟨rfl, rfl⟩ := Prod.mk.inj hs
    refine (leads_look _ hp).trans (.step ?_)
    rw [next, stepFound, if_pos hb, foldr_cons_token, List.append_nil]
    exact .refl _
  | case2 r byte t hp hb more u hmore ih =>
    obtain ⟨rfl, rfl⟩ := Prod.mk.inj hs
    refine (leads_look _ hp).trans (.step ?_)
    rw [next, stepFound, if_neg hb]
    have hrest := ih (seen ++ [byte]) hmore
    rwa [List.foldr_append] at hrest
  | case3 r t hp =>
    obtain ⟨rfl, rfl⟩ := Prod.mk.inj hs
    refine (leads_look _ hp).trans (.step ?_)
    rw [next, stepFound, foldr_cons_token, List.append_nil]
    exact .refl _
  | case4 r t hp => exact (leads_look _ hp).trans (.step (leads_endOfFull request seen hs))
  | case5 r t hp =>
    obtain ⟨rfl, rfl⟩ := Prod.mk.inj hs
    refine (leads_look _ hp).trans (.step ?_)
    rw [next, stepFound, foldr_cons_other seen (by simp)]
    exact .refl _

theorem leads_nextToken (request : Request) {scan : Scan} (hs : r.nextToken = (scan, s)) :
    Leads ⟨.look (.blanks request), r⟩ ⟨.scanned request scan, s⟩ := by
  unfold nextToken at hs
  split at hs
  · rename_i o t hskip
    obtain ⟨rfl, rfl⟩ := Prod.mk.inj hs
    exact leads_skipBlanks request hskip
  · rename_i t hskip
    exact (leads_skipBlanks request hskip).trans (leads_takeToken request [] hs)

theorem leads_readToken (request : Request) (r : Reader) :
    Leads ⟨.look (.blanks request), r⟩
      ⟨.done (r.readToken request.parse request.fallback).1,
        (r.readToken request.parse request.fallback).2⟩ := by
  obtain ⟨scan, s, hn⟩ : ∃ scan s, r.nextToken = (scan, s) := ⟨_, _, rfl⟩
  refine (leads_nextToken request hn).trans (.step ?_)
  unfold readToken
  rw [hn, next]
  cases scan with
  | token token =>
    rw [answerTo]
    dsimp only
    cases request.parse token with
    | some value => exact .step (.refl _)
    | none => exact .step (.refl _)
  | endOfInput => exact .step (.refl _)
  | overflow => exact .step (.refl _)
  | failed => exact .step (.refl _)

theorem leads_readCharacter (r : Reader) :
    Leads ⟨.look .character, r⟩ ⟨.done (r.read .character).1, (r.read .character).2⟩ := by
  obtain ⟨peek, s, hp⟩ : ∃ peek s, r.peek = (peek, s) := ⟨_, _, rfl⟩
  refine (leads_look _ hp).trans (.step ?_)
  unfold read readCharacter
  rw [hp]
  cases peek with
  | byte byte => exact .step (.refl _)
  | endOfInput => exact .step (.refl _)
  | full => exact .step (.refl _)
  | failed => exact .step (.refl _)

/-- **The steps of a read** end with its answer and the reader it leaves. -/
theorem leads_read (r : Reader) (request : Request) :
    Leads (r.enter request) ⟨.done (r.read request).1, (r.read request).2⟩ := by
  by_cases hrequest : request = .character
  · subst hrequest
    exact leads_readCharacter r
  · rw [read_eq_readToken hrequest]
    have henter : r.enter request = ⟨.look (.blanks request), r⟩ := by
      cases request with
      | character => exact absurd rfl hrequest
      | _ => rfl
    rw [henter]
    exact leads_readToken request r

end Reader

end ArrayMachine
