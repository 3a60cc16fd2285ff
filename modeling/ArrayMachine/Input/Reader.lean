import ArrayMachine.Input.Source
import ArrayMachine.Input.Token

/-!
# Reading scalars

A reader takes blank-separated tokens, or single raw bytes, from a source, through a ring of fixed
capacity. `start`, `cursor` and `stop` count bytes since the beginning: the ring holds those from
`start` to `stop`, and byte `n` is in cell `n % capacity`. A read looks ahead with the cursor; if it
succeeds, `start` follows, and if not, the cursor goes back. The one byte looked at beyond a full
ring waits in the stash until there is room.

A token longer than the capacity, a token of another form, and a failing source are read errors. The
end of the input is remembered.
-/

namespace ArrayMachine

/-- How the latest read went. -/
inductive StreamState where
  | success | readError | endOfInput
deriving DecidableEq

/-- The number that a program sees. -/
def StreamState.code : StreamState → Int32
  | success => 0
  | readError => 1
  | endOfInput => 2

structure Reader where
  source : Source
  ring : Array UInt8
  stash : Option UInt8
  start : Nat
  cursor : Nat
  stop : Nat
  /-- The source has come to its end. -/
  exhausted : Bool
  state : StreamState

/-- What lies ahead of the cursor. -/
inductive Peek where
  | byte (byte : UInt8)
  | endOfInput
  /-- The ring is full. -/
  | full
  | failed
deriving DecidableEq

/-- What was found where a token should be. -/
inductive Scan where
  | token (bytes : List UInt8)
  | endOfInput
  /-- The token is longer than the ring. -/
  | overflow
  | failed
deriving DecidableEq

namespace Reader

/-- A reader at the beginning of a source. -/
def ofSource (source : Source) (capacity : Nat) : Reader where
  source
  ring := Array.replicate (max capacity 2) 0
  stash := none
  start := 0
  cursor := 0
  stop := 0
  exhausted := false
  state := .success

def capacity (r : Reader) : Nat := r.ring.size

/-! ## The ring -/

/-- The byte in the cell of position `n`. -/
def cell (r : Reader) (n : Nat) : UInt8 := r.ring.getD (n % r.capacity) 0

/-- The ring with bytes written to consecutive cells. -/
def writeCells (ring : Array UInt8) (first : Nat) : List UInt8 → Array UInt8
  | [] => ring
  | byte :: rest => writeCells (ring.setIfInBounds first byte) (first + 1) rest

/-- The reader with bytes taken into the ring behind those it holds. They must not reach beyond the
last cell. -/
def take (r : Reader) (bytes : List UInt8) : Reader :=
  { r with ring := writeCells r.ring (r.stop % r.capacity) bytes, stop := r.stop + bytes.length }

/-- The number of cells that hold no byte. -/
def free (r : Reader) : Nat := r.capacity - (r.stop - r.start)

/-- The number of bytes that can be taken at once: the free cells up to the last one. -/
def contiguousRoom (r : Reader) : Nat := min r.free (r.capacity - r.stop % r.capacity)

/-- More bytes into the ring: the stashed one, or those of one read. -/
def fill (r : Reader) : Peek × Reader :=
  if r.free = 0 then (.full, r)
  else match r.stash with
    | some byte =>
      let filled := { r with stash := none }.take [byte]
      (.byte (filled.cell r.cursor), filled)
    | none =>
      if r.exhausted then (.endOfInput, r)
      else match r.source.read r.contiguousRoom with
        | (.bytes first more, source) =>
          let filled := { r with source }.take (first :: more)
          (.byte (filled.cell r.cursor), filled)
        | (.endOfInput, source) => (.endOfInput, { r with source, exhausted := true })
        | (.failure, source) => (.failed, { r with source })

/-- The byte at the cursor, taken from the source if need be. -/
def peek (r : Reader) : Peek × Reader :=
  if r.cursor < r.stop then (.byte (r.cell r.cursor), r) else r.fill

/-- The byte behind a full ring. It is stashed. -/
def peekBeyond (r : Reader) : Peek × Reader :=
  match r.stash with
  | some byte => (.byte byte, r)
  | none =>
    if r.exhausted then (.endOfInput, r)
    else match r.source.read 1 with
      | (.bytes first _, source) => (.byte first, { r with source, stash := some first })
      | (.endOfInput, source) => (.endOfInput, { r with source, exhausted := true })
      | (.failure, source) => (.failed, { r with source })

/-! ## The cursor -/

/-- The cursor behind the byte just seen. -/
def advance (r : Reader) : Reader := { r with cursor := r.cursor + 1 }

/-- Everything before the cursor is read for good. -/
def commit (r : Reader) : Reader := { r with start := r.cursor }

/-- The cursor back at the first byte not read for good. -/
def rewind (r : Reader) : Reader := { r with cursor := r.start }

/-- The number of bytes that the cursor has not passed. -/
def pending (r : Reader) : Nat :=
  (r.stop - r.cursor) + r.stash.toList.length + r.source.byteCount

/-- Passing a byte that was seen leaves fewer. -/
theorem pending_advance_lt {r s : Reader} {byte : UInt8} (h : r.peek = (.byte byte, s)) :
    s.advance.pending < r.pending := by
  unfold peek at h
  split at h
  · simp only [Prod.mk.injEq] at h
    obtain ⟨-, rfl⟩ := h
    simp only [advance, pending]
    omega
  · unfold fill at h
    split at h
    · simp at h
    · split at h
      · rename_i hs
        simp only [Prod.mk.injEq] at h
        obtain ⟨-, rfl⟩ := h
        simp only [advance, pending, take, hs, List.length_singleton, Option.toList_some,
          Option.toList_none, List.length_nil]
        omega
      · rename_i hs
        split at h
        · simp at h
        · split at h
          · rename_i hr
            simp only [Prod.mk.injEq] at h
            obtain ⟨-, rfl⟩ := h
            have hc := Source.byteCount_of_read hr
            simp only [advance, pending, take, hs, List.length_cons, Option.toList_none,
              List.length_nil]
            omega
          · simp at h
          · simp at h

/-! ## Tokens -/

/-- Past the blanks. What stands in the way of a token, if anything does. -/
def skipBlanks (r : Reader) : Option Scan × Reader :=
  match _h : r.peek with
  | (.byte byte, s) => if Ascii.isBlank byte then skipBlanks s.advance.commit else (none, s)
  | (.endOfInput, s) => (some .endOfInput, s)
  | (.full, s) => (some .overflow, s)
  | (.failed, s) => (some .failed, s)
termination_by r.pending
decreasing_by exact pending_advance_lt _h

/-- The end of a token that fills the ring: it is one if no more of it follows. -/
def endOfFull (r : Reader) : Scan × Reader :=
  match r.peekBeyond with
  | (.byte byte, s) => (if Ascii.isBlank byte then .token [] else .overflow, s)
  | (.endOfInput, s) => (.token [], s)
  | (.full, s) => (.overflow, s)
  | (.failed, s) => (.failed, s)

/-- A byte in front of a token. -/
def Scan.cons (byte : UInt8) : Scan → Scan
  | .token bytes => .token (byte :: bytes)
  | other => other

/-- The bytes up to the next blank or the end of the input. -/
def takeToken (r : Reader) : Scan × Reader :=
  match _h : r.peek with
  | (.byte byte, s) =>
    if Ascii.isBlank byte then (.token [], s)
    else
      let (scan, t) := takeToken s.advance
      (Scan.cons byte scan, t)
  | (.endOfInput, s) => (.token [], s)
  | (.full, s) => s.endOfFull
  | (.failed, s) => (.failed, s)
termination_by r.pending
decreasing_by exact pending_advance_lt _h

/-- The token ahead, behind any blanks. -/
def nextToken (r : Reader) : Scan × Reader :=
  match r.skipBlanks with
  | (some obstacle, s) => (obstacle, s)
  | (none, s) => s.takeToken

/-! ## Reads -/

/-- The end of a read. -/
def finish (r : Reader) (state : StreamState) : Reader :=
  { if state = .success then r.commit else r.rewind with state }

/-- The value of the token ahead, or the fallback if there is none or it does not have the form. -/
def readToken {α : Type} (parse : List UInt8 → Option α) (fallback : α) (r : Reader) :
    α × Reader :=
  match r.nextToken with
  | (.token bytes, s) =>
    match parse bytes with
    | some value => (value, s.finish .success)
    | none => (fallback, s.finish .readError)
  | (.endOfInput, s) => (fallback, s.finish .endOfInput)
  | (.overflow, s) => (fallback, s.finish .readError)
  | (.failed, s) => (fallback, s.finish .readError)

def readInteger (r : Reader) : Int32 × Reader := r.readToken Token.integer? 0

def readBoolean (r : Reader) : Bool × Reader := r.readToken Token.boolean? false

def readReal (r : Reader) : Single × Reader := r.readToken Token.real? (Single.zero false)

/-- One raw byte, be it blank or not. -/
def readCharacter (r : Reader) : UInt8 × Reader :=
  match r.peek with
  | (.byte byte, s) => (byte, s.advance.finish .success)
  | (.endOfInput, s) => (0, s.finish .endOfInput)
  | (.full, s) => (0, s.finish .readError)
  | (.failed, s) => (0, s.finish .readError)

end Reader

end ArrayMachine
