/-!
# Input sources

A source is a script of what reading from it gives: chunks of bytes, reads that are interrupted and
tried again, and reads that fail. A read takes bytes from the first chunk only, and a chunk without
bytes is the end of the input, as is the end of the script.
-/

namespace ArrayMachine

inductive Chunk where
  | bytes (bytes : List UInt8)
  /-- A read that is interrupted, to be tried again. -/
  | interruption
  /-- A read that fails. -/
  | failure
deriving DecidableEq

abbrev Source := List Chunk

/-- What one successful try to read gives. -/
inductive Delivery where
  /-- At least one byte. -/
  | bytes (first : UInt8) (more : List UInt8)
  | endOfInput
  | failure
deriving DecidableEq

namespace Source

/-- The number of bytes in the script. -/
def byteCount : Source → Nat
  | [] => 0
  | .bytes bytes :: rest => bytes.length + byteCount rest
  | _ :: rest => byteCount rest

/-- A script with bytes put back in front. -/
def pushBack (bytes : List UInt8) (rest : Source) : Source :=
  if bytes = [] then rest else .bytes bytes :: rest

/-- One read of at most `room` bytes, tried again while it is interrupted, and the script that is
left. A read gives one byte at least. -/
def read (room : Nat) : Source → Delivery × Source
  | [] => (.endOfInput, [])
  | .bytes [] :: rest => (.endOfInput, rest)
  | .bytes (first :: more) :: rest =>
    (.bytes first (more.take (room - 1)), pushBack (more.drop (room - 1)) rest)
  | .interruption :: rest => read room rest
  | .failure :: rest => (.failure, rest)

@[simp] theorem byteCount_pushBack (bytes : List UInt8) (rest : Source) :
    byteCount (pushBack bytes rest) = bytes.length + byteCount rest := by
  unfold pushBack
  split
  · simp_all
  · rfl

/-- A read takes from the script the bytes it gives, and no others. -/
theorem byteCount_of_read {room : Nat} {source rest : Source} {first : UInt8} {more : List UInt8}
    (h : read room source = (.bytes first more, rest)) :
    byteCount rest + more.length + 1 = byteCount source := by
  fun_induction read room source with
  | case1 => simp at h
  | case2 => simp at h
  | case3 f m r =>
    simp only [Prod.mk.injEq, Delivery.bytes.injEq] at h
    obtain ⟨⟨-, rfl⟩, rfl⟩ := h
    simp only [byteCount_pushBack, byteCount, List.length_drop, List.length_take, List.length_cons]
    omega
  | case4 r ih => simpa [byteCount] using ih h
  | case5 => simp at h

end Source

end ArrayMachine
