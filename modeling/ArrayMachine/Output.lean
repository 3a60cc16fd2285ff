import ArrayMachine.Value.Rendering

/-!
# Output

A sink is the writer that a program prints to: the bytes it has taken, and a script of what it does
when it is written to and when it is flushed. A text is written by as many writes as it takes. Each
takes some bytes off its front, or is interrupted and tried again, or fails. Then the sink is
flushed. What was taken before a failure stays written.
-/

namespace ArrayMachine

/-- What a write does with the bytes it is given, of which there is one at least. -/
inductive WriteOutcome where
  /-- At most `count` bytes are taken. -/
  | takes (count : Nat)
  /-- A write that is interrupted, to be tried again. -/
  | interruption
  | failure (reason : String)
deriving DecidableEq

structure Sink where
  written : List UInt8
  /-- What the coming writes do. Behind the end of the script a write takes all it is given. -/
  writes : List WriteOutcome
  /-- Why the coming flushes fail, if they do. Behind the end of the script they do not. -/
  flushes : List (Option String)
deriving DecidableEq

namespace Sink

/-- A sink that takes everything. -/
def empty : Sink := ⟨[], [], []⟩

/-- What the writes of a script take of a text, with the reason for which they stop short of its end,
if they do, and the rest of the script. A write that takes no byte is the last. -/
def takeText : List WriteOutcome → List UInt8 → Option String × List UInt8 × List WriteOutcome
  | script, [] => (none, [], script)
  | [], bytes => (none, bytes, [])
  | .takes 0 :: script, _ => (some "failed to write whole buffer", [], script)
  | .takes (count + 1) :: script, bytes =>
    let (stop, more, rest) := takeText script (bytes.drop (count + 1))
    (stop, bytes.take (count + 1) ++ more, rest)
  | .interruption :: script, bytes => takeText script bytes
  | .failure reason :: script, _ => (some reason, [], script)

/-- The fault of a sink that cannot be written or flushed. -/
def failed (reason : String) : Fault := .internal s!"output stream write failed: {reason}"

/-- The sink flushed. -/
def flush (sink : Sink) : Result Unit × Sink :=
  match sink.flushes with
  | [] => (.ok (), sink)
  | none :: flushes => (.ok (), { sink with flushes })
  | some reason :: flushes => (.error (failed reason), { sink with flushes })

/-- The sink with a text written to it, and flushed if the writes came to the end of the text. -/
def write (sink : Sink) (bytes : List UInt8) : Result Unit × Sink :=
  let (stop, part, writes) := takeText sink.writes bytes
  let sink := { sink with written := sink.written ++ part, writes }
  match stop with
  | some reason => (.error (failed reason), sink)
  | none => sink.flush

/-- The sink with a value printed to it, if the stream is the output stream. -/
def print (sink : Sink) (stream v : Value) : Result Unit × Sink :=
  if stream.type = .output then
    match v.render with
    | .ok bytes => sink.write bytes
    | .error fault => (.error fault, sink)
  else (.error (.typeMismatch s!"cannot print to {stream.type}"), sink)

/-! ## What is written -/

/-- **The writes take a text from the front**: all of it, or less if they stop. -/
theorem takeText_front (script : List WriteOutcome) (bytes : List UInt8) :
    (takeText script bytes).2.1 <+: bytes ∧
      ((takeText script bytes).1 = none ↔ (takeText script bytes).2.1 = bytes) := by
  fun_induction takeText script bytes with
  | case1 => exact ⟨List.prefix_rfl, by simp⟩
  | case2 => exact ⟨List.prefix_rfl, by simp⟩
  | case3 script bytes hne => exact ⟨List.nil_prefix, by simpa using fun h => hne h⟩
  | case4 count script bytes hne stop more rest hmore ih =>
    rw [hmore] at ih
    obtain ⟨hfront, hall⟩ := ih
    constructor
    · calc bytes.take (count + 1) ++ more
          <+: bytes.take (count + 1) ++ bytes.drop (count + 1) :=
            (List.prefix_append_right_inj _).mpr hfront
        _ = bytes := List.take_append_drop _ _
    · refine hall.trans ⟨fun h => ?_, fun h => ?_⟩
      · exact (congrArg _ h).trans (List.take_append_drop _ _)
      · exact List.append_cancel_left (h.trans (List.take_append_drop _ _).symm)
  | case5 script bytes hne ih => exact ih
  | case6 bytes reason script hne => exact ⟨List.nil_prefix, by simpa using fun h => hne h⟩

end Sink

end ArrayMachine
