import BarrierStore.Wire.Request
import BarrierStore.Wire.Response

/-!
# Streams of frames

The module introduces:

* `readAll` — a reader applied to a stream until it fails, with the position in the stream after
  each step;
* `Sink` — the receiving end of a stream that takes a limited number of bytes. A frame that does
  not fit is written as far as it goes.
-/

namespace BarrierStore

/-- Apply a reader to a stream until its first fault. A reader gives what it found and how many
bytes it used up. Each outcome comes with the position behind it, where `position` is that of the
start of `stream`; the last outcome is a fault. At most `steps` outcomes are given. -/
def readSteps {α : Type} (reader : Bytes → Except Fault α × Nat) :
    (steps : Nat) → (position : Nat) → (stream : Bytes) → List (Except Fault α × Nat)
  | 0, _, _ => []
  | steps + 1, position, stream =>
    match reader stream with
    | (.error fault, used) => [(.error fault, position + used)]
    | (.ok item, used) =>
      (.ok item, position + used) :: readSteps reader steps (position + used) (stream.drop used)

/-- Apply a reader that uses up a byte or more for each item until its first fault. -/
def readAll {α : Type} (reader : Bytes → Except Fault α × Nat) (stream : Bytes) :
    List (Except Fault α × Nat) :=
  readSteps reader (stream.length + 1) 0 stream

/-- The receiving end of a stream. -/
structure Sink where
  /-- How many bytes it takes in all. -/
  limit : Nat
  /-- What it has taken. -/
  taken : Bytes
  deriving DecidableEq

namespace Sink

/-- A sink that has taken nothing. -/
def ofLimit (limit : Nat) : Sink := ⟨limit, []⟩

/-- Write all of `bytes`, or as much as the sink takes. -/
def write (sink : Sink) (bytes : Bytes) : Except Fault Unit × Sink :=
  let room := sink.limit - sink.taken.length
  let sink' := { sink with taken := sink.taken ++ bytes.take room }
  if bytes.length ≤ room then (.ok (), sink') else (.error (.io .writeZero), sink')

/-- Write one frame after the other, whatever becomes of the earlier ones. -/
def writeEach (sink : Sink) : (frames : List Bytes) → List (Except Fault Unit) × Sink
  | [] => ([], sink)
  | frame :: rest =>
    let (result, sink) := sink.write frame
    let (results, sink) := writeEach sink rest
    (result :: results, sink)

end Sink

end BarrierStore
