import BarrierStore.Text.Utf8
import BarrierStore.Wire.Frame

/-!
# Responses

A response answers the request of its id with a status and, for some, a payload: the value or the
number that was found, or the text of an error.

The module introduces:

* `Status`, `Response` — what a server answers;
* `Response.ok`, `Response.notFound`, `Response.error` — the three answers;
* `Response.encode`, `Response.decode`, `Response.read` — their frames. A frame does not tell an
  empty payload from none; it is read as none.
-/

namespace BarrierStore

/-- How a request went. -/
inductive Status where
  | ok
  | notFound
  | error
  deriving DecidableEq

namespace Status

/-- The byte of a status. -/
def toByte : Status → UInt8
  | ok => 0
  | notFound => 1
  | error => 2

/-- The status of a byte. -/
def ofByte? (b : UInt8) : Option Status :=
  if b = 0 then some ok else if b = 1 then some notFound else if b = 2 then some error else none

end Status

/-- The answer to a request. -/
structure Response where
  /-- The id of the request. -/
  id : UInt64
  status : Status
  payload : Option Bytes
  deriving DecidableEq

namespace Response

/-- Success. -/
def ok (id : UInt64) (payload : Option Bytes) : Response :=
  { id, status := .ok, payload }

/-- The key has no value, or none that a barrier has made visible. -/
def notFound (id : UInt64) : Response :=
  { id, status := .notFound, payload := none }

/-- Failure, with its text. -/
def error (id : UInt64) (message : String) : Response :=
  { id, status := .error, payload := some (Utf8.encode message.toList) }

/-- The frame of a response. -/
def frame (response : Response) : Frame :=
  { kind := response.status.toByte, id := response.id, payload := response.payload.getD [] }

/-- The bytes of a response. -/
def encode (response : Response) : Bytes :=
  response.frame.encode

/-- The response in a frame. -/
def ofFrame (frame : Frame) : Except ProtocolFault Response :=
  match Status.ofByte? frame.kind with
  | none => .error (.unknownStatus frame.kind)
  | some status =>
    .ok { id := frame.id, status, payload := if frame.payload = [] then none else some frame.payload }

/-- The response at the front of `bytes`. -/
def decode (bytes : Bytes) : Except ProtocolFault Response := do
  ofFrame (← Frame.parse .response bytes)

/-- The next response of a stream, and how many bytes of the stream are used up with it. -/
def read (stream : Bytes) : Except Fault Response × Nat :=
  let (bytes, used) := Frame.read .response stream
  (bytes.bind fun bytes => (decode bytes).mapError .protocol, used)

end Response

end BarrierStore
