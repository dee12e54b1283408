import BarrierStore.Wire.Frame

/-!
# Requests

A request is a command with an id that the client chose. The payload of its frame starts with the
key, behind its length in four bytes, for every command but a ping; the value or the number
follows the key.

The module introduces:

* `Command`, `Request` — what a client may ask for;
* `Command.payload`, `Request.encode` — the bytes of a request;
* `Command.parse`, `Request.decode` — the request in a frame;
* `Request.read` — the next request of a stream.
-/

namespace BarrierStore

/-- What a client may ask for. -/
inductive Command where
  /-- The value of a key. -/
  | get (key : Bytes)
  /-- A value under a key. -/
  | put (key value : Bytes)
  /-- A sign of life. -/
  | ping
  /-- A number under a key; numbers and values do not meet. -/
  | putNumber (key : Bytes) (number : UInt64)
  /-- The number of a key. -/
  | getNumber (key : Bytes)
  deriving DecidableEq

/-- A command with the id that its response carries. -/
structure Request where
  id : UInt64
  command : Command
  deriving DecidableEq

namespace Command

/-- The kind of a command. -/
def verb : Command → Verb
  | get _ => .get
  | put _ _ => .put
  | ping => .ping
  | putNumber _ _ => .putNumber
  | getNumber _ => .getNumber

/-- Whether the response has to wait for a barrier. -/
def isWrite : Command → Bool
  | put _ _ | putNumber _ _ => true
  | get _ | ping | getNumber _ => false

/-- A key behind its length. -/
def encodeKey (key : Bytes) : Bytes :=
  Bytes.bigEndian 4 key.length ++ key

/-- The payload of a command. -/
def payload : Command → Bytes
  | get key => encodeKey key
  | put key value => encodeKey key ++ value
  | ping => []
  | putNumber key number => encodeKey key ++ Bytes.bigEndian 8 number.toNat
  | getNumber key => encodeKey key

/-- The key at the front of a payload, and what follows it. -/
def splitKey (verb : Verb) (payload : Bytes) : Except ProtocolFault (Bytes × Bytes) :=
  if payload.length < 4 then .error (.missingKeyLength verb)
  else
    let size := Bytes.ofBigEndian (payload.take 4)
    let rest := payload.drop 4
    if rest.length < size then .error (.shortKey verb size rest.length)
    else .ok (rest.take size, rest.drop size)

/-- The key that is all of a payload. -/
def onlyKey (verb : Verb) (payload : Bytes) : Except ProtocolFault Bytes := do
  let (key, rest) ← splitKey verb payload
  if rest ≠ [] then throw (.trailingBytes verb rest.length)
  return key

/-- The command of a kind with that payload. -/
def parse (verb : Verb) (payload : Bytes) : Except ProtocolFault Command :=
  match verb with
  | .get => get <$> onlyKey .get payload
  | .put => (fun (key, value) => put key value) <$> splitKey .put payload
  | .ping => if payload ≠ [] then .error (.pingPayload payload.length) else .ok ping
  | .putNumber => do
    let (key, rest) ← splitKey .putNumber payload
    if rest.length ≠ 8 then throw (.numberLength rest.length)
    return putNumber key (UInt64.ofNat (Bytes.ofBigEndian rest))
  | .getNumber => getNumber <$> onlyKey .getNumber payload

end Command

namespace Request

/-- The frame of a request. -/
def frame (request : Request) : Frame :=
  { kind := request.command.verb.toByte, id := request.id, payload := request.command.payload }

/-- The bytes of a request. -/
def encode (request : Request) : Bytes :=
  request.frame.encode

/-- The request in a frame. -/
def ofFrame (frame : Frame) : Except ProtocolFault Request :=
  match Verb.ofByte? frame.kind with
  | none => .error (.unknownCommand frame.kind)
  | some verb => (fun command => { id := frame.id, command }) <$> Command.parse verb frame.payload

/-- The request at the front of `bytes`. -/
def decode (bytes : Bytes) : Except ProtocolFault Request := do
  ofFrame (← Frame.parse .command bytes)

/-- The next request of a stream, and how many bytes of the stream are used up with it. -/
def read (stream : Bytes) : Except Fault Request × Nat :=
  let (bytes, used) := Frame.read .command stream
  (bytes.bind fun bytes => (decode bytes).mapError .protocol, used)

end Request

end BarrierStore
