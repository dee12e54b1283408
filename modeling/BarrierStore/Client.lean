import BarrierStore.Endpoint
import BarrierStore.Wire.Stream

/-!
# Clients

A client sends one request at a time and waits for the response with its id. Responses with other
ids are left over from earlier calls and are passed over.

The module introduces:

* `Link` — how a client reaches servers; `Link.down` reaches none;
* `Client` — what it has sent and what it has still to read;
* `Client.call` — one request and its response;
* `Client.get`, `Client.put`, `Client.getNumber`, `Client.putNumber`, `Client.ping` — calls with
  their responses read as answers. A response with an error, or a refusal of a write, is a fault
  that carries the server's text.
-/

namespace BarrierStore

/-- How servers are reached: for an address, the bytes that the server there will send, or the
reason why it is not reached. -/
structure Link where
  dial : (address : String) → Except IoFault Bytes

namespace Link

/-- No server is reached: every interface of the machine is down. For the host that means any
address of the machine there is then none to start from; to any other one there is no route. -/
def down : Link := ⟨fun address =>
  if (Endpoint.parse? address).any (·.host.isUnspecified) then .error .addressNotAvailable
  else .error .networkUnreachable⟩

/-- Every address leads to a server that sends these bytes and then ends its side. -/
def scripted (bytes : Bytes) : Link := ⟨fun _ => .ok bytes⟩

end Link

/-- One end of a connection. -/
structure Client where
  /-- The id of the next request. -/
  nextId : UInt64
  /-- What the server sends and was not read yet. -/
  incoming : Bytes
  /-- What was sent to the server. -/
  sent : Bytes
  deriving DecidableEq

namespace Client

/-- A client of a server that will send these bytes. -/
def ofStream (incoming : Bytes) : Client := { nextId := 1, incoming, sent := [] }

/-- Reach the server at an address. -/
def connect (link : Link) (address : String) : Except Fault Client :=
  match link.dial address with
  | .ok incoming => .ok (ofStream incoming)
  | .error cause => .error (.io cause)

/-- Send a request; the result is its id. -/
def send (client : Client) (command : Command) : UInt64 × Client :=
  let id := client.nextId
  (id, { client with nextId := id + 1, sent := client.sent ++ Request.encode ⟨id, command⟩ })

/-- The text of an error response. -/
def refusal (response : Response) : Fault :=
  .network (.refused (match response.payload with
    | some payload => String.ofList (Utf8.decodeLossy payload)
    | none => "unknown error"))

/-- What ends the wait for the response to a request: the response, a fault of the stream, or an
error of the connection as a whole, which has id 0. -/
def verdict? (id : UInt64) : Except Fault Response → Option (Except Fault Response)
  | .error fault => some (.error fault)
  | .ok response =>
    -- ids count from 1, so no request has the id of an error of the connection
    if response.id = id then some (.ok response)
    else if response.status = .error ∧ response.id = 0 then some (.error (refusal response))
    else none

/-- Wait for the response to a request. -/
def await (client : Client) (id : UInt64) : Except Fault Response × Client :=
  let found := (readAll Response.read client.incoming).findSome? fun (outcome, position) =>
    (verdict? id outcome).map (·, position)
  match found with
  | some (outcome, position) => (outcome, { client with incoming := client.incoming.drop position })
  | none => (.error (.io .unexpectedEof), { client with incoming := [] })

/-- Send a request and wait for its response. -/
def call (client : Client) (command : Command) : Except Fault Response × Client :=
  let (id, client) := client.send command
  client.await id

/-- The answer that a read expects: what was found, or nothing. -/
def found {α : Type} (read : Bytes → Except Fault α) (response : Response) : Except Fault (Option α) :=
  match response.status with
  | .ok => some <$> read (response.payload.getD [])
  | .notFound => .ok none
  | .error => .error (refusal response)

/-- The answer that a write or a ping expects: success. -/
def done (response : Response) : Except Fault Unit :=
  if response.status = .ok then .ok () else .error (refusal response)

/-- The number in a response. -/
def number (payload : Bytes) : Except Fault UInt64 :=
  if payload.length = 8 then .ok (UInt64.ofNat (Bytes.ofBigEndian payload))
  else .error (.protocol (.numberAnswer payload.length))

/-- The value of a key, `none` if it has none that is durable. -/
def get (client : Client) (key : Bytes) : Except Fault (Option Bytes) × Client :=
  let (response, client) := client.call (.get key)
  (response.bind (found .ok), client)

/-- Store a value; the answer comes once it is durable. -/
def put (client : Client) (key value : Bytes) : Except Fault Unit × Client :=
  let (response, client) := client.call (.put key value)
  (response.bind done, client)

/-- The number of a key, `none` if it has none that is durable. -/
def getNumber (client : Client) (key : Bytes) : Except Fault (Option UInt64) × Client :=
  let (response, client) := client.call (.getNumber key)
  (response.bind (found number), client)

/-- Store a number; the answer comes once it is durable. -/
def putNumber (client : Client) (key : Bytes) (number : UInt64) : Except Fault Unit × Client :=
  let (response, client) := client.call (.putNumber key number)
  (response.bind done, client)

/-- Ask for a sign of life. -/
def ping (client : Client) : Except Fault Unit × Client :=
  let (response, client) := client.call .ping
  (response.bind done, client)

end Client

end BarrierStore
