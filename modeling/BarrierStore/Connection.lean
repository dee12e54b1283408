import BarrierStore.Barrier
import BarrierStore.Wire.Stream

/-!
# Connections

A connection carries out the requests of one client in order. Responses go to its outbound queue:
those to reads at once, those to writes by way of the acknowledgement queue, behind the next
barrier.

The module introduces:

* `Connection.dispatch` — one request carried out and its response routed;
* `Connection.handle` — the requests of a stream, up to the end of the stream or the first frame
  that is malformed, which is answered by an error with id 0 and ends the connection;
* `Connection.drain` — the bytes of the responses that wait in the outbound queue.
-/

namespace BarrierStore

/-- The payload of the response to a ping. -/
def pongPayload : Bytes := Utf8.encode "PONG".toList

namespace Service

/-- Put a response into the outbound queue of a connection. -/
def send (service : Service) (id : ConnectionId) (response : Response) : Service :=
  { service with acks := (service.acks.send id [response]).2 }

/-- Route the outcome of a request. A write is acknowledged behind the next barrier, anything else
at once. -/
def route (service : Service) (id : ConnectionId) (request : UInt64) :
    Except Fault Outcome → Service
  | .ok (.value (some value)) => service.send id (.ok request (some value))
  | .ok (.value none) | .ok (.number none) => service.send id (.notFound request)
  | .ok (.number (some number)) =>
    service.send id (.ok request (some (Bytes.bigEndian 8 number.toNat)))
  | .ok .pong => service.send id (.ok request (some pongPayload))
  | .ok .staged => { service with acks := service.acks.stage id (.ok request none) }
  | .error fault => service.send id (.error request fault.message)

end Service

namespace Connection

/-- Carry out one request of a connection and route its response. Arithmetic that leaves the words
ends the connection without a response. -/
def dispatch (service : Service) (id : ConnectionId) (request : Request) :
    StateM Drive (Service × Except Fault Unit) := do
  let (engine, outcome) ← service.engine.execute request.command
  let service := { service with engine }
  match outcome with
  | .error .arithmetic => return (service, .error .arithmetic)
  | outcome => return (service.route id request.id outcome, .ok ())

/-- Carry out what a reader of requests found, up to its first fault. The end of the stream is no
fault of the connection. -/
def process (id : ConnectionId) : (found : List (Except Fault Request)) → (service : Service) →
    StateM Drive (Service × Except Fault Unit)
  | [], service => return (service, .ok ())
  | .error (.io _) :: _, service => return (service, .ok ())
  | .error fault :: _, service => return (service.send id (.error 0 fault.message), .error fault)
  | .ok request :: rest, service => do
    match ← dispatch service id request with
    | (service, .ok ()) => process id rest service
    | (service, .error fault) => return (service, .error fault)

/-- Serve a client that sends these bytes and then ends its side. -/
def handle (service : Service) (id : ConnectionId) (stream : Bytes) :
    StateM Drive (Service × Except Fault Unit) :=
  process id ((readAll Request.read stream).map (·.1)) service

/-- The bytes of the responses that wait for the client. -/
def drain (service : Service) (id : ConnectionId) : Bytes × Service :=
  let (responses, acks) := service.acks.receive id
  ((responses.getD []).flatMap Response.encode, { service with acks })

/-- The connection ends: what is staged for it is lost. -/
def close (service : Service) (id : ConnectionId) : Service :=
  { service with acks := service.acks.unregister id }

end Connection

end BarrierStore
