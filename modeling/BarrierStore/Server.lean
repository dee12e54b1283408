import BarrierStore.Connection
import BarrierStore.Endpoint

/-!
# Servers

A server listens at an address of its own machine and serves a limited number of connections at a
time. A connection over the limit is told so and closed.

The module introduces:

* `Host.isOwn` — the hosts that a server can listen at;
* `Server` — a bound server and how many connections it serves; `Server.bind` binds one;
* `Server.accept`, `Server.release` — a connection comes, or is rejected, and goes.
-/

namespace BarrierStore

/-- Whether a server can listen at a host. No address of 32 bits is refused; of the longer ones the
machine has none but those that mean any address or stand for a shorter one. -/
def Host.isOwn (host : Host) : Bool :=
  match host with
  | .short _ => true
  | .long _ => host.isUnspecified || host.isMapped

/-- A bound server. -/
structure Server where
  config : Config
  /-- How many connections it serves. -/
  active : Nat
  deriving DecidableEq

/-- The text for a connection over the limit. -/
def tooManyConnections : String := "too many connections"

namespace Server

/-- Bind the listen address of a configuration. -/
def bind (config : Config) : Except Fault Server :=
  let refused (reason : String) : Except Fault Server :=
    .error (.network (.bindFailed config.listenAddress reason))
  match Endpoint.parse? config.listenAddress with
  | none => refused "invalid socket address"
  | some endpoint =>
    if endpoint.host.isOwn then .ok { config, active := 0 }
    else refused IoFault.addressNotAvailable.message

/-- Take a connection, registered with the acknowledgement queue, or reject it with the bytes that
tell it so. -/
def accept (server : Server) (service : Service) :
    Except Bytes (ConnectionId × Server × Service) :=
  if server.config.maxConnections ≤ server.active then
    .error (Response.encode (.error 0 tooManyConnections))
  else
    let (id, acks) := service.acks.register
    .ok (id, { server with active := server.active + 1 }, { service with acks })

/-- A connection has ended. -/
def release (server : Server) (service : Service) (id : ConnectionId) : Server × Service :=
  ({ server with active := server.active - 1 }, Connection.close service id)

end Server

end BarrierStore
