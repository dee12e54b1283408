import BarrierStore.Wire.Response
import Std.Data.ExtTreeMap

/-!
# The acknowledgement queue

The response to a write is held back until a barrier has made the write durable. Each connection
registers an outbound queue; its acknowledgements are staged under its id, collected in front of a
barrier and delivered behind it.

The module introduces:

* `AckQueue` — the registered connections with what is staged for them, and every outbound queue;
* `AckQueue.register`, `AckQueue.unregister` — a connection comes, under an id that counts from 1,
  and goes, with what is staged for it;
* `AckQueue.stage` — hold an acknowledgement back;
* `AckQueue.collect`, `AckQueue.deliver` — take all that is staged, as a batch; move a batch into
  the outbound queues of the connections that are still registered;
* `AckQueue.send`, `AckQueue.receive`, `AckQueue.closeReceiver` — the two ends of an outbound
  queue.
-/

namespace BarrierStore

/-- The id of a registered connection. -/
abbrev ConnectionId := UInt64

/-- The responses on their way to a client. -/
structure Outbound where
  /-- What was sent and not yet received, oldest first. -/
  waiting : List Response
  /-- Whether anybody still receives. -/
  isOpen : Bool
  deriving DecidableEq

/-- Acknowledgements that wait for a barrier, and the outbound queues. -/
structure AckQueue where
  /-- The id of the next connection. -/
  nextId : ConnectionId
  /-- What is staged for each registered connection, oldest first. -/
  staged : Std.ExtTreeMap ConnectionId (List Response)
  /-- The outbound queue of every connection that was ever registered. -/
  outbound : Std.ExtTreeMap ConnectionId Outbound

/-- Collected acknowledgements, with the connections they belong to. No list is empty. -/
abbrev AckBatch := List (ConnectionId × List Response)

/-- The number of acknowledgements in a batch. -/
def AckBatch.count (batch : AckBatch) : Nat :=
  (batch.flatMap fun (_, acks) => acks).length

namespace AckQueue

/-- No connection so far. -/
def empty : AckQueue := { nextId := 1, staged := ∅, outbound := ∅ }

/-- Register a connection with a new outbound queue. -/
def register (queue : AckQueue) : ConnectionId × AckQueue :=
  let id := queue.nextId
  (id, { nextId := id + 1
         staged := queue.staged.insert id []
         outbound := queue.outbound.insert id ⟨[], true⟩ })

/-- Forget a connection and what is staged for it. -/
def unregister (queue : AckQueue) (id : ConnectionId) : AckQueue :=
  { queue with staged := queue.staged.erase id }

/-- Whether a connection is registered. -/
def isRegistered (queue : AckQueue) (id : ConnectionId) : Bool :=
  queue.staged.contains id

/-- Hold an acknowledgement back until the next barrier. It is dropped if the connection is not
registered. -/
def stage (queue : AckQueue) (id : ConnectionId) (response : Response) : AckQueue :=
  { queue with staged := queue.staged.modify id (· ++ [response]) }

/-- Take all that is staged. -/
def collect (queue : AckQueue) : AckBatch × AckQueue :=
  (queue.staged.toList.filter (·.2 ≠ []), { queue with staged := queue.staged.map fun _ _ => [] })

/-- The number of staged acknowledgements. -/
def stagedCount (queue : AckQueue) : Nat :=
  AckBatch.count queue.staged.toList

/-- The number of registered connections. -/
def connectionCount (queue : AckQueue) : Nat :=
  queue.staged.size

/-- Put responses into an outbound queue, if anybody still receives from it, and count them. -/
def send (queue : AckQueue) (id : ConnectionId) (responses : List Response) : Nat × AckQueue :=
  match queue.outbound[id]? with
  | some outbound =>
    if outbound.isOpen then
      (responses.length, { queue with
        outbound := queue.outbound.insert id { outbound with waiting := outbound.waiting ++ responses } })
    else (0, queue)
  | none => (0, queue)

/-- Move the acknowledgements of one connection, if it is still registered, and count them. -/
def deliverTo (state : Nat × AckQueue) (entry : ConnectionId × List Response) : Nat × AckQueue :=
  let (delivered, queue) := state
  if queue.isRegistered entry.1 then
    let (count, queue) := queue.send entry.1 entry.2
    (delivered + count, queue)
  else (delivered, queue)

/-- Move a batch into the outbound queues of the connections that are still registered, and count
what was moved. -/
def deliver (queue : AckQueue) (batch : AckBatch) : Nat × AckQueue :=
  batch.foldl deliverTo (0, queue)

/-- Take all that waits in an outbound queue; `none` if nobody receives from it. -/
def receive (queue : AckQueue) (id : ConnectionId) : Option (List Response) × AckQueue :=
  match queue.outbound[id]? with
  | some outbound =>
    if outbound.isOpen then
      (some outbound.waiting, { queue with
        outbound := queue.outbound.insert id { outbound with waiting := [] } })
    else (none, queue)
  | none => (none, queue)

/-- Nobody receives from an outbound queue any more; what waits in it is lost. -/
def closeReceiver (queue : AckQueue) (id : ConnectionId) : AckQueue :=
  { queue with outbound := queue.outbound.modify id fun _ => ⟨[], false⟩ }

end AckQueue

end BarrierStore
