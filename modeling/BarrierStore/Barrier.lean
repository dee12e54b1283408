import BarrierStore.AckQueue
import BarrierStore.Engine

/-!
# Barriers

A barrier makes all earlier writes durable and visible, and releases their acknowledgements.
Acknowledgements are collected in front of it: whatever was staged by then belongs to a write that
the barrier covers, and whatever is staged later waits for the next one.

The module introduces:

* `Service` — an engine with its acknowledgement queue;
* `Service.runBarrier` — collect, wait, deliver;
* `Pacemaker` — runs barriers at an interval until it is told to stop, and one more then;
* `Shutdown` — a trigger and the tokens that watch it: they are cancelled once the trigger has
  fired or is gone.
-/

namespace BarrierStore

/-- An engine in service: responses to writes wait in the queue for a barrier. -/
structure Service where
  engine : Engine
  acks : AckQueue

namespace Service

/-- A barrier. The result counts the acknowledgements it released. -/
def runBarrier (service : Service) : StateM Drive (Nat × Service) := do
  -- every write whose acknowledgement is collected here was staged before the barrier begins
  let (batch, acks) := service.acks.collect
  let engine ← service.engine.sync
  let (delivered, acks) := acks.deliver batch
  return (delivered, { engine, acks })

/-- Several barriers in a row. -/
def runBarriers : (count : Nat) → (service : Service) → StateM Drive Service
  | 0, service => return service
  | count + 1, service => do
    let (_, service) ← service.runBarrier
    runBarriers count service

end Service

/-- Runs barriers at an interval. -/
structure Pacemaker where
  /-- Milliseconds between two barriers. -/
  interval : UInt64
  /-- How many barriers have run. -/
  barriers : Nat
  deriving DecidableEq

namespace Pacemaker

/-- Start at an interval; no barrier has run. -/
def start (interval : UInt64) : Pacemaker := ⟨interval, 0⟩

/-- The barriers of so many intervals. -/
def tick (pacemaker : Pacemaker) (count : Nat) (service : Service) :
    StateM Drive (Pacemaker × Service) := do
  let service ← service.runBarriers count
  return ({ pacemaker with barriers := pacemaker.barriers + count }, service)

/-- The last barrier. -/
def stop (pacemaker : Pacemaker) (service : Service) : StateM Drive (Pacemaker × Service) :=
  pacemaker.tick 1 service

end Pacemaker

/-- A trigger, watched by any number of tokens. -/
structure Shutdown where
  /-- Whether the trigger is still there. -/
  hasTrigger : Bool
  /-- Whether it has fired. -/
  fired : Bool
  deriving DecidableEq

namespace Shutdown

/-- A trigger that has not fired. -/
def armed : Shutdown := ⟨true, false⟩

/-- Fire the trigger, if it is still there. -/
def fire (shutdown : Shutdown) : Shutdown :=
  { shutdown with fired := shutdown.fired || shutdown.hasTrigger }

/-- Drop the trigger. -/
def drop (shutdown : Shutdown) : Shutdown :=
  { shutdown with hasTrigger := false }

/-- Whether the tokens are cancelled. -/
def isCancelled (shutdown : Shutdown) : Bool :=
  shutdown.fired || !shutdown.hasTrigger

end Shutdown

end BarrierStore
