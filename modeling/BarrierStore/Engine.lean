import BarrierStore.ValueLog.Recovery
import BarrierStore.Wire.Request

/-!
# The storage engine

An engine keeps values in a value log and numbers in an index of their own, whose addresses are the
numbers. One barrier covers both.

The module introduces:

* `Engine` — an open store; `Engine.openWith` opens it, with recovery;
* `Engine.put`, `Engine.get`, `Engine.putNumber`, `Engine.getNumber` — writes, which wait for a
  barrier, and reads, which see the last one;
* `Engine.sync`, `Engine.close` — the barrier; a last barrier with both index logs compacted;
* `Engine.execute` — any of these for a command.
-/

namespace BarrierStore

/-- An open store. -/
structure Engine where
  config : Config
  /-- The values. -/
  log : ValueLog
  /-- The numbers. -/
  numbers : Index
  /-- What recovery did when the store was opened. -/
  recovery : Recovery

/-- What became of a command. -/
inductive Outcome where
  /-- The value of a key as of the last barrier. -/
  | value (value : Option Bytes)
  /-- The number of a key as of the last barrier. -/
  | number (number : Option UInt64)
  /-- A write that waits for a barrier. -/
  | staged
  /-- A sign of life. -/
  | pong
  deriving DecidableEq

namespace Engine

/-- Open the store of a configuration. -/
def openWith (config : Config) : DiskM Engine := do
  if let .error cause := config.validate then throw (.config cause)
  for path in [config.indexLog, config.segmentStem, config.rangeFile, config.numberLog] do
    Drive.makeParent path
  let (log, recovery) ← ValueLog.openAt config
  let numbers ← Index.openAt config.numberLog
  return { config, log, numbers, recovery }

/-- Open the store in a directory, with the default settings. -/
def openIn (directory : Path) : DiskM Engine :=
  openWith (Config.build [.dataDirectory directory])

/-- Stage a value under a key. What was done before a fault stays done. -/
def put (engine : Engine) (key value : Bytes) : StateM Drive (Engine × Except Fault Unit) := do
  let (log, outcome) ← engine.log.put key value
  return ({ engine with log }, outcome)

/-- The value of a key as of the last barrier. -/
def get (engine : Engine) (disk : Disk) (key : Bytes) : Except Fault (Option Bytes) :=
  engine.log.get disk key

/-- Stage a number under a key. -/
def putNumber (engine : Engine) (key : Bytes) (number : UInt64) : StateM Drive Engine := do
  let numbers ← engine.numbers.put key number
  return { engine with numbers }

/-- The number of a key as of the last barrier. -/
def getNumber (engine : Engine) (key : Bytes) : Option UInt64 :=
  engine.numbers.find? key

/-- A barrier over the values, then the numbers: every earlier write is durable and visible after
it. -/
def sync (engine : Engine) : StateM Drive Engine := do
  let log ← engine.log.sync
  let numbers ← engine.numbers.sync
  return { engine with log, numbers }

/-- A last barrier, and both index logs compacted. -/
def close (engine : Engine) : DiskM Unit := do
  engine.log.close
  engine.numbers.close

/-- How many keys have a visible value. -/
def keyCount (engine : Engine) : Nat := engine.log.index.applied.size

/-- How many keys have a value that waits for a barrier. -/
def pendingCount (engine : Engine) : Nat := engine.log.index.staged.size

/-- How many keys have a visible number. -/
def numberCount (engine : Engine) : Nat := engine.numbers.applied.size

/-- Carry out a command. -/
def execute (engine : Engine) : Command → StateM Drive (Engine × Except Fault Outcome)
  | .get key => do
    let disk ← Drive.current
    return (engine, .value <$> engine.get disk key)
  | .put key value => do
    let (engine, outcome) ← engine.put key value
    return (engine, (fun _ => .staged) <$> outcome)
  | .ping => return (engine, .ok .pong)
  | .putNumber key number => do
    let engine ← engine.putNumber key number
    return (engine, .ok .staged)
  | .getNumber key => return (engine, .ok (.number (engine.getNumber key)))

theorem run_execute_put (engine : Engine) (key value : Bytes) (drive : Drive) :
    (engine.execute (.put key value)).run drive =
      (({ engine with log := ((engine.log.put key value).run drive).1.1 },
        (fun _ => .staged) <$> ((engine.log.put key value).run drive).1.2),
        ((engine.log.put key value).run drive).2) := rfl

theorem run_execute_get (engine : Engine) (key : Bytes) (drive : Drive) :
    (engine.execute (.get key)).run drive =
      ((engine, .value <$> engine.get drive.disk key), drive) := rfl

end Engine

end BarrierStore
