import BarrierStore.Config
import BarrierStore.Index
import BarrierStore.Segment.Position
import BarrierStore.Segment.Range
import BarrierStore.Segment.Scan

/-!
# The value log

Values live in segment files. Records are appended to the active segment; when the next one would
not fit, the segment is sealed and the following id becomes active. The index maps each key to the
address of its record.

The module introduces:

* `ValueLog` — the active segment, the range of segments and the index;
* `ValueLog.makeRoom`, `ValueLog.append` — the two steps of a write: seal the active segment if
  the record does not fit; append the record and bind its address. `ValueLog.put` does both;
* `ValueLog.get` — the value of a key as of the last barrier;
* `ValueLog.beginSync`, `ValueLog.syncActive`, `ValueLog.commitSync` — the steps of a barrier, and
  `ValueLog.sync` all of them;
* `ValueLog.close` — a last barrier, and the index log compacted.

A barrier waits for the active segment only, so a segment is made durable before it is sealed.
-/

namespace BarrierStore

/-- The segment that records are appended to. -/
structure ActiveSegment where
  /-- Its id. -/
  id : UInt64
  /-- Its file, open for writing. -/
  file : FileId
  /-- How many bytes were written to it. -/
  length : Nat
  deriving DecidableEq

/-- An open value log. -/
structure ValueLog where
  /-- Bytes in a segment. -/
  capacity : UInt64
  /-- What the names of the segment files start with. -/
  segmentStem : Path
  /-- The range file. -/
  rangeFile : Path
  /-- Where the record of each key is. -/
  index : Index
  /-- The segments in use, as in the range file. -/
  range : SegmentRange
  /-- The segment that records are appended to. -/
  active : ActiveSegment

/-- How much of a directory's own data a reader finds behind its name. -/
def directoryLength : Nat := 4096

namespace ValueLog

/-- The file of the segment with that id. -/
def segmentFile (log : ValueLog) (id : UInt64) : Path :=
  log.segmentStem.segmentFile id

/-- Seal the active segment and open the next one. The log changes only when all has gone well. -/
def rollOver (log : ValueLog) : DiskM ValueLog := do
  -- later barriers wait for the new segment only
  Drive.sync log.active.file
  let some range := log.range.grow? | throw .arithmetic
  -- the id is taken on the medium before its file is there, so recovery looks at every file
  range.store log.rangeFile
  let id := log.range.next
  let file ← Drive.create (log.segmentFile id)
  return { log with range, active := { id, file, length := 0 } }

/-- Whether a record of that length goes to the next segment: it does not fit and is not the
first. -/
def isFull (log : ValueLog) (length : Nat) : Bool :=
  0 < log.active.length ∧ log.capacity.toNat < log.active.length + length

/-- Seal the active segment if a record of that length does not fit. -/
def makeRoom (log : ValueLog) (length : Nat) : DiskM ValueLog :=
  if log.isFull length then log.rollOver else return log

/-- Append a record to the active segment and stage its address. -/
def append (log : ValueLog) (record : Record) : DiskM ValueLog := do
  let position : Position := ⟨log.active.id, log.active.length⟩
  let some address := position.address? log.capacity | throw .arithmetic
  Drive.write log.active.file log.active.length record.encode
  let index ← log.index.put record.key address
  return { log with
    index
    active := { log.active with length := log.active.length + record.length } }

/-- Append a record where there is room for it. -/
def store (log : ValueLog) (record : Record) : DiskM ValueLog := do
  let log ← log.makeRoom record.length
  log.append record

/-- Append a value under a key and stage its address. What was done before a fault stays done. -/
def put (log : ValueLog) (key value : Bytes) : StateM Drive (ValueLog × Except Fault Unit) :=
  fun drive =>
    let record : Record := ⟨key, value⟩
    -- a segment that was sealed stays sealed when the record after it fails
    match (log.makeRoom record.length).run.run drive with
    | (.error fault, drive) => ((log, .error fault), drive)
    | (.ok log, drive) =>
      match (log.append record).run.run drive with
      | (.error fault, drive) => ((log, .error fault), drive)
      | (.ok log, drive) => ((log, .ok ()), drive)

/-- The address of a key as of the last barrier. -/
def find? (log : ValueLog) (key : Bytes) : Option UInt64 :=
  log.index.find? key

/-- The value of `key` in the record at a position. A place that holds no record of the key is a
fault, not an absent value. -/
def readAt (log : ValueLog) (disk : Disk) (key : Bytes) (position : Position) : Except Fault Bytes :=
  let corrupt := Fault.corruptRecord position.segment position.offset
  match disk.nodeAt (log.segmentFile position.segment) with
  | .error cause => .error (.io cause)
  | .ok .directory =>
    -- a directory can be opened and has a length, but its data cannot be read as bytes
    if position.offset + Record.lengthWidth ≤ directoryLength then .error (.io .isADirectory)
    else .error corrupt
  | .ok (.file id) =>
    match (disk.contents id).recordAt? position.offset with
    | none => .error corrupt
    | some record => if record.key = key then .ok record.value else .error corrupt

/-- The value of a key as of the last barrier, `none` if it has none. -/
def get (log : ValueLog) (disk : Disk) (key : Bytes) : Except Fault (Option Bytes) :=
  match log.find? key with
  | none => .ok none
  | some address =>
    match Position.ofAddress? address log.capacity with
    | none => .error .arithmetic
    | some position => some <$> log.readAt disk key position

/-- The first step of a barrier: take what is staged. -/
def beginSync (log : ValueLog) : AddressMap × ValueLog :=
  let (batch, index) := log.index.beginSync
  (batch, { log with index })

/-- The second step of a barrier: wait for the segment that is active then. -/
def syncActive (log : ValueLog) : StateM Drive Unit :=
  Drive.sync log.active.file

/-- The last steps of a barrier: wait for the index log, then publish what was taken. -/
def commitSync (log : ValueLog) (batch : AddressMap) : StateM Drive ValueLog := do
  let index ← log.index.commitSync batch
  return { log with index }

/-- A barrier: every earlier write is durable and visible after it. -/
def sync (log : ValueLog) : StateM Drive ValueLog := do
  let (batch, log) := log.beginSync
  log.syncActive
  log.commitSync batch

/-- A last barrier, and the index log compacted. -/
def close (log : ValueLog) : DiskM Unit := do
  let log ← log.sync
  log.index.close

end ValueLog

end BarrierStore
