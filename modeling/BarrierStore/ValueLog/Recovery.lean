import BarrierStore.ValueLog

/-!
# Recovery

Opening a value log copies what is live out of the old segments into a fresh one and drops the old
segments. An indexed record may never have reached the medium, though its line in the index log
did; then the newest older record of the key takes its place. A key without any record is
forgotten.

The module introduces:

* `ValueLog.survivors` — for each key the greatest address, up to the indexed one, at which the
  old segments hold a record of the key;
* `ValueLog.relocate` — the survivors copied, in the order of the old segments;
* `ValueLog.recover` — both, then a barrier, and only then the old segments are removed and the
  range starts at the fresh ones;
* `ValueLog.openWith` — the value log of a configuration: range and capacity checked, a fresh
  active segment, and recovery;
* `ValueLog.openAt` — the same with its index opened first.
-/

namespace BarrierStore

/-- What recovery did. -/
structure Recovery where
  /-- Segments scanned and retired. -/
  scanned : Nat
  /-- Live records copied. -/
  relocated : Nat
  /-- Other records dropped. -/
  dropped : Nat
  /-- Segments that end on bytes that are no whole record. -/
  torn : Nat
  /-- Keys forgotten for want of a record. -/
  dangling : Nat
  deriving DecidableEq

/-- Nothing done. -/
def Recovery.none : Recovery := ⟨0, 0, 0, 0, 0⟩

namespace ValueLog

/-- The scan of a segment; a missing one scans as empty. -/
def scanSegment (log : ValueLog) (id : UInt64) : DiskM Scan := do
  let contents ← Drive.contentsOf? (log.segmentFile id)
  return Scan.ofContents log.capacity.toNat (contents.getD .empty)

/-- The address of a scanned record. -/
def addressOf (log : ValueLog) (segment : UInt64) (offset : Nat) : Except Fault UInt64 :=
  match (Position.mk segment offset).address? log.capacity with
  | some address => .ok address
  | none => .error .arithmetic

/-- The best record of a key so far, after one more record of it at `address`. Only an indexed key
counts, and only a record up to the indexed one. -/
def consider (index : Index) (best : AddressMap) (key : Bytes) (address : UInt64) : AddressMap :=
  match index.find? key with
  | none => best
  | some indexed =>
    if indexed < address then best
    else if (best[key]?).any (address ≤ ·) then best
    else best.insert key address

/-- The best record of each key so far, after one more segment. -/
def considerSegment (log : ValueLog) (best : AddressMap) (segment : UInt64) : DiskM AddressMap := do
  let scan ← log.scanSegment segment
  scan.records.foldlM
    (fun best (offset, record) => do
      return consider log.index best record.key (← log.addressOf segment offset))
    best

/-- For each indexed key the greatest address, up to the indexed one, of a record in these
segments. -/
def survivors (log : ValueLog) (segments : List UInt64) : DiskM AddressMap :=
  segments.foldlM log.considerSegment ∅

/-- Copy one record if it survives, and count it. -/
def relocateRecord (best : AddressMap) (segment : UInt64) (state : ValueLog × Recovery)
    (found : Nat × Record) : DiskM (ValueLog × Recovery) := do
  let (log, report) := state
  let (offset, record) := found
  let address ← log.addressOf segment offset
  if best[record.key]? = some address then
    let log ← log.store record
    return (log, { report with relocated := report.relocated + 1 })
  else
    return (log, { report with dropped := report.dropped + 1 })

/-- Copy the survivors of one segment, and count it. -/
def relocateSegment (best : AddressMap) (state : ValueLog × Recovery) (segment : UInt64) :
    DiskM (ValueLog × Recovery) := do
  let scan ← state.1.scanSegment segment
  let (log, report) ← scan.records.foldlM (relocateRecord best segment) state
  return (log, { report with
    scanned := report.scanned + 1
    torn := report.torn + if scan.torn then 1 else 0 })

/-- Copy the survivors of these segments into the active one. -/
def relocate (log : ValueLog) (best : AddressMap) (segments : List UInt64) :
    DiskM (ValueLog × Recovery) :=
  segments.foldlM (relocateSegment best) (log, Recovery.none)

/-- Remove a segment file, if it is there. -/
def removeSegment (log : ValueLog) (id : UInt64) : DiskM Unit := do
  match ← Drive.attempt (Drive.remove (log.segmentFile id)) with
  | .ok () | .error (.io .notFound) => return
  | .error fault => throw fault

/-- Copy what is live out of the old segments and drop them. The copies are durable and visible
before the first old segment goes. -/
def recover (log : ValueLog) (old : SegmentRange) : DiskM (ValueLog × Recovery) := do
  -- the index still names the old records here: relocation only stages the new ones
  let best ← log.survivors old.ids
  let (log, report) ← log.relocate best old.ids
  -- a key without a survivor points into nothing
  let kept := log.index.retain best.contains
  let dangling := log.index.applied.size - kept.applied.size
  -- the copies reach the medium before their sources go
  let log ← { log with index := kept }.sync
  old.ids.forM log.removeSegment
  -- relocation may have filled several segments; all that are not old are live
  let range := { log.range with first := old.next }
  range.store log.rangeFile
  return ({ log with range }, { report with dangling })

/-- Refuse a capacity other than the recorded one; record it if none is. -/
def checkCapacity (config : Config) : DiskM Unit := do
  let file := Capacity.file config.rangeFile
  match ← Capacity.load? file with
  | some recorded =>
    if recorded ≠ config.capacity then
      throw (.config (.capacityMismatch config.capacity recorded))
  | none => Capacity.store file config.capacity

/-- Open the value log of a configuration over an open index, and recover it. -/
def openWith (config : Config) (index : Index) : DiskM (ValueLog × Recovery) := do
  if let .error cause := config.validate then throw (.config cause)
  Drive.makeParent config.segmentStem
  let old ← SegmentRange.load config.rangeFile
  -- addresses of another capacity would be misread, so the range does not change before this
  checkCapacity config
  let some range := old.grow? | throw .arithmetic
  range.store config.rangeFile
  let id := old.next
  let file ← Drive.create (config.segmentFile id)
  let log : ValueLog :=
    { capacity := config.capacity
      segmentStem := config.segmentStem
      rangeFile := config.rangeFile
      index
      range
      active := { id, file, length := 0 } }
  log.recover old

/-- Open the value log of a configuration over the index that its index log holds. -/
def openAt (config : Config) : DiskM (ValueLog × Recovery) := do
  -- the index comes before the records that it names, for recovery to choose among them
  let index ← Index.openAt config.indexLog
  openWith config index

end ValueLog

end BarrierStore
