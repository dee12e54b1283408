import BarrierStore.Disk.Drive
import BarrierStore.Index.Line

/-!
# The index

An index maps each key to an address. A new binding is written to the index log at once, but it
becomes visible only by a barrier: it is staged until the log has reached the medium, and applied
then.

The module introduces:

* `Index` — the staged and the applied bindings, and the open log;
* `Index.openAt` — replay the log and compact it, a line for each key;
* `Index.put`, `Index.find?` — write and stage a binding; look up an applied one;
* `Index.beginSync`, `Index.commitSync` — the two halves of a barrier: take what is staged; wait
  for the log and apply what was taken. `Index.sync` is both;
* `Index.close` — a last barrier, and the log compacted.
-/

namespace BarrierStore

/-- An open index. -/
structure Index where
  /-- The log's name. -/
  path : Path
  /-- The log, open at its end. -/
  log : FileId
  /-- Bindings that are in the log and wait for a barrier. -/
  staged : AddressMap
  /-- Bindings that are visible. -/
  applied : AddressMap

namespace IndexLog

/-- The extension of the file that a compacted log is first written to. -/
def temporaryExtension : List Char := "log.tmp".toList

/-- The map that a log amounts to; without a log, the empty map. -/
def load (path : Path) : DiskM AddressMap := do
  match ← Drive.contentsOf? path with
  | none => return ∅
  | some contents => return replay contents.toBytes

/-- Replace a log by one line for each key of a map. -/
def store (path : Path) (map : AddressMap) : DiskM Unit :=
  Drive.replaceFile path temporaryExtension (compact map)

/-- Put lines at the end of a log. -/
def append (path : Path) (entries : List (Bytes × UInt64)) : DiskM Unit :=
  Drive.appendFile path (encodeEntries entries)

end IndexLog

namespace Index

/-- Open the index whose log is at `path`. All that the log says counts as applied. -/
def openAt (path : Path) : DiskM Index := do
  -- what is on the disk has outlived a barrier or a crash, and needs no other one
  let applied ← IndexLog.load path
  IndexLog.store path applied
  let log ← Drive.openAppend path
  return { path, log, staged := ∅, applied }

/-- Write a binding to the log and stage it. -/
def put (index : Index) (key : Bytes) (address : UInt64) : StateM Drive Index := do
  -- the line comes first: a binding that is staged is in the log
  Drive.append index.log (Line.encode key address)
  return { index with staged := index.staged.insert key address }

/-- The address of a key as of the last barrier. -/
def find? (index : Index) (key : Bytes) : Option UInt64 :=
  index.applied[key]?

/-- The first half of a barrier: take what is staged. -/
def beginSync (index : Index) : AddressMap × Index :=
  (index.staged, { index with staged := ∅ })

/-- The bindings of a batch become visible; they outdate those of the same keys. -/
def publish (index : Index) (batch : AddressMap) : Index :=
  { index with applied := index.applied ∪ batch }

/-- The second half of a barrier: wait for the log, then publish what was taken. -/
def commitSync (index : Index) (batch : AddressMap) : StateM Drive Index := do
  Drive.sync index.log
  return index.publish batch

/-- A barrier for the index alone. -/
def sync (index : Index) : StateM Drive Index :=
  let (batch, index) := index.beginSync
  index.commitSync batch

/-- Forget the applied bindings of the keys that fail `keep`. -/
def retain (index : Index) (keep : Bytes → Bool) : Index :=
  { index with applied := index.applied.filter fun key _ => keep key }

/-- A last barrier, and the log compacted. -/
def close (index : Index) : DiskM Unit := do
  let index ← index.sync
  IndexLog.store index.path index.applied

/-- A published batch outdates what was applied before. -/
@[simp]
theorem find?_publish (index : Index) (batch : AddressMap) (key : Bytes) :
    (index.publish batch).find? key = batch[key]?.or (index.find? key) :=
  Std.ExtTreeMap.getElem?_union

/-- A forgotten key has no address, and any other keeps its own. -/
@[simp]
theorem find?_retain (index : Index) (keep : Bytes → Bool) (key : Bytes) :
    (index.retain keep).find? key = (index.find? key).filter fun _ => keep key :=
  Std.ExtTreeMap.getElem?_filter'

/-- A binding that is only staged is not visible. -/
theorem find?_beginSync (index : Index) (key : Bytes) :
    index.beginSync.2.find? key = index.find? key := rfl

end Index

end BarrierStore
