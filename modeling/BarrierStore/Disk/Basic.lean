import BarrierStore.Disk.Contents
import BarrierStore.Path
import Std.Data.ExtTreeMap

/-!
# The disk

A disk is a tree of directories whose leaves are links to files. A file lives on while it is open,
whether or not a link to it is left: what was opened stays the same file when its name is removed
or given to another one.

The module introduces:

* `Disk` — the links and the files; a file has contents and a durable length, the number of
  leading bytes that have reached the medium;
* `Effect` — one change of the disk. Everything that changes a disk is an effect, so a run is a
  list of effects and a crash leaves the disk after a part of the list;
* `Disk.apply` — the disk after an effect.
-/

namespace BarrierStore

/-- A place in the tree: the names on the way to it, innermost first. The root has no names. -/
abbrev Location := List Path.Piece

/-- The identity of a file, independent of its name. -/
abbrev FileId := Nat

/-- What a name stands for. -/
inductive Node where
  /-- A directory. -/
  | directory
  /-- A link to a file. -/
  | file (id : FileId)
  deriving DecidableEq, Inhabited

/-- A file. -/
structure File where
  /-- What it holds. -/
  contents : Contents
  /-- How many leading bytes have reached the medium. -/
  durable : Nat
  deriving Inhabited

/-- A file of no bytes. -/
def File.empty : File := ⟨.empty, 0⟩

/-- The links and the files of a disk. The root is always there and is not listed. -/
structure Disk where
  /-- Every directory and every link below the root. -/
  nodes : Std.ExtTreeMap Location Node
  /-- Every file that was ever linked. -/
  files : Std.ExtTreeMap FileId File
  /-- The identity of the next new file. -/
  nextFile : FileId

/-- One change of a disk. -/
inductive Effect where
  /-- A new directory. -/
  | makeDirectory (place : Location)
  /-- A link to a new, empty file. -/
  | create (place : Location)
  /-- A file gets another length: its end is cut off, or zeros are added. -/
  | resize (file : FileId) (length : Nat)
  /-- Bytes are written at an offset. -/
  | write (file : FileId) (offset : Nat) (data : Bytes)
  /-- A link moves to another place, over what is there. -/
  | rename (source target : Location)
  /-- A link is removed. -/
  | remove (place : Location)
  /-- All bytes of a file have reached the medium. -/
  | sync (file : FileId)
  deriving DecidableEq

namespace Disk

/-- The disk with nothing but the root directory. -/
def empty : Disk := ⟨∅, ∅, 0⟩

/-- What stands at a place, if anything. -/
def node? (disk : Disk) : (place : Location) → Option Node
  | [] => some .directory
  | place => disk.nodes[place]?

/-- The file of that identity; an unknown one is empty. -/
def file (disk : Disk) (id : FileId) : File :=
  disk.files.getD id .empty

/-- The contents of the file of that identity. -/
def contents (disk : Disk) (id : FileId) : Contents :=
  (disk.file id).contents

/-- The disk with another file under an identity. -/
def setFile (disk : Disk) (id : FileId) (file : File) : Disk :=
  { disk with files := disk.files.insert id file }

/-- The disk after an effect. A file that gets shorter keeps no more durable bytes than it has. -/
def apply (disk : Disk) : Effect → Disk
  | .makeDirectory place => { disk with nodes := disk.nodes.insert place .directory }
  | .create place =>
    { nodes := disk.nodes.insert place (.file disk.nextFile)
      files := disk.files.insert disk.nextFile .empty
      nextFile := disk.nextFile + 1 }
  | .resize id length =>
    disk.setFile id ⟨(disk.contents id).resize length, min (disk.file id).durable length⟩
  | .write id offset data =>
    disk.setFile id ⟨(disk.contents id).overwrite offset data, min (disk.file id).durable offset⟩
  | .rename source target =>
    match disk.nodes[source]? with
    | none => disk
    | some node => { disk with nodes := (disk.nodes.erase source).insert target node }
  | .remove place => { disk with nodes := disk.nodes.erase place }
  | .sync id => disk.setFile id ⟨disk.contents id, (disk.contents id).length⟩

/-- The disk after a list of effects, the first of the list first. -/
def applyAll (disk : Disk) (effects : List Effect) : Disk :=
  effects.foldl apply disk

/-- The path, from a place, of something below it: names with slashes between them, and a slash
behind a directory. -/
def pathFrom (place below : Location) (node : Node) : List Char :=
  let names := ['/'].intercalate (below.reverse.drop place.length)
  if node = .directory then names ++ ['/'] else names

/-- The size that a listing shows. -/
def sizeOf (disk : Disk) : Node → Nat
  | .directory => 0
  | .file id => (disk.contents id).length

/-- Whether one text stands before another in the order of their characters, or is the same. -/
def notAfter : (a b : List Char) → Bool
  | [], _ => true
  | _ :: _, [] => false
  | c :: a, d :: b => c.toNat < d.toNat || (c = d && notAfter a b)

/-- All files and directories below a place, with their sizes, sorted by path. -/
def listing (disk : Disk) (place : Location) : List (List Char × Nat) :=
  let found := disk.nodes.toList.filter fun (below, _) => place.isSuffixOf below && below ≠ place
  let rows := found.map fun (below, node) => (pathFrom place below node, disk.sizeOf node)
  rows.mergeSort fun a b => notAfter a.1 b.1

end Disk

end BarrierStore
