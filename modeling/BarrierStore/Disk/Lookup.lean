import BarrierStore.Disk.Basic
import BarrierStore.Fault
import BarrierStore.Text.Utf8

/-!
# Finding files by path

A path is walked from the root of the disk, which is also the working directory, one piece after
the other. Every piece but the last must name a directory. A name that is too long is refused when
its turn comes, so what is wrong with the pieces before it is told first.

The module introduces:

* `Disk.entry` — what a name in an existing directory stands for;
* `Disk.locate` — where a path leads: to a directory as such, or to a name in a directory;
* `Disk.nodeAt`, `Disk.fileAt`, `Disk.read` — what stands there, the file there, its contents;
* `Disk.isDirectory` — whether the path leads to a directory.
-/

namespace BarrierStore

/-- Where a path leads. -/
inductive Target where
  /-- To a directory by `.`, `..` or the root. -/
  | directory (place : Location)
  /-- To the name at `place` in an existing directory. Slashes behind the name promise that it
  names a directory. -/
  | name (place : Location) (slashes : Bool)
  deriving DecidableEq

/-- The longest name in a directory, in bytes. -/
def longestName : Nat := 255

/-- The longest path, in bytes. -/
def longestPath : Nat := 4095

namespace Disk

/-- What the name at `place`, in a directory that is there, stands for, if anything. -/
def entry (disk : Disk) (place : Location) : Except IoFault (Option Node) :=
  if longestName < (Utf8.encode (place.headD [])).length then .error .nameTooLong
  else .ok (disk.node? place)

/-- One step into a directory. -/
def enter (disk : Disk) (place : Location) (piece : Path.Piece) : Except IoFault Location :=
  if piece = Path.dot then .ok place
  else if piece = Path.dotDot then .ok place.tail
  else do
    match ← disk.entry (piece :: place) with
    | none => .error .notFound
    | some (.file _) => .error .notADirectory
    | some .directory => .ok (piece :: place)

/-- The directory that these pieces lead to. -/
def walk (disk : Disk) (start : Location) (pieces : List Path.Piece) : Except IoFault Location :=
  pieces.foldlM disk.enter start

/-- Where a path leads. The empty path leads nowhere, and a path as a whole is judged before its
pieces are. -/
def locate (disk : Disk) (path : Path) : Except IoFault Target :=
  if '\x00' ∈ path.chars then .error .nulInPath
  else if path.chars = [] then .error .notFound
  else if longestPath < (Utf8.encode path.chars).length then .error .nameTooLong
  else
    match (path.pieces.filter (· ≠ [])).reverse with
    | [] => .ok (.directory [])
    | last :: before => do
      let place ← disk.walk [] before.reverse
      if last = Path.dot ∨ last = Path.dotDot then
        return .directory (← disk.enter place last)
      else return .name (last :: place) (path.chars.getLast? = some '/')

/-- What a path leads to. -/
def nodeAt (disk : Disk) (path : Path) : Except IoFault Node := do
  match ← disk.locate path with
  | .directory _ => return .directory
  | .name place slashes =>
    match ← disk.entry place with
    | none => throw .notFound
    | some .directory => return .directory
    | some (.file id) => if slashes then throw .notADirectory else return .file id

/-- Whether a path leads to a directory. -/
def isDirectory (disk : Disk) (path : Path) : Bool :=
  match disk.nodeAt path with
  | .ok .directory => true
  | _ => false

/-- The file that a path leads to. -/
def fileAt (disk : Disk) (path : Path) : Except IoFault FileId := do
  match ← disk.nodeAt path with
  | .directory => throw .isADirectory
  | .file id => return id

/-- The contents of the file that a path leads to. -/
def read (disk : Disk) (path : Path) : Except IoFault Contents :=
  disk.contents <$> disk.fileAt path

end Disk

end BarrierStore
