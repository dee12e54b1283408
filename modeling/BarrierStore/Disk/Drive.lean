import BarrierStore.Disk.Lookup

/-!
# Working with files

Operations on a disk that is in use. Each looks at the disk, fails or performs effects, and what
was performed before a failure stays performed.

The module introduces:

* `Drive` — a disk and the effects that led to it; `Drive.perform` is the only way to change it;
* `DiskM` — operations that may fail;
* `create`, `openAppend`, `write`, `append`, `sync`, `rename`, `remove`, `makeDirectory`,
  `makeDirectories`, `contentsOf` — the operations on files;
* `writeFile`, `appendFile`, `truncateFile`, `copyFile` — whole changes of a file;
* `replaceFile` — new contents for a file by way of a second file: the old contents stand until
  the new ones are complete.
-/

namespace BarrierStore

/-- A disk in use, and the effects that led to it, newest first. -/
structure Drive where
  /-- The disk as it stands. -/
  disk : Disk
  /-- What was done to it, newest first. -/
  effects : List Effect

/-- An operation on a drive that may fail. -/
abbrev DiskM := ExceptT Fault (StateM Drive)

namespace Drive

/-- A drive at the start of its history. -/
def ofDisk (disk : Disk) : Drive := ⟨disk, []⟩

/-- Perform an effect. -/
def perform (effect : Effect) : StateM Drive Unit :=
  modify fun drive => ⟨drive.disk.apply effect, effect :: drive.effects⟩

/-- The disk as it stands. -/
def current : StateM Drive Disk :=
  Drive.disk <$> get

/-- An answer that depends on the disk only. -/
def look {α : Type} (question : Disk → Except IoFault α) : DiskM α := do
  match question (← current) with
  | .ok answer => return answer
  | .error cause => throw (.io cause)

/-- Run an operation and answer with its outcome, a fault included. -/
def attempt {α : Type} (operation : DiskM α) : DiskM (Except Fault α) :=
  fun drive => let (outcome, drive) := operation drive; (.ok outcome, drive)

/-- Open a file for writing, a new one if there is none; `truncate` empties one that is there. -/
def openForWriting (path : Path) (truncate : Bool) : DiskM FileId := do
  match ← look (·.locate path) with
  | .directory _ => throw (.io .isADirectory)
  | .name place slashes =>
    if slashes then throw (.io .isADirectory)
    match ← look (·.entry place) with
    | some .directory => throw (.io .isADirectory)
    | some (.file id) =>
      -- the same file gets shorter: whoever has it open sees that
      if truncate then perform (.resize id 0)
      return id
    | none =>
      let disk ← current
      perform (.create place)
      return disk.nextFile

/-- Open an empty file for writing, in place of the contents that are there. -/
def create (path : Path) : DiskM FileId :=
  openForWriting path true

/-- Open a file for writing at its end. -/
def openAppend (path : Path) : DiskM FileId :=
  openForWriting path false

/-- Write at an offset of an open file. -/
def write (id : FileId) (offset : Nat) (data : Bytes) : StateM Drive Unit :=
  perform (.write id offset data)

/-- Write at the end of an open file. -/
def append (id : FileId) (data : Bytes) : StateM Drive Unit := do
  let disk ← current
  write id (disk.contents id).length data

/-- Wait until all bytes of an open file have reached the medium. -/
def sync (id : FileId) : StateM Drive Unit :=
  perform (.sync id)

/-- The contents of a file. -/
def contentsOf (path : Path) : DiskM Contents :=
  look (·.read path)

/-- The contents of a file, `none` if there is no such file. -/
def contentsOf? (path : Path) : DiskM (Option Contents) := do
  match (← current).read path with
  | .ok contents => return some contents
  | .error .notFound => return none
  | .error cause => throw (.io cause)

/-- Put contents in place of those that are there. -/
def writeFile (path : Path) (contents : Bytes) : DiskM Unit := do
  let id ← create path
  write id 0 contents

/-- Put more at the end of a file. -/
def appendFile (path : Path) (more : Bytes) : DiskM Unit := do
  let id ← openAppend path
  append id more

/-- Change the length of a file that is there. -/
def truncateFile (path : Path) (length : Nat) : DiskM Unit := do
  let id ← look (·.fileAt path)
  if Bytes.maxLength < length then throw (.io .lengthOutOfRange)
  perform (.resize id length)

/-- Copy the contents of a file over those of another. A file copied to itself is emptied. -/
def copyFile (source target : Path) : DiskM Unit := do
  match ← look (·.nodeAt source) with
  | .directory => throw (.io .notPlainFile)
  | .file id =>
    let copy ← create target
    let disk ← current
    write copy 0 (disk.contents id).toBytes

/-- Give the file at `source` the name `target`, over a file of that name. -/
def rename (source target : Path) : DiskM Unit := do
  let source ← look (·.locate source)
  let target ← look (·.locate target)
  match source, target with
  | .name old slashes, .name new slashes' =>
    match ← look (·.entry old) with
    | none => throw (.io .notFound)
    | some .directory => throw (.io .isADirectory)
    | some (.file _) =>
      let taken ← look (·.entry new)
      if slashes || slashes' then throw (.io .notADirectory)
      -- a file keeps its own name
      if old = new then return
      if taken = some .directory then throw (.io .isADirectory)
      perform (.rename old new)
  | _, _ => throw (.io .resourceBusy)

/-- Remove the name of a file. -/
def remove (path : Path) : DiskM Unit := do
  match ← look (·.locate path) with
  | .directory _ => throw (.io .isADirectory)
  | .name place slashes =>
    match ← look (·.entry place) with
    | none => throw (.io .notFound)
    | some .directory => throw (.io .isADirectory)
    | some (.file _) =>
      if slashes then throw (.io .notADirectory)
      perform (.remove place)

/-- Make one directory in an existing one. -/
def makeDirectory (path : Path) : DiskM Unit := do
  match ← look (·.locate path) with
  | .directory _ => throw (.io .alreadyExists)
  | .name place _ =>
    match ← look (·.entry place) with
    | some _ => throw (.io .alreadyExists)
    | none => perform (.makeDirectory place)

/-- Make one directory, or find it made. -/
def ensureDirectory (path : Path) : DiskM Unit := do
  match ← attempt (makeDirectory path) with
  | .ok () => return
  | .error fault => unless (← current).isDirectory path do throw fault

/-- Make the first of these directories; where that fails for want of the one above, make those
first. -/
def makeChain : (innermostFirst : List Path) → DiskM Unit
  | [] => return
  | path :: above => do
    match ← attempt (makeDirectory path) with
    | .ok () => return
    | .error (.io .notFound) =>
      makeChain above
      ensureDirectory path
    | .error fault => unless (← current).isDirectory path do throw fault

/-- Make a directory and all those on the way to it that are missing. -/
def makeDirectories (path : Path) : DiskM Unit :=
  if path.chars = [] then return else makeChain path.ancestors

/-- Make the directory that is to hold a file, and all those on the way to it. -/
def makeParent (path : Path) : DiskM Unit :=
  match path.parent? with
  | none => return
  | some parent => makeDirectories parent

/-- Give a file new contents. They are written to a file beside it, whose name has `extension` for
its extension, and take the place of the old ones once they have reached the medium. -/
def replaceFile (path : Path) (extension : List Char) (contents : Bytes) : DiskM Unit := do
  let beside := path.replaceExtension extension
  let id ← create beside
  write id 0 contents
  sync id
  -- the name changes hands in one effect
  rename beside path

end Drive

end BarrierStore
