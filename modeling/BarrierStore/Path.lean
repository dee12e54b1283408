/-!
# Path names

A path is the text that names a file: pieces separated by slashes.

The module introduces:

* `Path.components` — the pieces that matter: empty pieces and `.` do not, except that a leading
  slash means the root and a leading `.` the working directory. Two spellings with the same
  components name the same file (`Path.Same`);
* `Path.parent?`, `Path.ancestors`, `Path.join` — the directory that holds a file, those on the
  way to it, and a file in a directory;
* `Path.replaceExtension` — the name beside a file that differs in its extension;
* `Path.extend` — the same text with more characters at its end.
-/

namespace BarrierStore

/-- A path name, kept as it was spelled. -/
structure Path where
  /-- The characters of the name. -/
  chars : List Char
  deriving DecidableEq, Inhabited

namespace Path

/-- One piece of a path name between slashes. -/
abbrev Piece := List Char

/-- The piece for the directory itself. -/
def dot : Piece := ['.']

/-- The piece for the directory above. -/
def dotDot : Piece := ['.', '.']

/-- The path spelled by `text`. -/
def ofString (text : String) : Path := ⟨text.toList⟩

/-- The spelling of a path. -/
def text (path : Path) : String := String.ofList path.chars

/-- The path of no characters. -/
def empty : Path := ⟨[]⟩

/-- The text between slashes, empty pieces included. -/
def pieces (path : Path) : List Piece :=
  path.chars.splitOn '/'

/-- The path of these pieces, with slashes between them. -/
def ofPieces (pieces : List Piece) : Path :=
  ⟨['/'].intercalate pieces⟩

/-- Whether the path starts at the root. -/
def isAbsolute (path : Path) : Bool :=
  path.chars.head? == some '/'

/-- A step of a path. -/
inductive Component where
  /-- The root directory. -/
  | root
  /-- The directory itself, where a path starts with it. -/
  | current
  /-- The directory above. -/
  | up
  /-- The entry of that name. -/
  | entry (name : Piece)
  deriving DecidableEq

namespace Component

/-- The step that a piece inside a path stands for, if any. -/
def ofPiece? (piece : Piece) : Option Component :=
  if piece = [] ∨ piece = dot then none
  else if piece = dotDot then some up
  else some (entry piece)

/-- The piece that spells a step; the root is spelled by the empty piece in front. -/
def toPiece : Component → Piece
  | root => []
  | current => dot
  | up => dotDot
  | entry name => name

end Component

/-- The steps of a path. -/
def components (path : Path) : List Component :=
  let start :=
    -- `./a` and `a` have different steps; no other `.` counts
    if path.isAbsolute then [Component.root]
    else if path.pieces.head? = some dot then [Component.current]
    else []
  start ++ path.pieces.filterMap Component.ofPiece?

/-- The plainest path of these steps. -/
def ofComponents : (steps : List Component) → Path
  | [.root] => ⟨['/']⟩
  | steps => ofPieces (steps.map Component.toPiece)

/-- Two spellings of one name. -/
def Same (p q : Path) : Prop :=
  p.components = q.components

instance (p q : Path) : Decidable (Same p q) :=
  inferInstanceAs (Decidable (p.components = q.components))

/-- The path without its last step; neither the root nor the empty path has one. -/
def parent? (path : Path) : Option Path :=
  match path.components.reverse with
  | [] => none
  | .root :: _ => none
  | _ :: before => some (ofComponents before.reverse)

/-- The path and the directories on the way to it, innermost first. -/
def ancestors (path : Path) : List Path :=
  let steps := path.components
  path :: (List.range (steps.length - 1)).reverse.map fun n => ofComponents (steps.take (n + 1))

/-- The file `name` in the directory `path`. An absolute name stands for itself. -/
def join (path : Path) (name : Path) : Path :=
  if name.isAbsolute then name
  else if path.chars = [] ∨ path.chars.getLast? = some '/' then ⟨path.chars ++ name.chars⟩
  else ⟨path.chars ++ '/' :: name.chars⟩

/-- The path with more characters at its end. -/
def extend (path : Path) (more : List Char) : Path :=
  ⟨path.chars ++ more⟩

/-- The last named piece and the pieces before it; what follows it is slashes and `.` only. -/
def fileName? (path : Path) : Option (List Piece × Piece) :=
  match path.pieces.reverse.dropWhile (fun piece => piece = [] ∨ piece = dot) with
  | [] => none
  | name :: before => if name = dotDot then none else some (before.reverse, name)

/-- A file name up to its last dot, and the extension behind the dot. A dot in front of a name
starts no extension. -/
def splitExtension (name : Piece) : Piece × Option Piece :=
  match name.reverse.dropWhile (· ≠ '.') with
  | [] | ['.'] => (name, none)
  | _ :: before => (before.reverse, some (name.reverse.takeWhile (· ≠ '.')).reverse)

/-- The extension of the file name. -/
def extension? (path : Path) : Option Piece := do
  let (_, name) ← path.fileName?
  (splitExtension name).2

/-- The path up to the stem of its file name, with `extension` behind a dot. A path that names no
file stays as it is. -/
def setExtension (path : Path) (extension : List Char) : Path :=
  match path.fileName? with
  | none => path
  | some (before, name) => ofPieces (before ++ [(splitExtension name).1 ++ '.' :: extension])

/-- The name beside `path` with another extension: as many characters as the present extension
has are dropped from the end of the path before the new one is set. -/
def replaceExtension (path : Path) (extension : List Char) : Path :=
  match path.extension? with
  | none => path.setExtension extension
  | some old => setExtension ⟨path.chars.take (path.chars.length - old.length)⟩ extension

end Path

end BarrierStore
