import BarrierStore.Proofs.Disk.Leaves
import Mathlib.Data.Set.Insert

/-!
# The places that paths name

Nothing on a disk but its directories decides where a path leads, and a path that leads to a name
leads to one place on every disk. So a path that was resolved once stays resolved while directories
stand, whatever becomes of the files.

The module introduces:

* `Path.place` — the place that a path spells, with `.` and `..` resolved;
* `Disk.Reaches` — the path leads to a name in a directory that is there; this lasts while
  directories stay (`Disk.Reaches.mono`);
* `Disk.Admits` — and no directory has that name, so a file can stand there;
* `Disk.Changes start places disk` — `disk` has the directories of `start` and differs from it at
  these places only;
* `Disk.Grows start disk` — `disk` has gained directories and nothing else has changed;
  `Disk.Encumbered base places disk`, it has the directories of `base` and more of them at these places.

Main statement: a path that is located as a name is located at its place
(`Disk.eq_place_of_locate`).
-/

namespace BarrierStore

namespace Path

/-- One step of a path, taken from `place`. -/
def step (place : Location) (piece : Piece) : Location :=
  if piece = dot then place else if piece = dotDot then place.tail else piece :: place

/-- The place that a path spells. -/
def place (path : Path) : Location :=
  (path.pieces.filter (· ≠ [])).foldl step []

end Path

namespace Disk

variable {disk disk' : Disk}

/-- What is entered by a piece of a path is where the piece alone says. -/
theorem eq_step_of_enter {place next : Location} {piece : Path.Piece}
    (h : disk.enter place piece = .ok next) : next = Path.step place piece := by
  unfold enter at h
  -- the piece is a dot, two dots, or the name of a directory
  split at h
  · rename_i hdot
    cases h
    rw [Path.step, if_pos hdot]
  · rename_i hdot
    split at h
    · rename_i hup
      cases h
      rw [Path.step, if_neg hdot, if_pos hup]
    · rename_i hup
      rw [Path.step, if_neg hdot, if_neg hup]
      simp only [bind, Except.bind] at h
      split at h
      · cases h
      · split at h <;> cases h
        rfl

/-- A walk that comes to its end ends where its pieces say. -/
theorem eq_foldl_step_of_walk {start place : Location} {pieces : List Path.Piece}
    (h : disk.walk start pieces = .ok place) : place = pieces.foldl Path.step start := by
  induction pieces generalizing start with
  | nil =>
    cases h
    rfl
  | cons piece rest ih =>
    simp only [walk, List.foldlM_cons, bind, Except.bind] at h
    split at h
    · cases h
    · rename_i next hnext
      rw [List.foldl_cons, ← eq_step_of_enter hnext]
      exact ih h

/-- A path that is located as a name is located at its place. -/
theorem eq_place_of_locate {path : Path} {place : Location} {slashes : Bool}
    (h : disk.locate path = .ok (.name place slashes)) : place = path.place := by
  unfold locate at h
  split at h
  · cases h
  · split at h
    · cases h
    · split at h
      · cases h
      · split at h
        · cases h
        · rename_i last before hpieces
          simp only [bind, Except.bind] at h
          split at h
          · cases h
          · rename_i parent hparent
            split at h
            · split at h <;> cases h
            · rename_i plain
              cases h
              -- the last piece is a name, and those in front of it were walked
              have hlist : path.pieces.filter (· ≠ []) = before.reverse ++ [last] := by
                rw [← List.reverse_reverse (path.pieces.filter (· ≠ [])), hpieces,
                  List.reverse_cons]
              rw [Path.place, hlist, List.foldl_append, ← eq_foldl_step_of_walk hparent]
              simp only [not_or] at plain
              simp [Path.step, plain]

/-! ## Directories stay -/

/-- Every directory of one disk is a directory of the other. -/
def KeepsDirectories (disk disk' : Disk) : Prop :=
  ∀ place, disk.node? place = some .directory → disk'.node? place = some .directory

/-- What can be entered still can be when no directory is gone. -/
theorem enter_mono (h : disk.KeepsDirectories disk') {place next : Location}
    {piece : Path.Piece} (hnext : disk.enter place piece = .ok next) :
    disk'.enter place piece = .ok next := by
  unfold enter entry at hnext ⊢
  split at hnext
  · rename_i hdot
    rwa [if_pos hdot]
  rename_i hdot
  rw [if_neg hdot]
  split at hnext
  · rename_i hup
    rwa [if_pos hup]
  rename_i hup
  rw [if_neg hup]
  -- a proper name: a step was taken, so the name is short and stands for a directory
  split at hnext
  · cases hnext
  rename_i hshort
  rw [if_neg hshort]
  simp only [bind, Except.bind] at hnext ⊢
  split at hnext
  · cases hnext
  · cases hnext
  · rename_i hdirectory
    rw [h _ hdirectory]
    exact hnext

/-- A walk comes to the same end when no directory is gone. -/
theorem walk_mono (h : disk.KeepsDirectories disk') {start place : Location}
    {pieces : List Path.Piece} (hplace : disk.walk start pieces = .ok place) :
    disk'.walk start pieces = .ok place := by
  induction pieces generalizing start with
  | nil => exact hplace
  | cons piece rest ih =>
    simp only [walk, List.foldlM_cons, bind, Except.bind] at hplace ⊢
    split at hplace
    · cases hplace
    · rename_i next hnext
      rw [enter_mono h hnext]
      exact ih hplace

/-- A path leads to the same place when no directory is gone. -/
theorem locate_mono (h : disk.KeepsDirectories disk') {path : Path} {target : Target}
    (htarget : disk.locate path = .ok target) : disk'.locate path = .ok target := by
  unfold locate at htarget ⊢
  -- a path as a whole is judged alike on both disks
  split at htarget
  · cases htarget
  rename_i hnul
  rw [if_neg hnul]
  split at htarget
  · cases htarget
  rename_i hempty
  rw [if_neg hempty]
  split at htarget
  · cases htarget
  rename_i hlong
  rw [if_neg hlong]
  split at htarget
  · exact htarget
  -- the pieces but the last are walked, and a last dot is a step too
  simp only [bind, Except.bind] at htarget ⊢
  split at htarget
  · cases htarget
  rename_i parent hparent
  rw [walk_mono h hparent]
  dsimp only
  split at htarget
  · rename_i hspecial
    rw [if_pos hspecial]
    split at htarget
    · cases htarget
    rename_i next hnext
    rw [enter_mono h hnext]
    exact htarget
  · rename_i hplain
    rw [if_neg hplain]
    exact htarget

/-- A change of leaves keeps the directories. -/
theorem Becomes.keepsDirectories {leaves : Leaves} (h : disk.Becomes leaves disk') :
    disk.KeepsDirectories disk' :=
  fun place hplace => (h.directory_iff place).mpr hplace

/-- Nor are there more of them behind it. -/
theorem Becomes.keepsDirectories' {leaves : Leaves} (h : disk.Becomes leaves disk') :
    disk'.KeepsDirectories disk :=
  fun place hplace => (h.directory_iff place).mp hplace

/-! ## Paths that may name a file -/

/-- The path leads to a name in a directory that is there. -/
structure Reaches (disk : Disk) (path : Path) : Prop where
  locate_eq : disk.locate path = .ok (.name path.place false)
  short : (Utf8.encode (path.place.headD [])).length ≤ longestName

/-- The path leads to a name that no directory has. -/
structure Admits (disk : Disk) (path : Path) : Prop extends disk.Reaches path where
  node_ne : disk.node? path.place ≠ some .directory

/-- A path that can be followed still can be when no directory is gone. -/
theorem Reaches.mono (h : disk.KeepsDirectories disk') {path : Path} (hpath : disk.Reaches path) :
    disk'.Reaches path :=
  ⟨locate_mono h hpath.locate_eq, hpath.short⟩

/-- A change of leaves opens no path and closes none. -/
theorem Becomes.reaches_iff {leaves : Leaves} (h : disk.Becomes leaves disk') {path : Path} :
    disk'.Reaches path ↔ disk.Reaches path :=
  ⟨Reaches.mono h.keepsDirectories', Reaches.mono h.keepsDirectories⟩

/-- Nor does it matter to where files may be. -/
theorem Becomes.admits_iff {leaves : Leaves} (h : disk.Becomes leaves disk') {path : Path} :
    disk'.Admits path ↔ disk.Admits path :=
  ⟨fun hpath => ⟨h.reaches_iff.mp hpath.toReaches,
      fun hnode => hpath.node_ne ((h.directory_iff _).mpr hnode)⟩,
    fun hpath => ⟨h.reaches_iff.mpr hpath.toReaches,
      fun hnode => hpath.node_ne ((h.directory_iff _).mp hnode)⟩⟩

/-- Where a path can be followed, the entry is what stands at its place. -/
theorem Reaches.entry_eq {path : Path} (h : disk.Reaches path) :
    disk.entry path.place = .ok (disk.node? path.place) := by
  have := h.short
  rw [entry, if_neg (by omega)]

/-- A path that leads elsewhere cannot be followed. -/
theorem not_reaches_of_locate {path : Path}
    (h : disk.locate path ≠ .ok (.name path.place false)) : ¬ disk.Reaches path :=
  fun hreaches => h hreaches.locate_eq

/-- A path without an entry cannot be followed. -/
theorem not_reaches_of_entry {path : Path} {cause : IoFault}
    (h : disk.entry path.place = .error cause) : ¬ disk.Reaches path := by
  intro hreaches
  rw [hreaches.entry_eq] at h
  cases h

theorem not_admits_of_locate {path : Path}
    (h : disk.locate path ≠ .ok (.name path.place false)) : ¬ disk.Admits path :=
  fun hadmits => not_reaches_of_locate h hadmits.toReaches

theorem not_admits_of_entry {path : Path} {cause : IoFault}
    (h : disk.entry path.place = .error cause) : ¬ disk.Admits path :=
  fun hadmits => not_reaches_of_entry h hadmits.toReaches

/-- What stands at a name in an existing directory. -/
theorem Reaches.nodeAt_eq {path : Path} (h : disk.Reaches path) :
    disk.nodeAt path = match disk.node? path.place with
      | none => .error .notFound
      | some node => .ok node := by
  simp only [nodeAt, h.locate_eq, h.entry_eq, bind, Except.bind]
  split
  · rename_i hnode
    rw [hnode]
    rfl
  · rename_i hnode
    rw [hnode]
    rfl
  · rename_i hnode
    rw [hnode]
    rfl

/-- Reading at a name that no directory has finds the file there, if there is one. -/
theorem Admits.read_eq {path : Path} (h : disk.Admits path) :
    (disk.leaf path.place = none ∧ disk.read path = .error .notFound) ∨
      ∃ id contents, disk.leaf path.place = some (id, contents.toBytes) ∧
        disk.read path = .ok contents := by
  simp only [read, fileAt, h.nodeAt_eq]
  rcases hnode : disk.node? path.place with _ | _ | id
  · exact .inl ⟨leaf_of_vacant hnode, rfl⟩
  · exact absurd hnode h.node_ne
  · exact .inr ⟨id, disk.contents id, leaf_of_file hnode, rfl⟩

/-- A path that was located as a name, and whose name was looked up, reaches it. -/
theorem reaches_of_locate {path : Path} {place : Location} {node : Option Node}
    (hlocate : disk.locate path = .ok (.name place false))
    (hentry : disk.entry place = .ok node) : disk.Reaches path ∧ disk.node? path.place = node := by
  obtain rfl := eq_place_of_locate hlocate
  unfold entry at hentry
  split at hentry
  · cases hentry
  · rename_i hshort
    cases hentry
    exact ⟨⟨hlocate, by omega⟩, rfl⟩

/-- A path that leads to a file reaches its name. -/
theorem reaches_of_file {path : Path} {id : FileId} (h : disk.nodeAt path = .ok (.file id)) :
    disk.Reaches path := by
  simp only [nodeAt, bind, Except.bind] at h
  split at h
  · cases h
  rename_i target hlocate
  cases target with
  | directory => cases h
  | name place slashes =>
    dsimp only at h
    split at h
    · cases h
    rename_i node hentry
    cases slashes with
    | true => rcases node with _ | _ | _ <;> cases h
    | false => exact (reaches_of_locate hlocate hentry).1

/-! ## Changes at some places -/

/-- The disk is well formed, has the directories of `start`, and differs from it at these places
only. -/
structure Changes (start : Disk) (places : Set Location) (disk : Disk) : Prop where
  wellFormed : disk.WellFormed
  directory_iff (place : Location) :
    disk.node? place = some .directory ↔ start.node? place = some .directory
  leaf_eq {place : Location} : place ∉ places → disk.leaf place = start.leaf place

namespace Changes

variable {start middle : Disk} {places places' : Set Location}

theorem refl (h : disk.WellFormed) : disk.Changes places disk :=
  ⟨h, fun _ => Iff.rfl, fun _ => rfl⟩

/-- Changes at these places, one behind the other, are changes at these places. -/
theorem trans (h : start.Changes places middle) (h' : middle.Changes places disk) :
    start.Changes places disk :=
  ⟨h'.wellFormed, fun place => (h'.directory_iff place).trans (h.directory_iff place),
    fun hplace => (h'.leaf_eq hplace).trans (h.leaf_eq hplace)⟩

/-- More places may change. -/
theorem mono (h : start.Changes places disk) (hsubset : places ⊆ places') :
    start.Changes places' disk :=
  ⟨h.wellFormed, h.directory_iff, fun hplace => h.leaf_eq fun hmem => hplace (hsubset hmem)⟩

/-- A change at some places, and then one at others. -/
theorem trans_union (h : start.Changes places middle) (h' : middle.Changes places' disk) :
    start.Changes (places ∪ places') disk :=
  (h.mono Set.subset_union_left).trans (h'.mono Set.subset_union_right)

/-- A place that has what it had in front does not count as changed. -/
theorem of_leaf_eq (h : start.Changes places disk) {place : Location}
    (hsame : disk.leaf place = start.leaf place) : start.Changes (places \ {place}) disk := by
  refine ⟨h.wellFormed, h.directory_iff, fun {other} hother => ?_⟩
  by_cases heq : other = place
  · rw [heq, hsame]
  · exact h.leaf_eq fun hmem => hother ⟨hmem, heq⟩

theorem becomes (h : start.Changes places disk) : start.Becomes disk.leaf disk :=
  ⟨h.wellFormed, h.directory_iff, rfl⟩

/-- The files at other places have the bytes they had. -/
theorem bytesAt_eq (h : start.Changes places disk) {place : Location} (hplace : place ∉ places) :
    disk.bytesAt place = start.bytesAt place := by
  rw [bytesAt, h.leaf_eq hplace, bytesAt]

theorem reaches_iff (h : start.Changes places disk) {path : Path} :
    disk.Reaches path ↔ start.Reaches path :=
  h.becomes.reaches_iff

theorem admits_iff (h : start.Changes places disk) {path : Path} :
    disk.Admits path ↔ start.Admits path :=
  h.becomes.admits_iff

end Changes

/-- Updates of the map from names to files change those names only. -/
theorem Becomes.changes {start : Disk} {leaves : Leaves} {places : Set Location}
    (h : start.Becomes leaves disk)
    (hsame : ∀ place, place ∉ places → leaves place = start.leaf place) :
    start.Changes places disk :=
  ⟨h.wellFormed, h.directory_iff, fun hplace => h.leaf_eq ▸ hsame _ hplace⟩

/-- One leaf that changes is a change at its place. -/
theorem Becomes.changes_update {start : Disk} {place : Location} {file : Option (FileId × Bytes)}
    (h : start.Becomes (Function.update start.leaf place file) disk) :
    start.Changes {place} disk :=
  h.changes fun _ hother => Function.update_of_ne hother _ _

/-- Two leaves that change are a change at their places. -/
theorem Becomes.changes_move {start : Disk} {source target : Location}
    {file file' : Option (FileId × Bytes)}
    (h : start.Becomes (Function.update (Function.update start.leaf source file) target file') disk) :
    start.Changes {source, target} disk := by
  refine h.changes fun other hother => ?_
  simp only [Set.mem_insert_iff, Set.mem_singleton_iff, not_or] at hother
  rw [Function.update_of_ne hother.2, Function.update_of_ne hother.1]

/-- A file whose end is cut off keeps the bytes in front. -/
theorem changes_truncate {disk : Disk} (h : disk.WellFormed) {place : Location} {id : FileId}
    {bytes : Bytes} (hleaf : disk.leaf place = some (id, bytes)) {stop : Nat}
    (hstop : stop ≤ bytes.length) : disk.Changes {place} (disk.apply (.resize id stop)) ∧
      (disk.apply (.resize id stop)).leaf place = some (id, bytes.take stop) := by
  have hbecomes := becomes_resize h hleaf stop
  refine ⟨hbecomes.changes_update, ?_⟩
  rw [hbecomes.leaf_eq, Function.update_self, Bytes.resize, Nat.sub_eq_zero_of_le hstop,
    List.replicate_zero, List.append_nil]

/-! ## Directories are added -/

/-- The directory that is to hold a file is there, or the path has none in front of it. -/
def HasParent (disk : Disk) (path : Path) : Prop :=
  ∀ parent, path.parent? = some parent → parent.chars = [] ∨ disk.isDirectory parent = true

/-- A directory is still one when no directory is gone. -/
theorem isDirectory_mono (h : disk.KeepsDirectories disk') {path : Path}
    (hpath : disk.isDirectory path = true) : disk'.isDirectory path = true := by
  unfold isDirectory at hpath ⊢
  have hnode : disk.nodeAt path = .ok .directory := by
    split at hpath
    · assumption
    · cases hpath
  -- that the path leads to a directory is all that counts
  suffices hnode' : disk'.nodeAt path = .ok .directory by rw [hnode']
  unfold nodeAt at hnode ⊢
  simp only [bind, Except.bind] at hnode ⊢
  split at hnode
  · cases hnode
  · rename_i target htarget
    rw [locate_mono h htarget]
    cases target with
    | directory => rfl
    | name place slashes =>
      unfold entry at hnode ⊢
      dsimp only at hnode ⊢
      by_cases hlong : longestName < (Utf8.encode (place.headD [])).length
      · rw [if_pos hlong] at hnode
        cases hnode
      · rw [if_neg hlong] at hnode ⊢
        rcases hplace : disk.node? place with _ | _ | id <;> rw [hplace] at hnode
        · cases hnode
        · rw [h place hplace]
          rfl
        · dsimp only at hnode
          split at hnode <;> cases hnode

/-- So is the directory that a file is in. -/
theorem HasParent.mono (h : disk.KeepsDirectories disk') {path : Path} (hpath : disk.HasParent path) :
    disk'.HasParent path :=
  fun parent hparent => (hpath parent hparent).imp_right (isDirectory_mono h)

/-- The disk has gained directories where nothing was, and nothing else has changed. -/
structure Grows (start disk : Disk) : Prop where
  wellFormed : disk.WellFormed
  keepsDirectories : start.KeepsDirectories disk
  leaf_eq : disk.leaf = start.leaf

theorem Grows.refl {disk : Disk} (h : disk.WellFormed) : disk.Grows disk :=
  ⟨h, fun _ => id, rfl⟩

/-- A disk that grows twice grows. -/
theorem Grows.trans {start middle last : Disk} (h : start.Grows middle) (h' : middle.Grows last) :
    start.Grows last :=
  ⟨h'.wellFormed, fun place hplace => h'.keepsDirectories place (h.keepsDirectories place hplace),
    h'.leaf_eq.trans h.leaf_eq⟩

/-- A disk with a new directory has grown. -/
theorem grows_makeDirectory (h : disk.WellFormed) {place : Location}
    (hvacant : disk.node? place = none) : disk.Grows (disk.apply (.makeDirectory place)) := by
  have hnode := node?_makeDirectory hvacant
  refine ⟨h.apply _, fun other hother => ?_, ?_⟩
  · rw [hnode]
    split
    · rfl
    · exact hother
  · funext other
    by_cases same : place = other
    · subst same
      -- neither nothing nor a directory is a file
      rw [leaf_of_vacant hvacant, leaf_of_directory (by rw [hnode, if_pos rfl])]
    · exact leaf_apply_of_nodes (by rw [hnode, if_neg same]) fun _ _ => rfl

/-! ## Directories come and go -/

/-- The disk has the directories of `base`, and more of them at these places. -/
structure Encumbered (base : Disk) (places : Set Location) (disk : Disk) : Prop where
  directory_iff (place : Location) : disk.node? place = some .directory ↔
    base.node? place = some .directory ∨ place ∈ places
  free {place : Location} : place ∈ places → base.node? place ≠ some .directory

namespace Encumbered

variable {base base' : Disk} {places places' : Set Location} {place : Location}

theorem refl (disk : Disk) : disk.Encumbered ∅ disk where
  directory_iff _ := by simp
  free hplace := absurd hplace (Set.notMem_empty _)

/-- Files may change. -/
theorem of_changes (h : base.Encumbered places disk) (hchanges : disk.Changes places' disk') :
    base.Encumbered places disk' :=
  ⟨fun place => (hchanges.directory_iff place).trans (h.directory_iff place), h.free⟩

/-- What is in the way is in the way of a changed disk, too. -/
theorem of_changes_base (h : base.Encumbered places disk) (hchanges : base.Changes places' base') :
    base'.Encumbered places disk where
  directory_iff place := by rw [h.directory_iff, hchanges.directory_iff]
  free hplace hdirectory := h.free hplace ((hchanges.directory_iff _).mp hdirectory)

theorem keepsDirectories (h : base.Encumbered places disk) : base.KeepsDirectories disk :=
  fun place hplace => (h.directory_iff place).mpr (.inl hplace)

/-- A path that may name a file still does unless one of the directories has its name. -/
theorem admits (h : base.Encumbered places disk) {path : Path} (hpath : base.Admits path)
    (hfree : path.place ∉ places) : disk.Admits path :=
  ⟨hpath.toReaches.mono h.keepsDirectories,
    fun hnode => ((h.directory_iff _).mp hnode).elim hpath.node_ne hfree⟩

/-- Another directory is made. -/
theorem insert (h : base.Encumbered places disk) (hvacant : disk.node? place = none) :
    base.Encumbered (insert place places) (disk.apply (.makeDirectory place)) where
  directory_iff other := by
    rw [node?_makeDirectory hvacant, Set.mem_insert_iff]
    split
    · rename_i same
      simp [same]
    · rename_i different
      rw [h.directory_iff]
      simp [Ne.symm different]
  free := by
    rintro other (rfl | hother)
    · -- a directory of `base` would be there
      intro hdirectory
      rw [(h.directory_iff other).mpr (.inl hdirectory)] at hvacant
      cases hvacant
    · exact h.free hother

/-- One of the directories is taken away. -/
theorem erase (h : base.Encumbered places disk) (hplace : place ∈ places) :
    base.Encumbered (places \ {place}) (disk.apply (.remove place)) where
  directory_iff other := by
    rw [node?_remove (ne_nil_of_node? base (h.free hplace))]
    split
    · rename_i same
      subst same
      simp [h.free hplace]
    · rename_i different
      rw [h.directory_iff]
      simp [Ne.symm different]
  free hother := h.free hother.1

/-- No file goes with it. -/
theorem leaf_erase (h : base.Encumbered places disk) (hplace : place ∈ places) :
    (disk.apply (.remove place)).leaf = disk.leaf := by
  have hdirectory := (h.directory_iff place).mpr (.inr hplace)
  funext other
  by_cases same : place = other
  · subst same
    rw [leaf_of_directory hdirectory, leaf_of_vacant]
    rw [node?_remove (ne_nil_of_node? base (h.free hplace)), if_pos rfl]
  · refine leaf_apply_of_nodes ?_ fun _ _ => rfl
    rw [node?_remove (ne_nil_of_node? base (h.free hplace)), if_neg same]

end Encumbered

end Disk

end BarrierStore
