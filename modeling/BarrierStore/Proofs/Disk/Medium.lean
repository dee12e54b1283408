import BarrierStore.Proofs.Disk.Operations

/-!
# What has reached the medium

Of every file a front part has reached the medium. An operation on files takes nothing away from that,
except at the names that it is about: there a file may be emptied, replaced or removed. A file that is
replaced has reached the medium as a whole before it gets its name.

The module introduces:

* `Disk.durableAt` — how many bytes of the file at a name have reached the medium, and `Disk.Firm`, all
  of them have;
* `Disk.Spares start places disk` — `disk` differs from `start` at these places only, and of the other
  files no less has reached the medium;
* `Disk.Loses` — what a loss of power leaves;
* `Disk.Prolongs start places disk` — the same, but the other files may have been written on.

Main statements: `Drive.spares_create`, `Drive.spares_write`, `Drive.spares_sync`,
`Drive.spares_remove` and `Drive.spares_replaceFile`, which say what each operation spares, also while it
runs; `Drive.prolongs_append`; and `Drive.Achieves.and`, by which what they say is added to what else is
known of an operation.
-/

namespace BarrierStore

namespace Disk

/-- How many bytes of the file at a name have reached the medium; none where there is no file. -/
def durableAt (disk : Disk) (place : Location) : Nat :=
  match disk.node? place with
  | some (.file id) => min (disk.file id).durable (disk.contents id).length
  | _ => 0

/-- Whatever file is at the name, all of it has reached the medium. -/
def Firm (disk : Disk) (place : Location) : Prop :=
  ∀ bytes, disk.bytesAt place = some bytes → bytes.length ≤ disk.durableAt place

variable {disk disk' start middle : Disk} {place : Location} {places places' : Set Location}

/-- So many bytes of a file have reached the medium. -/
theorem durableAt_of_file {id : FileId} (h : disk.node? place = some (.file id)) :
    disk.durableAt place = min (disk.file id).durable (disk.contents id).length := by
  rw [durableAt, h]

/-- That number depends on the file alone that stands at the place. -/
theorem durableAt_of_nodes (hnode : disk'.node? place = disk.node? place)
    (hfile : ∀ id, disk.node? place = some (.file id) → disk'.file id = disk.file id) :
    disk'.durableAt place = disk.durableAt place := by
  unfold durableAt contents
  rw [hnode]
  split
  · rename_i id hid
    rw [hfile id hid]
  · rfl

/-- Where no file is, nothing is missing on the medium. -/
theorem firm_of_vacant (h : disk.bytesAt place = none) : disk.Firm place :=
  fun _ hbytes => nomatch h.symm.trans hbytes

/-- Only one file is set. -/
theorem file_setFile (disk : Disk) (id other : FileId) (file : File) :
    (disk.setFile id file).file other = if other = id then file else disk.file other := by
  simp only [Disk.file, setFile, Std.ExtTreeMap.getD_insert, Std.compare_eq_iff_eq]
  split <;> split <;> simp_all

/-! ## The effects -/

/-- Another file under the identity at a name makes no difference at other names. -/
theorem durableAt_setFile_of_ne (h : disk.WellFormed) {id : FileId}
    (hfile : disk.node? place = some (.file id)) (file : File) {other : Location}
    (hne : other ≠ place) : (disk.setFile id file).durableAt other = disk.durableAt other := by
  refine durableAt_of_nodes rfl fun id' hid' => ?_
  rw [file_setFile, if_neg]
  rintro rfl
  -- a second name of the file would be the same name
  exact hne (h.single (nodes_of_node?_file hid') (nodes_of_node?_file hfile))

/-- After a sync, all of a file has reached the medium. -/
theorem durableAt_sync {id : FileId} (hfile : disk.node? place = some (.file id)) :
    (disk.apply (.sync id)).durableAt place = (disk.contents id).length := by
  have hnode : (disk.apply (.sync id)).node? place = some (.file id) := hfile
  rw [durableAt_of_file hnode, contents, Disk.apply, file_setFile, if_pos rfl, Nat.min_self]

/-- A sync takes nothing from the medium. -/
theorem durableAt_le_sync (disk : Disk) (id : FileId) (place : Location) :
    disk.durableAt place ≤ (disk.apply (.sync id)).durableAt place := by
  rcases hnode : disk.node? place with _ | _ | other
  · simp [durableAt, hnode]
  · simp [durableAt, hnode]
  · by_cases hsame : other = id
    · subst hsame
      rw [durableAt_sync hnode, durableAt_of_file hnode]
      exact Nat.min_le_right _ _
    · have hkept : (disk.apply (.sync id)).durableAt place = disk.durableAt place := by
        refine durableAt_of_nodes rfl fun found hfound => ?_
        obtain rfl : other = found := by simpa [hnode] using hfound
        rw [Disk.apply, file_setFile, if_neg hsame]
      exact Nat.le_of_eq hkept.symm

/-- A write at the end takes nothing from the medium. -/
theorem durableAt_write_end {id : FileId} (hfile : disk.node? place = some (.file id))
    (data : Bytes) :
    (disk.apply (.write id (disk.contents id).length data)).durableAt place =
      disk.durableAt place := by
  have hnode : (disk.apply (.write id (disk.contents id).length data)).node? place =
      some (.file id) := hfile
  have hlength : ((disk.contents id).overwrite (disk.contents id).length data).length =
      (disk.contents id).length + data.length := by
    have hsame : (disk.contents id).length = (disk.contents id).toBytes.length := by simp
    rw [← Contents.length_toBytes, Contents.toBytes_overwrite, hsame, Bytes.overwrite_length,
      List.length_append]
  have hwritten : (disk.apply (.write id (disk.contents id).length data)).file id =
      ⟨(disk.contents id).overwrite (disk.contents id).length data,
        min (disk.file id).durable (disk.contents id).length⟩ := by
    rw [Disk.apply, file_setFile, if_pos rfl]
  rw [durableAt_of_file hnode, durableAt_of_file hfile, show (disk.apply _).contents id = _ from
    congrArg File.contents hwritten, hwritten]
  dsimp only
  rw [hlength]
  omega

/-- A new file makes no difference at other names. -/
theorem durableAt_create_of_ne (h : disk.WellFormed) {other : Location} (hne : other ≠ place) :
    (disk.apply (.create place)).durableAt other = disk.durableAt other := by
  refine durableAt_of_nodes ?_ fun id hid => ?_
  · cases other with
    | nil => rfl
    | cons => simp [node?, Disk.apply, Std.ExtTreeMap.getElem?_insert, hne.symm]
  · -- the files of the other names were made before this one
    have hknown := h.known (nodes_of_node?_file hid)
    have hne : ¬ disk.nextFile = id := Nat.ne_of_gt hknown
    simp [Disk.file, Disk.apply, Std.ExtTreeMap.getD_insert, hne]

/-- A link that is removed does not matter to files elsewhere. -/
theorem durableAt_remove_of_ne {other : Location} (hne : other ≠ place) :
    (disk.apply (.remove place)).durableAt other = disk.durableAt other := by
  refine durableAt_of_nodes ?_ fun _ _ => rfl
  cases other with
  | nil => rfl
  | cons => simp [node?, Disk.apply, Std.ExtTreeMap.getElem?_erase, hne.symm]

section Rename

variable {source target : Location} {id : FileId} (hfile : disk.node? source = some (.file id))

include hfile

/-- What has reached the medium moves with the link. -/
theorem durableAt_rename_target (hsafe : disk.node? target ≠ some .directory) :
    (disk.apply (.rename source target)).durableAt target = disk.durableAt source := by
  have htarget : target ≠ [] := ne_nil_of_node? disk hsafe
  have hnode : (disk.apply (.rename source target)).node? target = some (.file id) := by
    rw [node?_of_ne_nil htarget]
    simp [Disk.apply, nodes_of_node?_file hfile]
  have hsame : (disk.apply (.rename source target)).file id = disk.file id := by
    simp [Disk.file, Disk.apply, nodes_of_node?_file hfile]
  rw [durableAt_of_file hnode, durableAt_of_file hfile, contents, hsame, contents]

/-- Nor does a link that is moved. -/
theorem durableAt_rename_of_ne {other : Location} (hsource : other ≠ source)
    (htarget : other ≠ target) :
    (disk.apply (.rename source target)).durableAt other = disk.durableAt other := by
  refine durableAt_of_nodes ?_ fun _ _ => ?_
  · cases other with
    | nil => rfl
    | cons =>
      simp [node?, Disk.apply, nodes_of_node?_file hfile, Std.ExtTreeMap.getElem?_insert,
        Std.ExtTreeMap.getElem?_erase, hsource.symm, htarget.symm]
  · simp [Disk.file, Disk.apply, nodes_of_node?_file hfile]

end Rename

/-! ## Sparing other files -/

/-- The disk differs from `start` at these places only, and of the files at other places no less has
reached the medium. -/
structure Spares (start : Disk) (places : Set Location) (disk : Disk) : Prop
    extends start.Changes places disk where
  durable_le {place : Location} : place ∉ places → start.durableAt place ≤ disk.durableAt place

namespace Spares

theorem refl (h : disk.WellFormed) : disk.Spares places disk :=
  ⟨.refl h, fun _ => Nat.le_refl _⟩

/-- What is spared twice is spared. -/
theorem trans (h : start.Spares places middle) (h' : middle.Spares places disk) :
    start.Spares places disk :=
  ⟨h.toChanges.trans h'.toChanges, fun hplace =>
    Nat.le_trans (h.durable_le hplace) (h'.durable_le hplace)⟩

/-- More places may be written to. -/
theorem mono (h : start.Spares places disk) (hsubset : places ⊆ places') :
    start.Spares places' disk :=
  ⟨h.toChanges.mono hsubset, fun hplace => h.durable_le fun hmem => hplace (hsubset hmem)⟩

/-- A file that is spared stays on the medium. -/
theorem firm (h : start.Spares places disk) (hplace : place ∉ places) (hfirm : start.Firm place) :
    disk.Firm place := by
  intro bytes hbytes
  rw [h.bytesAt_eq hplace] at hbytes
  exact Nat.le_trans (hfirm bytes hbytes) (h.durable_le hplace)

end Spares

/-- To wait for the medium spares all files. -/
theorem spares_sync (h : disk.WellFormed) (id : FileId) :
    disk.Spares ∅ (disk.apply (.sync id)) :=
  ⟨(becomes_sync h id).changes fun _ _ => rfl, fun _ => durableAt_le_sync disk id _⟩

/-- After a sync, all of the file has reached the medium. -/
theorem firm_sync {id : FileId} (hfile : disk.node? place = some (.file id)) :
    (disk.apply (.sync id)).Firm place := by
  intro bytes hbytes
  have hleaf : (disk.apply (.sync id)).leaf place = some (id, (disk.contents id).toBytes) := by
    refine leaf_eq_some_iff.mpr ⟨hfile, ?_⟩
    rw [contents, Disk.apply, file_setFile, if_pos rfl]
  rw [bytesAt_of_leaf hleaf] at hbytes
  rw [durableAt_sync hfile, ← Option.some.inj hbytes, Contents.length_toBytes]

/-- A file that is set is the only one that is not spared. -/
theorem spares_setFile (h : disk.WellFormed) {id : FileId} {bytes : Bytes}
    (hleaf : disk.leaf place = some (id, bytes)) (file : File) :
    disk.Spares {place} (disk.setFile id file) :=
  ⟨(becomes_setFile h hleaf file).changes_update, fun hother =>
    Nat.le_of_eq (durableAt_setFile_of_ne h (leaf_eq_some_iff.mp hleaf).1 file hother).symm⟩

/-- A file that moves spares those of other names. -/
theorem spares_rename (h : disk.WellFormed) {source target : Location} {id : FileId}
    (hfile : disk.node? source = some (.file id)) (hsafe : disk.node? target ≠ some .directory) :
    disk.Spares {source, target} (disk.apply (.rename source target)) := by
  refine ⟨(becomes_rename h hfile hsafe).changes_move, fun {other} hplace => ?_⟩
  simp only [Set.mem_insert_iff, Set.mem_singleton_iff, not_or] at hplace
  exact Nat.le_of_eq (durableAt_rename_of_ne hfile hplace.1 hplace.2).symm

/-- A file that has reached the medium is there under its new name too. -/
theorem firm_rename (h : disk.WellFormed) {source target : Location} {id : FileId}
    (hfile : disk.node? source = some (.file id)) (hsafe : disk.node? target ≠ some .directory)
    (hfirm : disk.Firm source) : (disk.apply (.rename source target)).Firm target := by
  intro bytes hbytes
  rw [bytesAt, (becomes_rename h hfile hsafe).leaf_eq, Function.update_self] at hbytes
  rw [durableAt_rename_target hfile hsafe]
  refine hfirm bytes ?_
  rw [← hbytes, bytesAt, leaf_of_file hfile]

/-! ## Power loss -/

/-- What a loss of power leaves: of each file a front part, and at least the one that has reached the
medium. -/
structure Loses (disk left : Disk) : Prop where
  nodes_eq : left.nodes = disk.nodes
  nextFile_eq : left.nextFile = disk.nextFile
  isPrefix (id : FileId) : (left.contents id).toBytes <+: (disk.contents id).toBytes
  durable_le (id : FileId) : min (disk.file id).durable (disk.contents id).length ≤
    min (left.file id).durable (left.contents id).length

namespace Loses

variable {left : Disk}

theorem refl (disk : Disk) : disk.Loses disk :=
  ⟨rfl, rfl, fun _ => List.prefix_refl _, fun _ => Nat.le_refl _⟩

/-- A loss of power takes no link away and brings none back. -/
theorem node?_eq (h : disk.Loses left) (place : Location) : left.node? place = disk.node? place := by
  cases place with
  | nil => rfl
  | cons => exact congrArg (·[_]?) h.nodes_eq

/-- Files of which everything has reached the medium are spared by a loss of power. -/
theorem spares (h : disk.Loses left) (hwell : disk.WellFormed) :
    disk.Spares {place | ¬ disk.Firm place} left where
  wellFormed := by
    refine hwell.of_links (Nat.le_of_eq h.nextFile_eq.symm) fun place id hid => ?_
    rwa [h.nodes_eq] at hid
  directory_iff place := by rw [h.node?_eq]
  leaf_eq {place} hplace := by
    have hfirm : disk.Firm place := not_not.mp hplace
    rcases hnode : disk.node? place with _ | _ | id
    · rw [leaf_of_vacant hnode, leaf_of_vacant ((h.node?_eq place).trans hnode)]
    · rw [leaf_of_directory hnode, leaf_of_directory ((h.node?_eq place).trans hnode)]
    · -- none of its bytes is behind the part that has reached the medium
      have hlength := hfirm _ (bytesAt_of_leaf (leaf_of_file hnode))
      have hleft := h.durable_le id
      rw [durableAt_of_file hnode, Contents.length_toBytes] at hlength
      have hsame := (h.isPrefix id).eq_of_length_le (by
        rw [Contents.length_toBytes, Contents.length_toBytes]
        omega)
      rw [leaf_of_file hnode, leaf_of_file ((h.node?_eq place).trans hnode), hsame]
  durable_le {place} _ := by
    rcases hnode : disk.node? place with _ | _ | id
    · simp [durableAt, hnode]
    · simp [durableAt, hnode]
    · rw [durableAt_of_file hnode, durableAt_of_file ((h.node?_eq place).trans hnode)]
      exact h.durable_le id

end Loses

/-! ## Writing on -/

/-- The disk has the directories of `start`, and at all but these places the files of `start`, with
their bytes and perhaps more behind them; of the bytes that they had no less has reached the medium. -/
structure Prolongs (start : Disk) (places : Set Location) (disk : Disk) : Prop where
  wellFormed : disk.WellFormed
  directory_iff (place : Location) :
    disk.node? place = some .directory ↔ start.node? place = some .directory
  exists_more {place : Location} {id : FileId} {bytes : Bytes} : place ∉ places →
    start.leaf place = some (id, bytes) → ∃ more, disk.leaf place = some (id, bytes ++ more)
  durable_le {place : Location} : place ∉ places → start.durableAt place ≤ disk.durableAt place

namespace Prolongs

theorem refl (h : disk.WellFormed) : disk.Prolongs places disk :=
  ⟨h, fun _ => Iff.rfl, fun _ hleaf => ⟨[], by rw [hleaf, List.append_nil]⟩, fun _ => Nat.le_refl _⟩

/-- A path that can be followed still can be. -/
theorem reaches (h : start.Prolongs places disk) {path : Path} (hpath : start.Reaches path) :
    disk.Reaches path :=
  hpath.mono fun place hplace => (h.directory_iff place).mpr hplace

end Prolongs

/-- Files that are spared are prolonged by nothing. -/
theorem Spares.prolongs (h : start.Spares places disk) : start.Prolongs places disk :=
  ⟨h.wellFormed, h.directory_iff, fun hplace hleaf =>
    ⟨[], by rw [h.leaf_eq hplace, hleaf, List.append_nil]⟩, fun hplace => h.durable_le hplace⟩

/-- Writing at the end of a file prolongs it. -/
theorem prolongs_write_end (h : disk.WellFormed) {id : FileId} {bytes : Bytes}
    (hleaf : disk.leaf place = some (id, bytes)) (data : Bytes) :
    disk.Prolongs ∅ (disk.apply (.write id bytes.length data)) where
  wellFormed := h.apply _
  directory_iff _ := Iff.rfl
  exists_more {other file found} _ hother := by
    have hbecomes := becomes_write h hleaf bytes.length data
    rw [Bytes.overwrite_length] at hbecomes
    rw [hbecomes.leaf_eq]
    by_cases hsame : other = place
    · subst hsame
      obtain ⟨rfl, rfl⟩ : id = file ∧ bytes = found := by simpa [hleaf] using hother
      exact ⟨data, Function.update_self _ _ _⟩
    · exact ⟨[], by rw [Function.update_of_ne hsame, hother, List.append_nil]⟩
  durable_le {other} _ := by
    obtain ⟨hfile, -⟩ := leaf_eq_some_iff.mp hleaf
    by_cases hsame : other = place
    · subst hsame
      rw [← length_contents_of_leaf hleaf, durableAt_write_end hfile]
    · exact Nat.le_of_eq (durableAt_setFile_of_ne h hfile _ hsame).symm

end Disk

namespace Drive

variable {α : Type} {start : Disk}

/-! ## The operations -/

/-- What is known of a program from two sides is known at once, since both speak of the same run. -/
theorem Meets.and {program : StateM Drive α} {during during' : Disk → Prop}
    {after after' : α → Disk → Prop} (h : Meets program start during after)
    (h' : Meets program start during' after') :
    Meets program start (fun disk => during disk ∧ during' disk)
      fun a disk => after a disk ∧ after' a disk := by
  intro past
  obtain ⟨effects, hrun, hcrash, hafter⟩ := h past
  obtain ⟨others, hrun', hcrash', hafter'⟩ := h' past
  -- the history tells which effects were performed
  have hsame : effects.reverse = others.reverse :=
    List.append_cancel_right (congrArg Drive.effects (hrun.symm.trans hrun'))
  obtain rfl : effects = others := List.reverse_inj.mp hsame
  exact ⟨effects, hrun, fun left hleft => ⟨hcrash left hleft, hcrash' left hleft⟩, hafter, hafter'⟩

/-- What is known of an operation from two sides is known at once. -/
theorem Achieves.and {operation : DiskM α} {during during' : Disk → Prop}
    {done done' : α → Disk → Prop} {failed failed' : Fault → Disk → Prop}
    (h : Achieves operation start during done failed)
    (h' : Achieves operation start during' done' failed') :
    Achieves operation start (fun disk => during disk ∧ during' disk)
      (fun a disk => done a disk ∧ done' a disk)
      (fun fault disk => failed fault disk ∧ failed' fault disk) := by
  refine (Meets.and h h').imp fun outcome disk _ hboth => ?_
  cases outcome with
  | ok a => exact hboth
  | error fault => exact hboth

section Relation

variable {β : Type} (R : Disk → Disk → Prop)
  (htrans : ∀ {first second third}, R first second → R second third → R first third)

include htrans

/-- Where every program keeps a relation to the disk that it starts from, so do two in a row. -/
theorem Meets.bind_trans {program : StateM Drive α} {next : α → StateM Drive β}
    {m : α → Disk → Prop} {after : β → Disk → Prop} (h : Meets program start (R start) m)
    (hnext : ∀ a disk, m a disk → Meets (next a) disk (R disk) after) :
    Meets (program >>= next) start (R start) after :=
  h.bind fun a disk hdisk hmiddle =>
    (hnext a disk hmiddle).mono (fun _ hlast => htrans hdisk hlast) fun _ _ _ hafter => hafter

/-- Where every operation keeps a relation to the disk that it starts from, so do two in a row. -/
theorem Achieves.bind_trans {operation : DiskM α} {next : α → DiskM β} {m : α → Disk → Prop}
    {done : β → Disk → Prop} {failed : Fault → Disk → Prop}
    (h : Achieves operation start (R start) m failed)
    (hnext : ∀ a disk, m a disk → Achieves (next a) disk (R disk) done failed) :
    Achieves (operation >>= next) start (R start) done failed :=
  h.bind fun a disk hdisk hmiddle =>
    (hnext a disk hmiddle).mono (fun _ hlast => htrans hdisk hlast) (fun _ _ _ hdone => hdone)
      fun _ _ _ hfailed => hfailed

end Relation

variable {during : Disk → Prop}

/-- Opening a file for writing spares those of other names. -/
theorem spares_openForWriting (h : start.WellFormed) (path : Path) (truncate : Bool)
    (hduring : ∀ disk, start.Spares {path.place} disk → during disk) :
    Achieves (openForWriting path truncate) start during (fun _ => start.Spares {path.place})
      (fun _ disk => start = disk) := by
  have hbefore : during start := hduring start (.refl h)
  refine achieves_look_bind hbefore (fun _ _ => rfl) fun target htarget => ?_
  cases target with
  | directory => exact achieves_throw hbefore rfl
  | name place slashes =>
    obtain rfl := Disk.eq_place_of_locate htarget
    cases slashes with
    | true => exact achieves_throw hbefore rfl
    | false =>
      refine achieves_look_bind hbefore (fun _ _ => rfl) fun node hentry => ?_
      obtain ⟨-, hnode⟩ := Disk.reaches_of_locate htarget hentry
      rcases node with _ | _ | id
      · -- nothing is there: a new file
        have hspares : start.Spares {path.place} (start.apply (.create path.place)) :=
          ⟨(Disk.becomes_create h hnode).changes_update, fun hother =>
            Nat.le_of_eq (Disk.durableAt_create_of_ne h hother).symm⟩
        refine achieves_current_bind hbefore ?_
        refine Achieves.bind (m := fun _ => start.Spares {path.place})
          (achieves_lift (meets_perform (by simp) hbefore (hduring _ hspares) hspares)) ?_
        exact fun _ disk hdisk hspares => achieves_pure hdisk hspares
      · exact achieves_throw hbefore rfl
      · cases truncate with
        | true =>
          -- the file that is there is emptied
          have hspares := Disk.spares_setFile h (Disk.leaf_of_file hnode)
            ⟨(start.contents id).resize 0, min (start.file id).durable 0⟩
          refine Achieves.bind (m := fun _ => start.Spares {path.place})
            (achieves_lift (meets_perform (by simp) hbefore (hduring _ hspares) hspares)) ?_
          exact fun _ disk hdisk hspares => achieves_pure hdisk hspares
        | false => exact achieves_pure hbefore (.refl h)

/-- Creating a file spares those of other names. -/
theorem spares_create (h : start.WellFormed) (path : Path)
    (hduring : ∀ disk, start.Spares {path.place} disk → during disk) :
    Achieves (create path) start during (fun _ => start.Spares {path.place})
      (fun _ disk => start = disk) :=
  spares_openForWriting h path true hduring

/-- A write to an open file spares the others. -/
theorem spares_write (h : start.WellFormed) {place : Location} {id : FileId} {bytes : Bytes}
    (hleaf : start.leaf place = some (id, bytes)) (offset : Nat) (data : Bytes)
    (hduring : ∀ disk, start.Spares {place} disk → during disk) :
    Meets (write id offset data) start during fun _ disk =>
      start.Spares {place} disk ∧ disk.node? = start.node? :=
  meets_write (hduring start (.refl h)) (fun _ => hduring _ (Disk.spares_setFile h hleaf _))
    ⟨Disk.spares_setFile h hleaf _, rfl⟩

/-- Bytes at the end of a file spare the others. -/
theorem spares_append (h : start.WellFormed) {place : Location} {id : FileId} {bytes : Bytes}
    (hleaf : start.leaf place = some (id, bytes)) (data : Bytes)
    (hduring : ∀ disk, start.Spares {place} disk → during disk) :
    Meets (append id data) start during fun _ disk =>
      start.Spares {place} disk ∧ disk.node? = start.node? :=
  meets_current_bind (hduring start (.refl h)) (spares_write h hleaf _ data hduring)

/-- A write at the end of an open file prolongs it, and spares the others. -/
theorem prolongs_write (h : start.WellFormed) {place : Location} {id : FileId} {bytes : Bytes}
    (hleaf : start.leaf place = some (id, bytes)) {offset : Nat} (hend : bytes.length = offset)
    (data : Bytes) : Meets (write id offset data) start (fun _ => True) fun _ disk =>
      start.Prolongs ∅ disk ∧ start.Spares {place} disk ∧
        disk.leaf place = some (id, bytes ++ data) := by
  subst hend
  have hbecomes := Disk.becomes_write h hleaf bytes.length data
  rw [Bytes.overwrite_length] at hbecomes
  refine meets_write trivial (fun _ => trivial)
    ⟨Disk.prolongs_write_end h hleaf data, Disk.spares_setFile h hleaf _, ?_⟩
  rw [hbecomes.leaf_eq, Function.update_self]

/-- Bytes at the end of a file prolong it. -/
theorem prolongs_append (h : start.WellFormed) {place : Location} {id : FileId} {bytes : Bytes}
    (hleaf : start.leaf place = some (id, bytes)) (data : Bytes) :
    Meets (append id data) start (fun _ => True) fun _ disk =>
      start.Prolongs ∅ disk ∧ start.Spares {place} disk ∧
        disk.leaf place = some (id, bytes ++ data) :=
  meets_current_bind trivial
    (prolongs_write h hleaf (Disk.length_contents_of_leaf hleaf).symm data)

/-- Waiting for the medium takes nothing from it, and brings all of the file there. -/
theorem spares_sync (h : start.WellFormed) (id : FileId)
    (hduring : ∀ disk, start.Spares ∅ disk → during disk) :
    Meets (sync id) start during fun _ disk => start.Spares ∅ disk ∧ disk.node? = start.node? ∧
      ∀ place, start.node? place = some (.file id) → disk.Firm place :=
  meets_perform (by simp) (hduring start (.refl h)) (hduring _ (Disk.spares_sync h id))
    ⟨Disk.spares_sync h id, rfl, fun _ hfile => Disk.firm_sync hfile⟩

/-- Removing a file spares those of other names, and makes none. -/
theorem spares_remove (h : start.WellFormed) (path : Path)
    (hduring : ∀ disk, start.Spares {path.place} disk →
      (start.bytesAt path.place = none → disk.bytesAt path.place = none) → during disk) :
    Achieves (remove path) start during (fun _ => start.Spares {path.place})
      (fun _ disk => start = disk) := by
  have hbefore : during start := hduring start (.refl h) fun hnone => hnone
  refine achieves_look_bind hbefore (fun _ _ => rfl) fun target htarget => ?_
  cases target with
  | directory => exact achieves_throw hbefore rfl
  | name place slashes =>
    obtain rfl := Disk.eq_place_of_locate htarget
    refine achieves_look_bind hbefore (fun _ _ => rfl) fun node hentry => ?_
    rcases node with _ | _ | id
    · exact achieves_throw hbefore rfl
    · exact achieves_throw hbefore rfl
    · cases slashes with
      | true => exact achieves_throw hbefore rfl
      | false =>
        obtain ⟨-, hfile⟩ := Disk.reaches_of_locate htarget hentry
        have hspares : start.Spares {path.place} (start.apply (.remove path.place)) :=
          ⟨(Disk.becomes_remove h hfile).changes_update, fun hother =>
            Nat.le_of_eq (Disk.durableAt_remove_of_ne hother).symm⟩
        -- there was a file
        have hsome := Disk.bytesAt_of_leaf (Disk.leaf_of_file hfile)
        exact achieves_lift (meets_perform (by simp) hbefore
          (hduring _ hspares fun hnone => nomatch hsome.symm.trans hnone) hspares)

/-- A file that moves spares those of other names, and takes along what has reached the medium. -/
theorem spares_rename (h : start.WellFormed) {source target : Path} {id : FileId}
    (hsource : start.Admits source) (hfile : start.node? source.place = some (.file id))
    (hne : source.place ≠ target.place) (hbefore : during start)
    (hduring : ∀ disk, start.Spares {source.place, target.place} disk →
      (start.Firm source.place → disk.Firm target.place) → during disk) :
    Achieves (rename source target) start during
      (fun _ disk => start.Spares {source.place, target.place} disk ∧
        (start.Firm source.place → disk.Firm target.place))
      (fun _ disk => start = disk) := by
  refine achieves_look_bind hbefore (fun _ _ => rfl) fun found hfound => ?_
  rw [hsource.locate_eq] at hfound
  cases hfound
  refine achieves_look_bind hbefore (fun _ _ => rfl) fun found hfound => ?_
  cases found with
  | directory => exact achieves_throw hbefore rfl
  | name place slashes =>
    obtain rfl := Disk.eq_place_of_locate hfound
    refine achieves_look_bind hbefore (fun _ _ => rfl) fun node hnode => ?_
    rw [hsource.entry_eq, hfile] at hnode
    cases hnode
    refine achieves_look_bind hbefore (fun _ _ => rfl) fun taken htaken => ?_
    -- a name that promises a directory is refused for a file, and a file does not replace a directory
    cases slashes with
    | true => exact achieves_throw hbefore rfl
    | false =>
      obtain ⟨-, hnode⟩ := Disk.reaches_of_locate hfound htaken
      rw [if_neg (by simp), if_neg hne]
      split
      · exact achieves_throw hbefore rfl
      · rename_i hother
        have hsafe : start.node? target.place ≠ some .directory := by rwa [hnode]
        have hspares := Disk.spares_rename h hfile hsafe
        have hmoved := Disk.firm_rename h hfile hsafe
        exact achieves_lift (meets_perform (by simp) hbefore (hduring _ hspares hmoved)
          ⟨hspares, hmoved⟩)

/-- Replacing a file spares those of other names. The file that takes its place has reached the medium
by then. -/
theorem spares_replaceFile (h : start.WellFormed) {path : Path} {extension : List Char}
    (hne : (path.replaceExtension extension).place ≠ path.place) (contents : Bytes)
    (hduring : ∀ disk, start.Spares {(path.replaceExtension extension).place, path.place} disk →
      (start.Firm path.place → disk.Firm path.place) → during disk) :
    Achieves (replaceFile path extension contents) start during
      (fun _ disk => start.Spares {(path.replaceExtension extension).place, path.place} disk ∧
        disk.Firm path.place)
      (fun _ disk => start.Spares {(path.replaceExtension extension).place, path.place} disk ∧
        (start.Firm path.place → disk.Firm path.place)) := by
  unfold replaceFile
  generalize path.replaceExtension extension = beside at hne hduring ⊢
  -- while only the file beside it has changed, the file is as it was
  have hpending : ∀ {disk}, start.Spares {beside.place} disk →
      start.Spares {beside.place, path.place} disk ∧ (start.Firm path.place → disk.Firm path.place) :=
    fun hspares => ⟨hspares.mono (by simp), hspares.firm hne.symm⟩
  have hbeside : ∀ disk, start.Spares {beside.place} disk → during disk := fun disk hspares =>
    hduring disk (hpending hspares).1 (hpending hspares).2
  refine Achieves.bind (m := fun id disk => start.Spares {beside.place} disk ∧
      start.Admits beside ∧ disk.leaf beside.place = some (id, [])) ?_ ?_
  · have hcreated : Achieves (create beside) start (fun _ => True) _ _ :=
      achieves_create h beside trivial fun _ _ _ => trivial
    refine ((spares_create h beside hbeside).and hcreated).mono (fun _ hboth => hboth.1) ?_ ?_
    · intro id disk _ hboth
      obtain ⟨hspares, hadmits, hbecomes⟩ := hboth
      exact ⟨hspares, hadmits, by rw [hbecomes.leaf_eq, Function.update_self]⟩
    · intro _ _ _ hboth
      obtain ⟨rfl, -⟩ := hboth
      exact hpending (.refl h)
  intro id empty _ hempty
  obtain ⟨hspares, hadmits, hleaf⟩ := hempty
  have hfile := (Disk.leaf_eq_some_iff.mp hleaf).1
  refine Achieves.bind (achieves_lift (spares_write hspares.wellFormed hleaf 0 contents
    fun disk hdisk => hbeside disk (hspares.trans hdisk))) ?_
  intro _ full _ hfull
  obtain ⟨hwritten, hnode⟩ := hfull
  have hwritten := hspares.trans hwritten
  refine Achieves.bind (achieves_lift (spares_sync hwritten.wellFormed id fun disk hdisk =>
    hbeside disk (hwritten.trans (hdisk.mono (by simp))))) ?_
  intro _ synced hdisk hsynced
  obtain ⟨hsynced, hnode', hfirm⟩ := hsynced
  have hspares := hwritten.trans (hsynced.mono (by simp))
  have hfirm := hfirm beside.place (by rw [hnode, hfile])
  have hfile : synced.node? beside.place = some (.file id) := by rw [hnode', hnode, hfile]
  -- the new file gets its name in one effect, and is on the medium by then
  refine (spares_rename hspares.wellFormed (hspares.admits_iff.mpr hadmits) hfile hne hdisk
    fun disk hmoved hkept => hduring disk ((hspares.mono (by simp)).trans hmoved)
      fun _ => hkept hfirm).imp ?_ ?_
  · intro _ disk _ hmoved
    exact ⟨(hspares.mono (by simp)).trans hmoved.1, hmoved.2 hfirm⟩
  · intro _ _ _ hsame
    rw [← hsame]
    exact hpending hspares

end Drive

end BarrierStore
