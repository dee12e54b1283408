import BarrierStore.Disk.Drive
import Mathlib.Logic.Function.Basic

/-!
# Disks as maps from names to files

A disk as a program sees it is a map that gives each name the file it is linked to, with its bytes.
Every effect that the operations on files perform is one update of that map.

The module introduces:

* `Disk.WellFormed` — every linked file is known, and no file has two names. Every effect keeps it
  (`Disk.WellFormed.apply`), so it holds of each disk that effects made from the empty one
  (`Disk.wellFormed_applyAll_empty`);
* `Disk.leaf` — the file at a name and its bytes, and `Disk.bytesAt`, the bytes alone;
* `Disk.Becomes start leaves disk` — `disk` is well formed, has the directories of `start` and
  shows `leaves`; `becomes_create`, `becomes_resize`, `becomes_write`, `becomes_rename`,
  `becomes_remove` say which update each effect is.
-/

namespace BarrierStore

namespace Disk

/-- Every linked file has an identity that was given out, and no file has two names. -/
structure WellFormed (disk : Disk) : Prop where
  known {place : Location} {id : FileId} : disk.nodes[place]? = some (.file id) → id < disk.nextFile
  single {place other : Location} {id : FileId} :
    disk.nodes[place]? = some (.file id) → disk.nodes[other]? = some (.file id) → place = other

/-- An empty disk is well-formed. -/
theorem wellFormed_empty : WellFormed empty where
  known h := by simp [empty] at h
  single h := by simp [empty] at h

/-- A disk stays well formed as long as no file gets a name. -/
theorem WellFormed.of_links {disk disk' : Disk} (h : disk.WellFormed)
    (hnext : disk.nextFile ≤ disk'.nextFile)
    (hlinks : ∀ (place : Location) (id : FileId), disk'.nodes[place]? = some (.file id) →
      disk.nodes[place]? = some (.file id)) : disk'.WellFormed where
  known hid := Nat.lt_of_lt_of_le (h.known (hlinks _ _ hid)) hnext
  single hp hq := h.single (hlinks _ _ hp) (hlinks _ _ hq)

/-- An effect leaves a well-formed disk well-formed. -/
theorem WellFormed.apply {disk : Disk} (h : disk.WellFormed) (effect : Effect) :
    (disk.apply effect).WellFormed := by
  cases effect with
  | resize | write | sync => exact h.of_links (Nat.le_refl _) fun _ _ hid => hid
  | makeDirectory place =>
    refine h.of_links (Nat.le_refl _) fun other id hid => ?_
    simp only [Disk.apply, Std.ExtTreeMap.getElem?_insert, Std.compare_eq_iff_eq] at hid
    split at hid
    · cases hid
    · exact hid
  | create place =>
    constructor
    · intro other id hid
      simp only [Disk.apply, Std.ExtTreeMap.getElem?_insert, Std.compare_eq_iff_eq] at hid ⊢
      split at hid
      · cases hid
        exact Nat.lt_succ_self _
      · exact Nat.lt_succ_of_lt (h.known hid)
    · intro p q id hp hq
      simp only [Disk.apply, Std.ExtTreeMap.getElem?_insert, Std.compare_eq_iff_eq] at hp hq
      -- the identity of the new file was not given out before, so no old name has it
      split at hp <;> split at hq
      · rename_i hp' hq'
        exact hp'.symm.trans hq'
      · cases hp
        exact absurd (h.known hq) (Nat.lt_irrefl _)
      · cases hq
        exact absurd (h.known hp) (Nat.lt_irrefl _)
      · exact h.single hp hq
  | rename source target =>
    simp only [Disk.apply]
    split
    · exact h
    · rename_i node hnode
      constructor
      · intro other id hid
        simp only [Std.ExtTreeMap.getElem?_insert, Std.ExtTreeMap.getElem?_erase,
          Std.compare_eq_iff_eq] at hid
        split at hid
        · cases hid
          exact h.known hnode
        · split at hid
          · cases hid
          · exact h.known hid
      · intro p q id hp hq
        simp only [Std.ExtTreeMap.getElem?_insert, Std.ExtTreeMap.getElem?_erase,
          Std.compare_eq_iff_eq] at hp hq
        -- the moved link keeps its identity, and its old name is gone
        grind [h.single]
  | remove place =>
    refine h.of_links (Nat.le_refl _) fun other id hid => ?_
    simp only [Disk.apply, Std.ExtTreeMap.getElem?_erase, Std.compare_eq_iff_eq] at hid
    split at hid
    · cases hid
    · exact hid

/-- So do any number of effects. -/
theorem WellFormed.applyAll {disk : Disk} (h : disk.WellFormed) (effects : List Effect) :
    (disk.applyAll effects).WellFormed := by
  induction effects generalizing disk with
  | nil => exact h
  | cons effect rest ih => exact ih (h.apply effect)

/-- A disk that effects made from the empty one is well formed. -/
theorem wellFormed_applyAll_empty (effects : List Effect) : (empty.applyAll effects).WellFormed :=
  wellFormed_empty.applyAll effects

/-! ## The file at a name -/

/-- The files that names are linked to, each with its bytes. -/
abbrev Leaves := Location → Option (FileId × Bytes)

/-- The file at a name and its bytes; `none` for a name of nothing or of a directory. -/
def leaf (disk : Disk) : Leaves := fun place =>
  match disk.node? place with
  | some (.file id) => some (id, (disk.contents id).toBytes)
  | _ => none

/-- The bytes of the file at a name. -/
def bytesAt (disk : Disk) (place : Location) : Option Bytes :=
  (disk.leaf place).map Prod.snd

theorem node?_of_ne_nil {place : Location} (h : place ≠ []) (disk : Disk) :
    disk.node? place = disk.nodes[place]? := by
  cases place with
  | nil => exact absurd rfl h
  | cons => rfl

/-- The root is a directory. -/
theorem ne_nil_of_node? (disk : Disk) {place : Location}
    (h : disk.node? place ≠ some .directory) : place ≠ [] := by
  rintro rfl
  exact h rfl

/-- A new directory stands at its place, and what stands elsewhere stays. -/
theorem node?_makeDirectory {disk : Disk} {place : Location} (hvacant : disk.node? place = none)
    (other : Location) :
    (disk.apply (.makeDirectory place)).node? other =
      if place = other then some .directory else disk.node? other := by
  have hne : place ≠ [] := ne_nil_of_node? disk (by simp [hvacant])
  cases other with
  | nil => simp [node?, hne]
  | cons => simp [node?, Disk.apply, Std.ExtTreeMap.getElem?_insert]

/-- Nothing stands at a place that was cleared, and what stands elsewhere stays. -/
theorem node?_remove {disk : Disk} {place : Location} (hne : place ≠ []) (other : Location) :
    (disk.apply (.remove place)).node? other =
      if place = other then none else disk.node? other := by
  cases other with
  | nil => simp [node?, hne]
  | cons => simp [node?, Disk.apply, Std.ExtTreeMap.getElem?_erase]

theorem nodes_of_node?_file {disk : Disk} {place : Location} {id : FileId}
    (h : disk.node? place = some (.file id)) : disk.nodes[place]? = some (.file id) := by
  have hne : place ≠ [] := ne_nil_of_node? disk (by simp [h])
  rwa [node?_of_ne_nil hne] at h

/-- A leaf is a file with its bytes. -/
theorem leaf_eq_some_iff {disk : Disk} {place : Location} {id : FileId} {bytes : Bytes} :
    disk.leaf place = some (id, bytes) ↔
      disk.node? place = some (.file id) ∧ (disk.contents id).toBytes = bytes := by
  unfold leaf
  split
  · rename_i found hfound
    simp only [Option.some.injEq, Prod.mk.injEq, hfound, Node.file.injEq]
    constructor
    · rintro ⟨rfl, rfl⟩
      exact ⟨rfl, rfl⟩
    · rintro ⟨rfl, rfl⟩
      exact ⟨rfl, rfl⟩
  · rename_i other
    simp only [reduceCtorEq, false_iff, not_and]
    intro hfile
    exact absurd hfile (other id)

/-- There is no leaf where no file stands. -/
theorem leaf_eq_none_iff {disk : Disk} {place : Location} :
    disk.leaf place = none ↔ ∀ id, disk.node? place ≠ some (.file id) := by
  unfold leaf
  split
  · rename_i found hfound
    simp [hfound]
  · rename_i other
    simpa using other

/-- Where a file stands, there is a leaf. -/
theorem leaf_of_file {disk : Disk} {place : Location} {id : FileId}
    (h : disk.node? place = some (.file id)) :
    disk.leaf place = some (id, (disk.contents id).toBytes) :=
  leaf_eq_some_iff.mpr ⟨h, rfl⟩

theorem bytesAt_of_leaf {disk : Disk} {place : Location} {id : FileId} {bytes : Bytes}
    (h : disk.leaf place = some (id, bytes)) : disk.bytesAt place = some bytes := by
  rw [bytesAt, h]
  rfl

/-- Where the same files are, they say the same. -/
theorem bytesAt_of_leaf_eq {disk disk' : Disk} (h : disk'.leaf = disk.leaf) (place : Location) :
    disk'.bytesAt place = disk.bytesAt place :=
  congrArg (fun leaves => (leaves place).map Prod.snd) h

/-- Contents are as long as their bytes. -/
theorem length_contents_of_leaf {disk : Disk} {place : Location} {id : FileId} {bytes : Bytes}
    (h : disk.leaf place = some (id, bytes)) : (disk.contents id).length = bytes.length := by
  rw [← Contents.length_toBytes, (leaf_eq_some_iff.mp h).2]

/-- A directory is no leaf. -/
theorem leaf_of_directory {disk : Disk} {place : Location}
    (h : disk.node? place = some .directory) : disk.leaf place = none :=
  leaf_eq_none_iff.mpr (by simp [h])

/-- Where nothing stands, there is no leaf. -/
theorem leaf_of_vacant {disk : Disk} {place : Location} (h : disk.node? place = none) :
    disk.leaf place = none :=
  leaf_eq_none_iff.mpr (by simp [h])

/-! ## The effects as updates -/

/-- `disk` is well formed, has the directories of `start`, and shows `leaves`. -/
structure Becomes (start : Disk) (leaves : Leaves) (disk : Disk) : Prop where
  wellFormed : disk.WellFormed
  directory_iff (place : Location) :
    disk.node? place = some .directory ↔ start.node? place = some .directory
  leaf_eq : disk.leaf = leaves

theorem Becomes.refl {disk : Disk} (h : disk.WellFormed) : disk.Becomes disk.leaf disk :=
  ⟨h, fun _ => Iff.rfl, rfl⟩

/-- Of two changes of the leaves the second one counts. -/
theorem Becomes.trans {start middle last : Disk} {leaves leaves' : Leaves}
    (h : start.Becomes leaves middle) (h' : middle.Becomes leaves' last) :
    start.Becomes leaves' last :=
  ⟨h'.wellFormed, fun place => (h'.directory_iff place).trans (h.directory_iff place), h'.leaf_eq⟩

theorem Becomes.congr {start last : Disk} {leaves leaves' : Leaves}
    (h : start.Becomes leaves last) (same : leaves = leaves') : start.Becomes leaves' last :=
  same ▸ h

variable {disk : Disk}

/-- A place has its leaf as long as it has its file, and the file its contents. -/
theorem leaf_apply_of_nodes {disk disk' : Disk} {place : Location}
    (hnode : disk'.node? place = disk.node? place)
    (hfile : ∀ id, disk.node? place = some (.file id) → disk'.contents id = disk.contents id) :
    disk'.leaf place = disk.leaf place := by
  unfold leaf
  rw [hnode]
  split
  · rename_i id hid
    rw [hfile id hid]
  · rfl

/-- Only one file gets new contents. -/
theorem contents_setFile (disk : Disk) (id other : FileId) (file : File) :
    (disk.setFile id file).contents other =
      if other = id then file.contents else disk.contents other := by
  simp only [contents, Disk.file, setFile, Std.ExtTreeMap.getD_insert, Std.compare_eq_iff_eq]
  split <;> split <;> simp_all

/-- Other contents for the file at a name are an update at that name only. -/
theorem becomes_setFile (h : disk.WellFormed) {place : Location} {id : FileId} {bytes : Bytes}
    (hleaf : disk.leaf place = some (id, bytes)) (file : File) :
    disk.Becomes (Function.update disk.leaf place (some (id, file.contents.toBytes)))
      (disk.setFile id file) where
  wellFormed := ⟨h.known, h.single⟩
  directory_iff _ := Iff.rfl
  leaf_eq := by
    obtain ⟨hnode, -⟩ := leaf_eq_some_iff.mp hleaf
    funext other
    rw [Function.update_apply]
    split
    · rename_i same
      subst same
      exact leaf_eq_some_iff.mpr ⟨hnode, by rw [contents_setFile, if_pos rfl]⟩
    · rename_i different
      refine leaf_apply_of_nodes rfl fun id' hid' => ?_
      rw [contents_setFile, if_neg]
      rintro rfl
      -- a second name of the file would be the same name
      exact different (h.single (nodes_of_node?_file hid') (nodes_of_node?_file hnode))

/-- A file that gets another length is the only leaf that changes. -/
theorem becomes_resize (h : disk.WellFormed) {place : Location} {id : FileId} {bytes : Bytes}
    (hleaf : disk.leaf place = some (id, bytes)) (length : Nat) :
    disk.Becomes (Function.update disk.leaf place (some (id, bytes.resize length)))
      (disk.apply (.resize id length)) := by
  have := becomes_setFile h hleaf
    ⟨(disk.contents id).resize length, min (disk.file id).durable length⟩
  rwa [Contents.toBytes_resize, (leaf_eq_some_iff.mp hleaf).2] at this

/-- A file that is written to is the only leaf that changes. -/
theorem becomes_write (h : disk.WellFormed) {place : Location} {id : FileId} {bytes : Bytes}
    (hleaf : disk.leaf place = some (id, bytes)) (offset : Nat) (data : Bytes) :
    disk.Becomes (Function.update disk.leaf place (some (id, bytes.overwrite offset data)))
      (disk.apply (.write id offset data)) := by
  have := becomes_setFile h hleaf
    ⟨(disk.contents id).overwrite offset data, min (disk.file id).durable offset⟩
  rwa [Contents.toBytes_overwrite, (leaf_eq_some_iff.mp hleaf).2] at this

/-- To wait for the medium changes no leaf. -/
theorem becomes_sync (h : disk.WellFormed) (id : FileId) :
    disk.Becomes disk.leaf (disk.apply (.sync id)) where
  wellFormed := h.apply _
  directory_iff _ := Iff.rfl
  leaf_eq := by
    funext place
    refine leaf_apply_of_nodes rfl fun other _ => ?_
    rw [Disk.apply, contents_setFile]
    split
    · rename_i same
      rw [same]
    · rfl

/-- A new file comes to a name at which nothing was. -/
theorem becomes_create (h : disk.WellFormed) {place : Location} (hvacant : disk.node? place = none) :
    disk.Becomes (Function.update disk.leaf place (some (disk.nextFile, [])))
      (disk.apply (.create place)) := by
  have hne : place ≠ [] := ne_nil_of_node? disk (by simp [hvacant])
  have hnode : ∀ other, (disk.apply (.create place)).node? other =
      if place = other then some (.file disk.nextFile) else disk.node? other := by
    intro other
    cases other with
    | nil => simp [node?, hne]
    | cons => simp [node?, Disk.apply, Std.ExtTreeMap.getElem?_insert]
  have hcontents : ∀ id, (disk.apply (.create place)).contents id =
      if id = disk.nextFile then .empty else disk.contents id := by
    intro id
    by_cases same : id = disk.nextFile
    · simp [contents, Disk.file, Disk.apply, same, File.empty]
    · have different : ¬ disk.nextFile = id := fun h => same h.symm
      simp [contents, Disk.file, Disk.apply, Std.ExtTreeMap.getD_insert, same, different]
  refine ⟨h.apply _, fun other => ?_, ?_⟩
  · rw [hnode]
    split
    · rename_i same
      subst same
      simp [hvacant]
    · rfl
  · funext other
    rw [Function.update_apply]
    split
    · rename_i same
      refine leaf_eq_some_iff.mpr ⟨by rw [hnode, if_pos same.symm], ?_⟩
      rw [hcontents, if_pos rfl, Contents.toBytes_empty]
    · rename_i different
      refine leaf_apply_of_nodes (by rw [hnode, if_neg (Ne.symm different)]) fun id hid => ?_
      -- the files of the other names were made before this one
      have := h.known (nodes_of_node?_file hid)
      rw [hcontents, if_neg (Nat.ne_of_lt this)]

/-- A link that is removed is a leaf that is gone. -/
theorem becomes_remove (h : disk.WellFormed) {place : Location} {id : FileId}
    (hfile : disk.node? place = some (.file id)) :
    disk.Becomes (Function.update disk.leaf place none) (disk.apply (.remove place)) := by
  have hne : place ≠ [] := ne_nil_of_node? disk (by simp [hfile])
  have hnode := @node?_remove disk place hne
  refine ⟨h.apply _, fun other => ?_, ?_⟩
  · rw [hnode]
    split
    · rename_i same
      subst same
      simp [hfile]
    · rfl
  · funext other
    rw [Function.update_apply]
    split
    · rename_i same
      exact leaf_of_vacant (by rw [hnode, if_pos same.symm])
    · rename_i different
      exact leaf_apply_of_nodes (by rw [hnode, if_neg (Ne.symm different)]) fun _ _ => rfl

/-- A link that moves takes its file along; a link that it replaces is gone. -/
theorem becomes_rename (h : disk.WellFormed) {source target : Location} {id : FileId}
    (hfile : disk.node? source = some (.file id)) (hsafe : disk.node? target ≠ some .directory) :
    disk.Becomes
      (Function.update (Function.update disk.leaf source none) target
        (some (id, (disk.contents id).toBytes)))
      (disk.apply (.rename source target)) := by
  have hsource : source ≠ [] := ne_nil_of_node? disk (by simp [hfile])
  have htarget : target ≠ [] := ne_nil_of_node? disk hsafe
  have hnode : ∀ other, (disk.apply (.rename source target)).node? other =
      if target = other then some (.file id)
      else if source = other then none else disk.node? other := by
    intro other
    cases other with
    | nil => simp [node?, hsource, htarget]
    | cons =>
      simp [node?, Disk.apply, nodes_of_node?_file hfile, Std.ExtTreeMap.getElem?_insert,
        Std.ExtTreeMap.getElem?_erase]
  have hcontents : ∀ other, (disk.apply (.rename source target)).contents other =
      disk.contents other := by
    intro other
    -- only links change hands
    simp [contents, Disk.file, Disk.apply, nodes_of_node?_file hfile]
  refine ⟨h.apply _, fun other => ?_, ?_⟩
  · rw [hnode]
    split
    · rename_i same
      subst same
      simp [hsafe]
    · split
      · rename_i same
        simp [← same, hfile]
      · rfl
  · funext other
    rw [Function.update_apply]
    split
    · rename_i same
      exact leaf_eq_some_iff.mpr ⟨by rw [hnode, if_pos same.symm], by rw [hcontents]⟩
    · rename_i different
      rw [Function.update_apply]
      split
      · rename_i same
        refine leaf_of_vacant ?_
        rw [hnode, if_neg (Ne.symm different), if_pos same.symm]
      · rename_i different'
        refine leaf_apply_of_nodes ?_ fun other _ => hcontents other
        rw [hnode, if_neg (Ne.symm different), if_neg (Ne.symm different')]

end Disk

end BarrierStore
