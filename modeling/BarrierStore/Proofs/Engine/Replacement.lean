import BarrierStore.Proofs.Disk.Obstacles
import BarrierStore.Proofs.Index.Cuts
import BarrierStore.Proofs.Segment.Range

/-!
# The small files are replaced whole

The range, the capacity and the index log are each stored by way of the file beside theirs. A reader of
the file finds what it held before or all of what was stored, and once it was stored it is loaded again:
any capacity but zero, any range that does not end before it starts, and any map, in whatever order
its lines were written. Where one of the two files cannot be made or replaced nothing is stored,
and only the file beside may have changed.

The path may have the extension of the file beside it already. Then the two are one file, and a crash may
leave a part of what was to be stored.

The module introduces:

* `Disk.found? disk path` — what a reader finds at a path, if anything;
* `Drive.ReplacesWhole operation start path beside contents loads` — from `start` the operation
  replaces the file at a path as a whole, by way of the one beside it.

Main statements: `Drive.replacesWhole_replaceFile` for any contents, and `replacesWhole_store` for the
three files.
-/

namespace BarrierStore

namespace Disk

variable {disk : Disk} {path : Path}

/-- What a reader finds at a path, `none` where there is no file to be read. -/
def found? (disk : Disk) (path : Path) : Option Bytes :=
  (disk.read path).toOption.map Contents.toBytes

/-- Where a file may be, a reader finds its bytes. -/
theorem Admits.found?_eq (h : disk.Admits path) : disk.found? path = disk.bytesAt path.place := by
  rcases h.read_eq with ⟨hleaf, hread⟩ | ⟨id, contents, hleaf, hread⟩
  · rw [found?, hread, bytesAt, hleaf]
    rfl
  · rw [found?, hread, bytesAt, hleaf]
    rfl

/-- A path that is read leads to a file, so its name is one that a file may have. -/
theorem found?_of_not_admits (h : ¬ disk.Admits path) : disk.found? path = none := by
  rcases hnode : disk.nodeAt path with cause | _ | id
  · rw [found?, read, fileAt, hnode]
    rfl
  · rw [found?, read, fileAt, hnode]
    rfl
  · have hreaches := reaches_of_file hnode
    refine absurd ⟨hreaches, fun hdirectory => ?_⟩ h
    simp [hreaches.nodeAt_eq, hdirectory] at hnode

/-- Other files do not matter to a reader. -/
theorem Changes.found?_eq {start : Disk} {places : Set Location} (h : start.Changes places disk)
    (hpath : path.place ∉ places) : disk.found? path = start.found? path := by
  by_cases hadmits : start.Admits path
  · rw [hadmits.found?_eq, (h.admits_iff.mpr hadmits).found?_eq, h.bytesAt_eq hpath]
  · rw [found?_of_not_admits hadmits, found?_of_not_admits (mt h.admits_iff.mp hadmits)]

end Disk

namespace Drive

/-- From `start`, the operation replaces the file at a path as a whole, by way of the one beside it: it
goes well where both names are for files, and then a reader finds the new contents, and loads them;
otherwise a reader finds what was there, and no other file than the one beside has changed. If the two are
not the same file, a crash leaves the old contents or the new ones too. -/
def ReplacesWhole (operation : DiskM Unit) (start : Disk) (path beside : Path) (contents : Bytes)
    (loads : Disk → Prop) : Prop :=
  Achieves operation start
    (fun left => beside.place ≠ path.place →
      left.found? path = start.found? path ∨ left.found? path = some contents)
    (fun _ disk => (start.Admits beside ∧ start.Admits path) ∧
      start.Changes {beside.place, path.place} disk ∧ disk.found? path = some contents ∧ loads disk)
    (fun fault disk => ¬ (start.Admits beside ∧ start.Admits path) ∧ (∃ cause, fault = .io cause) ∧
      start.Changes {beside.place} disk ∧ disk.found? path = start.found? path)

/-- What was replaced can be loaded. -/
theorem ReplacesWhole.loads_of_run {operation : DiskM Unit} {drive stored : Drive}
    {path beside : Path} {contents : Bytes} {loads : Disk → Prop}
    (h : ReplacesWhole operation drive.disk path beside contents loads)
    (hrun : operation.run.run drive = (.ok (), stored)) : loads stored.disk := by
  unfold ReplacesWhole at h
  have hafter := h.after_run
  rw [hrun] at hafter
  exact hafter.2.2.2

/-- What could not be replaced is what it was. -/
theorem ReplacesWhole.found?_of_run {operation : DiskM Unit} {drive refused : Drive}
    {path beside : Path} {contents : Bytes} {loads : Disk → Prop} {fault : Fault}
    (h : ReplacesWhole operation drive.disk path beside contents loads)
    (hrun : operation.run.run drive = (.error fault, refused)) :
    refused.disk.found? path = drive.disk.found? path := by
  unfold ReplacesWhole at h
  have hafter := h.after_run
  rw [hrun] at hafter
  exact hafter.2.2.2

/-- New contents replace a file as a whole, and can be loaded then if they can be wherever they stand at
the name. -/
theorem replacesWhole_replaceFile {start : Disk} (h : start.WellFormed) (path : Path)
    (extension : List Char) (contents : Bytes) {loads : Disk → Prop}
    (hloads : ∀ (disk : Disk) (file : FileId), disk.Admits path →
      disk.leaf path.place = some (file, contents) → loads disk) :
    ReplacesWhole (replaceFile path extension contents) start path (path.replaceExtension extension)
      contents loads := by
  have hfound : ∀ {disk : Disk} {file : FileId}, disk.Admits path →
      disk.leaf path.place = some (file, contents) → disk.found? path = some contents := by
    intro disk file hadmits hleaf
    rw [hadmits.found?_eq, Disk.bytesAt, hleaf]
    rfl
  refine (achieves_replaceFile h contents (fun _ => .inl rfl) ?_ ?_).imp ?_ ?_
  · -- the new contents are written beside the file
    intro file left hleft hne
    exact .inl (hleft.changes_update.found?_eq (Ne.symm hne))
  · -- and moved to its name in one effect
    intro hadmits id left hleft _
    exact .inr (hfound (hleft.admits_iff.mpr hadmits)
      (by rw [hleft.leaf_eq, Function.update_self]))
  · rintro _ disk - ⟨hadmits, hpath, id, hdisk⟩
    have hlast := hdisk.admits_iff.mpr hpath
    have hleaf : disk.leaf path.place = some (id, contents) := by
      rw [hdisk.leaf_eq, Function.update_self]
    exact ⟨⟨hadmits, hpath⟩, hdisk.changes_move, hfound hlast hleaf, hloads disk id hlast hleaf⟩
  · rintro fault disk - ⟨⟨file, hdisk⟩, hrefused, hcause, hsame⟩
    refine ⟨hrefused, hcause, hdisk.changes_update, ?_⟩
    rcases hsame with rfl | hpath
    · rfl
    · -- the file beside was made, so it is the path that no file can have, now as before
      rw [Disk.found?_of_not_admits hpath, Disk.found?_of_not_admits (mt hdisk.admits_iff.mp hpath)]

/-- The text of a file that is there. -/
theorem run_readText? {disk : Disk} {path : Path} {file : FileId} {bytes : Bytes} {text : List Char}
    (h : disk.Reaches path) (hleaf : disk.leaf path.place = some (file, bytes))
    (htext : Utf8.decode? bytes = some text) (past : List Effect) :
    (readText? path).run.run ⟨disk, past⟩ = (.ok (some text), ⟨disk, past⟩) := by
  obtain ⟨hnode, hcontents⟩ := Disk.leaf_eq_some_iff.mp hleaf
  have hread : (contentsOf? path).run.run ⟨disk, past⟩ =
      (.ok (some (disk.contents file)), ⟨disk, past⟩) := by
    rw [run_contentsOf? h, hnode]
  rw [readText?, run_bind_of_ok hread]
  dsimp only
  rw [hcontents, htext]
  rfl

end Drive

open Drive

variable {disk : Disk} {path : Path} {file : FileId}

/-- A range is loaded from its text, or refused if it ends before it starts. -/
theorem SegmentRange.run_load {range : SegmentRange} (h : disk.Reaches path)
    (hleaf : disk.leaf path.place = some (file, Utf8.encode range.encode)) (past : List Effect) :
    (load path).run.run ⟨disk, past⟩ =
      (if range.first ≤ range.next then .ok range
        else .error (.storage (.reversedRange range.first range.next)), ⟨disk, past⟩) := by
  rw [load, run_bind_of_ok (run_readText? h hleaf (decode?_encode range) past)]
  dsimp only
  rw [parse_encode]
  by_cases hle : range.first ≤ range.next
  · rw [if_pos hle, if_pos hle]
    rfl
  · rw [if_neg hle, if_neg hle]
    rfl

/-- A capacity is loaded from its text, or refused if it is zero. -/
theorem Capacity.run_load? {capacity : UInt64} (h : disk.Reaches path)
    (hleaf : disk.leaf path.place = some (file, Utf8.encode (encode capacity)))
    (past : List Effect) : (load? path).run.run ⟨disk, past⟩ =
      (if capacity = 0 then .error (.storage (.malformedCapacity path)) else .ok (some capacity),
        ⟨disk, past⟩) := by
  rw [load?, run_bind_of_ok (run_readText? h hleaf (decode?_encode capacity) past)]
  dsimp only
  rw [parse?_encode]
  by_cases hzero : capacity = 0
  · rw [if_pos hzero, if_pos hzero]
    rfl
  · rw [if_neg hzero, if_neg hzero]
    rfl

/-- The range, the capacity and the index log are replaced as a whole, wherever their files are, and
loaded again. The lines of a map may be in any order, that of `IndexLog.store` among them. -/
theorem replacesWhole_store {start : Disk} (h : start.WellFormed) (path : Path) :
    (∀ range : SegmentRange, ReplacesWhole (range.store path) start path
      (path.replaceExtension temporaryExtension) (Utf8.encode range.encode) fun disk => ∀ past,
        (SegmentRange.load path).run.run ⟨disk, past⟩ =
          (if range.first ≤ range.next then .ok range
            else .error (.storage (.reversedRange range.first range.next)), ⟨disk, past⟩)) ∧
    (∀ capacity : UInt64, ReplacesWhole (Capacity.store path capacity) start path
      (path.replaceExtension temporaryExtension) (Utf8.encode (Capacity.encode capacity))
      fun disk => ∀ past, (Capacity.load? path).run.run ⟨disk, past⟩ =
        (if capacity = 0 then .error (.storage (.malformedCapacity path)) else .ok (some capacity),
          ⟨disk, past⟩)) ∧
    ∀ (map : AddressMap) (entries : List (Bytes × UInt64)), entries.Perm map.toList →
      ReplacesWhole (IndexLog.storeLines path entries) start path (IndexLog.beside path)
        (IndexLog.encodeEntries entries)
        fun disk => ∀ past, ((IndexLog.load path).run.run ⟨disk, past⟩).1 = .ok map := by
  refine ⟨fun range => ?_, fun capacity => ?_, fun map entries hperm => ?_⟩
  · exact replacesWhole_replaceFile h path _ _ fun disk file hadmits hleaf =>
      SegmentRange.run_load hadmits.toReaches hleaf
  · exact replacesWhole_replaceFile h path _ _ fun disk file hadmits hleaf =>
      Capacity.run_load? hadmits.toReaches hleaf
  · refine replacesWhole_replaceFile h path _ _ fun disk file hadmits hleaf past => ?_
    rw [Index.load_eq hadmits past, IndexLog.replayed_of_leaf hleaf,
      IndexLog.replay_encodeEntries, IndexLog.ofEntries_of_perm hperm]

/-- A disk with a range in one file, and lines in another one. -/
def Disk.occupied : Disk := empty.applyAll [.create ["meta".toList], .create ["index.log".toList],
  .write 0 0 (Utf8.encode (SegmentRange.encode ⟨0, 1⟩)), .write 1 0 (IndexLog.encodeEntries [([107], 3)])]

/-- A directory in the way of a new range. -/
def Disk.obstacle : Effect := .makeDirectory ["meta.tmp".toList]

/-- A range is not replaced while there is a directory in the way, and without it it is. So are the lines,
in another order than that of their map. A range that ends before it starts is stored under the name of the
file beside. -/
theorem replacesWhole_store_occupied :
    Disk.occupied.WellFormed ∧
    [([108], 8), ([107], 9)].Perm (AddressMap.ofEntries [([107], 9), ([108], 8)]).toList ∧
    (∃ fault refused, (SegmentRange.store (.ofString "meta") ⟨5, 7⟩).run.run
        (ofDisk (Disk.occupied.apply Disk.obstacle)) = (.error fault, refused) ∧
      ((SegmentRange.load (.ofString "meta")).run.run refused).1 = .ok ⟨0, 1⟩ ∧
      refused.disk.found? (.ofString "meta") =
        (Disk.occupied.apply Disk.obstacle).found? (.ofString "meta")) ∧
    (∃ stored, (SegmentRange.store (.ofString "meta") ⟨5, 7⟩).run.run (ofDisk Disk.occupied) =
        (.ok (), stored) ∧
      ((SegmentRange.load (.ofString "meta")).run.run ⟨stored.disk, []⟩).1 = .ok ⟨5, 7⟩) ∧
    (∃ stored, (SegmentRange.store (.ofString "meta.tmp") ⟨2, 1⟩).run.run (ofDisk Disk.occupied) =
        (.ok (), stored) ∧
      ((SegmentRange.load (.ofString "meta.tmp")).run.run ⟨stored.disk, []⟩).1 =
        .error (.storage (.reversedRange 2 1))) ∧
    ∃ stored, (IndexLog.storeLines (.ofString "index.log") [([108], 8), ([107], 9)]).run.run
        (ofDisk Disk.occupied) = (.ok (), stored) ∧
      ((IndexLog.load (.ofString "index.log")).run.run ⟨stored.disk, []⟩).1 =
        .ok (AddressMap.ofEntries [([107], 9), ([108], 8)]) := by
  have hperm : [([108], 8), ([107], 9)].Perm
      (AddressMap.ofEntries [([107], 9), ([108], 8)]).toList := by
    decide +kernel
  have hwell : Disk.occupied.WellFormed := Disk.wellFormed_applyAll_empty _
  have hranges (path : Path) := (replacesWhole_store hwell path).1
  have hlines (path : Path) := (replacesWhole_store hwell path).2.2
  refine ⟨hwell, hperm, ?_, ?_, ?_, ?_⟩
  · have hrefuses : ∃ fault refused, (SegmentRange.store (.ofString "meta") ⟨5, 7⟩).run.run
          (ofDisk (Disk.occupied.apply Disk.obstacle)) = (.error fault, refused) ∧
        ((SegmentRange.load (.ofString "meta")).run.run refused).1 = .ok ⟨0, 1⟩ := by
      decide +kernel
    obtain ⟨fault, refused, hrefused, hload⟩ := hrefuses
    have hwhole := (replacesWhole_store (hwell.apply Disk.obstacle) (.ofString "meta")).1 ⟨5, 7⟩
    exact ⟨fault, refused, hrefused, hload, hwhole.found?_of_run hrefused⟩
  · have hstores : ∃ answer stored, (SegmentRange.store (.ofString "meta") ⟨5, 7⟩).run.run
        (ofDisk Disk.occupied) = (.ok answer, stored) := by
      decide +kernel
    obtain ⟨_, stored, hstored⟩ := hstores
    exact ⟨stored, hstored, congrArg Prod.fst ((hranges _ ⟨5, 7⟩).loads_of_run hstored [])⟩
  · have hstores : ∃ answer stored, (SegmentRange.store (.ofString "meta.tmp") ⟨2, 1⟩).run.run
        (ofDisk Disk.occupied) = (.ok answer, stored) := by
      decide +kernel
    obtain ⟨_, stored, hstored⟩ := hstores
    exact ⟨stored, hstored, congrArg Prod.fst ((hranges _ ⟨2, 1⟩).loads_of_run hstored [])⟩
  · have hstores : ∃ answer stored,
        (IndexLog.storeLines (.ofString "index.log") [([108], 8), ([107], 9)]).run.run
          (ofDisk Disk.occupied) = (.ok answer, stored) := by
      decide +kernel
    obtain ⟨_, stored, hstored⟩ := hstores
    exact ⟨stored, hstored, (hlines _ _ _ hperm).loads_of_run hstored []⟩

end BarrierStore
