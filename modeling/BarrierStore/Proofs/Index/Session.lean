import BarrierStore.Index
import BarrierStore.Proofs.Disk.Operations
import BarrierStore.Proofs.Index.Replay

/-!
# The life of an index

An index and its log keep step: the log holds a line for each binding that was made, those that are
applied in front of those that are staged. Opening the index and closing it change what is in the log
but not what it replays to.

The module introduces `Index.Tracks`: the log of an open index holds these applied lines and these
staged ones.

Main statements: `Index.achieves_openAt`, `Index.meets_put`, `Index.meets_sync`, and for the state as a
whole `Index.Tracks.put`, `Index.Tracks.sync`, `Index.Tracks.close`.
-/

namespace BarrierStore

open Drive

variable {start : Disk} {during : Disk → Prop}

namespace IndexLog

/-- The file beside an index log. -/
def beside (path : Path) : Path := path.replaceExtension temporaryExtension

/-- What the index log at a path replays to; without a log, the empty map. -/
def replayed (disk : Disk) (path : Path) : AddressMap :=
  replay ((disk.bytesAt path.place).getD [])

/-- An index log that is there replays to what its bytes say. -/
theorem replayed_of_leaf {disk : Disk} {path : Path} {file : FileId} {bytes : Bytes}
    (h : disk.leaf path.place = some (file, bytes)) : replayed disk path = replay bytes := by
  rw [replayed, Disk.bytesAt, h]
  rfl

/-- To load an index log changes nothing, and gives what it replays to. -/
theorem achieves_load (path : Path) (hbefore : during start) :
    Achieves (load path) start during
      (fun map disk => start = disk ∧
        (start.Reaches path → start.Admits path ∧ map = replayed start path))
      (fun _ disk => start = disk ∧ ¬ start.Admits path) := by
  refine Achieves.bind ((achieves_contentsOf? path hbefore).imp_failed ?_) ?_
  · rintro fault disk - ⟨rfl, hadmits, -⟩
    exact ⟨rfl, hadmits⟩
  rintro contents _ - ⟨rfl, hfound⟩
  cases contents with
  | none =>
    refine achieves_pure hbefore ⟨rfl, fun hreaches => (hfound fun _ => hreaches).imp_right
      fun hbytes => ?_⟩
    rw [replayed, ← hbytes]
    rfl
  | some contents =>
    refine achieves_pure hbefore ⟨rfl, fun hreaches => (hfound fun _ => hreaches).imp_right
      fun hbytes => ?_⟩
    rw [replayed, ← hbytes]
    rfl

/-- A log is replaced by the compact one of a map; until then it is as it was. -/
theorem achieves_store (h : start.WellFormed) {path : Path}
    (hne : (beside path).place ≠ path.place) (map : AddressMap)
    (hduring : ∀ disk, start.Changes {(beside path).place, path.place} disk →
      (disk.leaf path.place = start.leaf path.place ∨
        start.Admits path ∧ replayed disk path = map) → during disk) :
    Achieves (store path map) start during
      (fun _ disk => start.Admits path ∧ start.Admits (beside path) ∧
        start.Changes {(beside path).place, path.place} disk ∧
        ∃ file, disk.leaf path.place = some (file, compact map))
      (fun _ disk => start.Changes {(beside path).place, path.place} disk ∧
        ¬ (start.Admits path ∧ start.Admits (beside path))) := by
  refine achieves_replaceFile_of_changes h hne (compact map) fun disk hdisk hsaid =>
    hduring disk hdisk (hsaid.imp_right (And.imp_right fun hbytes => ?_))
  rw [replayed, hbytes, Option.getD_some, replay_compact]

end IndexLog

namespace Index

open IndexLog

/-- Opening an index changes nothing that its log says. -/
theorem achieves_openAt (h : start.WellFormed) {path : Path}
    (hne : (beside path).place ≠ path.place)
    (hduring : ∀ disk, start.Changes {(beside path).place, path.place} disk →
      replayed disk path = replayed start path → during disk) :
    Achieves (openAt path) start during
      (fun index disk => start.Admits path ∧ start.Admits (beside path) ∧
        start.Changes {(beside path).place, path.place} disk ∧
        index.path = path ∧ index.staged = ∅ ∧ index.applied = replayed start path ∧
        disk.leaf path.place = some (index.log, compact index.applied))
      (fun _ disk => start.Changes {(beside path).place, path.place} disk ∧
        ¬ (start.Admits path ∧ start.Admits (beside path))) := by
  have hbefore : during start := hduring start (.refl h) rfl
  refine Achieves.bind ((achieves_load path hbefore).imp_failed ?_) ?_
  · rintro fault _ - ⟨rfl, hadmits⟩
    exact ⟨.refl h, fun both => hadmits both.1⟩
  rintro map _ - ⟨rfl, hloaded⟩
  refine Achieves.bind (achieves_store h hne map fun disk hdisk hsaid => hduring disk hdisk ?_) ?_
  · rcases hsaid with hsame | ⟨hadmits, hsame⟩
    · -- the old log is still there
      rw [replayed, Disk.bytesAt, hsame]
      rfl
    · -- the compact log took its place, and replays to the same map
      rw [hsame, (hloaded hadmits.toReaches).2]
  rintro _ disk hdisk ⟨hadmits, hadmits', hchanges, file, hleaf⟩
  refine Achieves.bind ((achieves_openAppend hchanges.wellFormed hleaf hdisk).imp_failed ?_) ?_
  · rintro fault _ - ⟨rfl, hrefused, -⟩
    exact absurd (hchanges.admits_iff.mpr hadmits) hrefused
  rintro id last hlast ⟨rfl, -, hsame⟩
  have hopened : start.Changes {(beside path).place, path.place} last :=
    hchanges.trans (hsame.changes fun _ _ => rfl)
  refine achieves_pure hlast ⟨hadmits, hadmits', hopened, rfl, rfl, ?_, ?_⟩
  · exact (hloaded hadmits.toReaches).2
  · rw [hsame.leaf_eq, hleaf]

/-! ## While it is open -/

/-- A binding adds its line to the log; a crash may leave a part of the line. -/
theorem meets_put {index : Index} (h : start.WellFormed) {bytes : Bytes}
    (hleaf : start.leaf index.path.place = some (index.log, bytes)) (key : Bytes) (address : UInt64)
    (hduring : ∀ count disk, start.Becomes (Function.update start.leaf index.path.place
      (some (index.log, bytes ++ (Line.encode key address).take count))) disk → during disk) :
    Meets (index.put key address) start during fun index' disk =>
      index' = { index with staged := index.staged.insert key address } ∧
      start.Becomes (Function.update start.leaf index.path.place
        (some (index.log, bytes ++ Line.encode key address))) disk := by
  refine Meets.bind (meets_append h hleaf _ hduring) fun _ disk hdisk hbecomes => ?_
  exact meets_pure hdisk ⟨rfl, hbecomes⟩

/-- A barrier changes nothing that a reader of the log sees. -/
theorem meets_sync (index : Index) (h : start.WellFormed)
    (hduring : ∀ disk, start.Becomes start.leaf disk → during disk) :
    Meets index.sync start during fun index' disk =>
      index' = { index with staged := ∅, applied := index.applied ∪ index.staged } ∧
      start.Becomes start.leaf disk := by
  refine Meets.bind (Drive.meets_sync h index.log hduring) fun _ disk hdisk hbecomes => ?_
  exact meets_pure hdisk ⟨rfl, hbecomes⟩

/-- The log of the open index holds these lines, the applied ones in front. -/
structure Tracks (index : Index) (disk : Disk) (applied staged : List (Bytes × UInt64)) : Prop where
  leaf_eq : disk.leaf index.path.place =
    some (index.log, encodeEntries (applied ++ staged))
  applied_eq : index.applied = AddressMap.ofEntries applied
  staged_eq : index.staged = AddressMap.ofEntries staged

/-- The bindings of two maps, the second over the first, are those of both rows. -/
theorem ofEntries_union (applied staged : List (Bytes × UInt64)) :
    AddressMap.ofEntries applied ∪ AddressMap.ofEntries staged =
      AddressMap.ofEntries (applied ++ staged) := by
  refine Std.ExtTreeMap.ext_getElem? fun {key} => ?_
  rw [Std.ExtTreeMap.getElem?_union, getElem?_ofEntries, getElem?_ofEntries, getElem?_ofEntries,
    latest_append]

/-- A new binding is put into the map. -/
theorem ofEntries_concat (entries : List (Bytes × UInt64)) (key : Bytes) (address : UInt64) :
    AddressMap.ofEntries (entries ++ [(key, address)]) =
      (AddressMap.ofEntries entries).insert key address := by
  rw [AddressMap.ofEntries, List.foldl_append]
  rfl

/-- A map is that of its bindings. -/
theorem ofEntries_toList (map : AddressMap) : AddressMap.ofEntries map.toList = map := by
  conv_rhs => rw [← replay_compact map, replay, compact, entries_encodeEntries]

variable {index : Index} {applied staged : List (Bytes × UInt64)}

/-- An index that was opened has nothing staged, and its log the lines of its map. -/
theorem Tracks.of_opened {disk : Disk} (hstaged : index.staged = ∅)
    (hleaf : disk.leaf index.path.place = some (index.log, compact index.applied)) :
    index.Tracks disk index.applied.toList [] :=
  ⟨by rw [hleaf, List.append_nil, compact], (ofEntries_toList _).symm, hstaged⟩

/-- A lookup finds the last applied line of the key. -/
theorem Tracks.find?_eq {disk : Disk} (h : index.Tracks disk applied staged) (key : Bytes) :
    index.find? key = latest applied key := by
  rw [find?, h.applied_eq, getElem?_ofEntries]

/-- The log replays to all bindings that were made. -/
theorem Tracks.replayed_eq {disk : Disk} (h : index.Tracks disk applied staged) :
    replayed disk index.path = AddressMap.ofEntries (applied ++ staged) := by
  rw [replayed_of_leaf h.leaf_eq, replay_encodeEntries]

/-- Other files may change. -/
theorem Tracks.of_changes {disk : Disk} {places : Set Location}
    (h : index.Tracks start applied staged) (hchanges : start.Changes places disk)
    (hplace : index.path.place ∉ places) : index.Tracks disk applied staged :=
  ⟨(hchanges.leaf_eq hplace).trans h.leaf_eq, h.applied_eq, h.staged_eq⟩

/-- A binding is staged with its line. -/
theorem Tracks.put (hwell : start.WellFormed) (h : index.Tracks start applied staged) (key : Bytes)
    (address : UInt64) :
    Meets (index.put key address) start (fun _ => True) fun index' disk =>
      index'.path = index.path ∧ index'.log = index.log ∧
        start.Changes {index.path.place} disk ∧
        index'.Tracks disk applied (staged ++ [(key, address)]) := by
  refine (meets_put hwell h.leaf_eq key address fun _ _ _ => trivial).imp ?_
  rintro _ disk - ⟨rfl, hbecomes⟩
  refine ⟨rfl, rfl, hbecomes.changes_update, ?_, h.applied_eq, ?_⟩
  · rw [hbecomes.leaf_eq, Function.update_self, ← List.append_assoc, encodeEntries_append]
    simp [encodeEntries]
  · rw [ofEntries_concat, h.staged_eq]

/-- A barrier makes the staged lines applied ones. -/
theorem Tracks.sync (hwell : start.WellFormed) (h : index.Tracks start applied staged) :
    Meets index.sync start (fun _ => True) fun index' disk =>
      index'.path = index.path ∧ index'.log = index.log ∧ start.Becomes start.leaf disk ∧
        index'.Tracks disk (applied ++ staged) [] := by
  refine (meets_sync index hwell fun _ _ => trivial).imp ?_
  rintro _ disk - ⟨rfl, hbecomes⟩
  refine ⟨rfl, rfl, hbecomes, ?_, ?_, rfl⟩
  · rw [hbecomes.leaf_eq, h.leaf_eq, List.append_nil]
  · rw [← ofEntries_union, h.applied_eq, h.staged_eq]

/-- A closed index leaves a log of everything that was put into it. -/
theorem Tracks.close (hwell : start.WellFormed) (h : index.Tracks start applied staged)
    (hne : (beside index.path).place ≠ index.path.place) (hadmits : start.Admits index.path)
    (hbeside : start.Admits (beside index.path)) :
    Achieves index.close start (fun _ => True)
      (fun _ disk => start.Changes {(beside index.path).place, index.path.place} disk ∧
        replayed disk index.path = AddressMap.ofEntries (applied ++ staged))
      (fun _ _ => False) := by
  refine Achieves.bind (achieves_lift (Tracks.sync hwell h)) ?_
  rintro index' disk - ⟨hpath, -, hbecomes, htracks⟩
  have hchanges : start.Changes {(beside index.path).place, index.path.place} disk :=
    hbecomes.changes fun _ _ => rfl
  rw [hpath]
  -- after the barrier everything is applied, and goes into the new log
  refine (achieves_store hchanges.wellFormed hne _ fun _ _ _ => trivial).imp ?_ ?_
  · rintro _ last - ⟨-, -, hlast, file, hleaf⟩
    refine ⟨hchanges.trans hlast, ?_⟩
    rw [replayed_of_leaf hleaf, replay_compact, htracks.applied_eq]
  · rintro _ last - ⟨-, hrefused⟩
    exact hrefused ⟨hchanges.admits_iff.mpr hadmits, hchanges.admits_iff.mpr hbeside⟩

end Index

end BarrierStore
