import BarrierStore.Proofs.ValueLog.Session

/-!
# What an open value log binds

To its user an open value log is two lists of bindings: those that a barrier has covered, which are
visible, and those that wait for one. A write adds to the second list, a barrier moves it behind the
first, and a reader finds the last visible binding of a key.

The module introduces `ValueLog.Serves`: the records of an open log, the visible ones in front.

Main statements: `Serves.get_eq`, `Serves.put`, `Serves.sync`, `Serves.close`, and
`Serves.selected_eq`, which says that the files left behind select the bindings of both lists.
-/

namespace BarrierStore

open Drive

namespace ValueLog

/-- The records of an open log: those that a barrier has covered, and those that wait for one. -/
structure Serves (config : Config) (log : ValueLog) (disk : Disk) (origin : UInt64)
    (base : List (Bytes × UInt64)) (applied staged : Found) : Prop
    extends log.Tracks config disk origin base (applied ++ staged) where
  first_eq : log.range.first = origin
  applied_eq : log.index.applied = AddressMap.ofEntries applied.lines
  staged_eq : log.index.staged = AddressMap.ofEntries staged.lines

variable {config : Config} {log : ValueLog} {start : Disk} {origin : UInt64}
  {base : List (Bytes × UInt64)} {applied staged : Found}

/-- A record that stands at a position in the bytes of its segment is read there. -/
theorem readAt_of_recordAt? {disk : Disk} {position : Position} {bytes : Bytes} {record : Record}
    (hstem : log.segmentStem = config.segmentStem)
    (hreaches : disk.Reaches (config.segmentFile position.segment))
    (hbytes : config.fileBytes disk (.segment position.segment) = some bytes)
    (hrecord : (Contents.ofBytes bytes).recordAt? position.offset = some record) :
    log.readAt disk record.key position = .ok record.value := by
  obtain ⟨⟨file, _⟩, hleaf, rfl⟩ := Option.map_eq_some_iff.mp hbytes
  obtain ⟨hnode, hcontents⟩ := Disk.leaf_eq_some_iff.mp hleaf
  have hnodeAt : disk.nodeAt (log.segmentFile position.segment) = .ok (.file file) := by
    have hnode : disk.node? (config.segmentFile position.segment).place = some (.file file) := hnode
    rw [segmentFile_eq hstem, hreaches.nodeAt_eq, hnode]
  have hrecordAt : (disk.contents file).recordAt? position.offset = some record := by
    rw [Contents.recordAt?_eq, hcontents]
    rwa [Contents.recordAt?_eq, Contents.toBytes_ofBytes] at hrecord
  simp only [readAt, hnodeAt, hrecordAt, if_true]

namespace Serves

/-- A record of the session stands at its address. -/
theorem exists_position (h : log.Serves config start origin base applied staged)
    {entry : Nat × Record} (hentry : entry ∈ applied ++ staged) : ∃ position bytes,
      Position.ofAddress? (UInt64.ofNat entry.1) log.capacity = some position ∧
        position.segment ≤ log.active.id ∧
        config.fileBytes start (.segment position.segment) = some bytes ∧
        (Contents.ofBytes bytes).recordAt? position.offset = some entry.2 := by
  have hfits := h.fits entry hentry
  rw [← h.scanned_eq] at hentry
  obtain ⟨id, -, hnext, hmem⟩ := Config.mem_scanned_iff.mp hentry
  obtain ⟨bytes, offset, hbytes, hbelow, haddress, hrecord⟩ := Config.mem_scannedSegment hmem
  refine ⟨⟨id, offset⟩, bytes, Position.ofAddress?_address? ?_ ?_, h.le_active hnext, hbytes, hrecord⟩
  · rw [h.capacity_eq]
    exact hbelow
  · rw [Position.address?_eq_some_iff, h.capacity_eq, UInt64.toNat_ofNat_of_lt' hfits]
    exact haddress.symm

/-- A reader of any log with these visible bindings and these segments finds the last visible binding of a
key, and never an error. -/
theorem get_eq_of_fileBytes (h : log.Serves config start origin base applied staged)
    {log' : ValueLog} {disk : Disk} (hcapacity : log'.capacity = log.capacity)
    (hstem : log'.segmentStem = config.segmentStem)
    (happlied : log'.index.applied = log.index.applied)
    (hreaches : disk.Reaches (config.segmentFile log.active.id))
    (hbytes : ∀ id, config.fileBytes disk (.segment id) = config.fileBytes start (.segment id))
    (key : Bytes) : log'.get disk key = .ok (latest applied.bindings key) := by
  have hfind : log'.find? key = latest applied.lines key := by
    rw [find?, Index.find?, happlied, h.applied_eq, getElem?_ofEntries]
  rw [Found.latest_lines] at hfind
  rw [ValueLog.get, hfind, Found.latest_bindings]
  rcases hlast : applied.last? key with _ | entry
  · rfl
  · obtain ⟨hmem, rfl⟩ := Found.mem_of_last? hlast
    obtain ⟨position, bytes, hposition, hle, hfile, hrecord⟩ :=
      h.exists_position (List.mem_append_left _ hmem)
    -- the segment has a name that is short enough, since the active one has
    have hread := readAt_of_recordAt? hstem (hreaches.segment_le hle) ((hbytes _).trans hfile) hrecord
    simp only [Option.map_some, hcapacity, hposition, hread]
    rfl

/-- A reader finds the last visible binding of a key, and never an error. -/
theorem get_eq (h : log.Serves config start origin base applied staged) (key : Bytes) :
    log.get start key = .ok (latest applied.bindings key) :=
  h.get_eq_of_fileBytes rfl h.stem_eq rfl h.reaches (fun _ => rfl) key

/-- The files that an open log leaves select its bindings, visible or not. -/
theorem selected_eq (h : log.Serves config start origin base applied staged) (key : Bytes) :
    config.range? start = some log.range ∧
      selectedValue (config.indexed start) (config.scanned start log.range) key =
        latest (applied ++ staged).bindings key := by
  refine ⟨h.range?_eq, ?_⟩
  have hscanned : config.scanned start log.range = applied ++ staged := by
    rw [← h.scanned_eq, ← h.first_eq]
  rw [hscanned, h.indexed_eq]
  exact selected_settled base (hscanned ▸ Config.ascending_scanned _ _ _) h.fits key

/-- Other files may change under an open log. -/
theorem of_changes (h : log.Serves config start origin base applied staged) {disk : Disk}
    {places : Set Location} (hchanges : start.Changes places disk)
    (hfile : ∀ file, config.place file ∉ places) :
    log.Serves config disk origin base applied staged :=
  { h.toTracks.of_changes hchanges (hfile _) (hfile _) fun _ _ => hfile _ with
    first_eq := h.first_eq
    applied_eq := h.applied_eq
    staged_eq := h.staged_eq }

end Serves

/-- A write in two steps, each of which may end it. -/
theorem put_eq (log : ValueLog) (key value : Bytes) :
    log.put key value = do
      match ← (log.makeRoom (Record.length ⟨key, value⟩)).run with
      | .error fault => return (log, .error fault)
      | .ok log =>
        match ← (log.append ⟨key, value⟩).run with
        | .error fault => return (log, .error fault)
        | .ok log => return (log, .ok ()) := by
  -- the second program goes on with the drive that the first one leaves
  have hbind : ∀ {α β : Type} (program : StateM Drive α) (next : α → StateM Drive β) (drive : Drive),
      (program >>= next) drive = next (program.run drive).1 (program.run drive).2 :=
    fun _ _ _ => rfl
  funext drive
  simp only [put, hbind]
  rcases (log.makeRoom (Record.length ⟨key, value⟩)).run.run drive with ⟨_ | sealed, drive⟩
  · rfl
  · dsimp only
    rw [hbind]
    rcases (sealed.append ⟨key, value⟩).run.run drive with ⟨_ | _, drive⟩ <;> rfl

/-- A barrier waits for the active segment and for the index log, and then publishes. -/
theorem sync_eq (log : ValueLog) :
    log.sync = do
      Drive.sync log.active.file
      Drive.sync log.index.log
      return { log with index := { log.index with
        staged := ∅, applied := log.index.applied ∪ log.index.staged } } := rfl

namespace Serves

/-- A write is staged, unless there is no address for it. -/
theorem put (h : log.Serves config start origin base applied staged) (hseparate : config.Separate)
    (hcapacity : config.capacity ≠ 0) (hroom : config.HasRoom start log.range.next)
    {key value : Bytes} (hsmall : Record.Small ⟨key, value⟩) :
    Meets (log.put key value) start (fun _ => True) fun (log', outcome) disk =>
      outcome = .error .arithmetic ∨ outcome = .ok () ∧ ∃ address,
        log.range.next ≤ log'.range.next ∧ start.Changes (config.sessionPlaces origin) disk ∧
        (config.Vacant start log.range.next → config.Vacant disk log'.range.next) ∧
        log'.Serves config disk origin base applied (staged ++ [(address, ⟨key, value⟩)]) := by
  rw [put_eq]
  refine Meets.bind (h.makeRoom hseparate hcapacity (Record.length_pos ⟨key, value⟩)
    fun _ _ => trivial) ?_
  rintro (fault | sealed) disk - hmade
  · refine meets_pure trivial (.inl (congrArg _ (hmade ⟨hroom.range, hroom.besideRange, ?_⟩)))
    exact hroom.segment _ (UInt64.le_refl _)
  obtain ⟨hindex, hfirst, hlength, hnext, hchanges, hvacant, htracks⟩ := hmade
  refine Meets.bind (htracks.append hseparate hsmall hlength fun _ _ _ _ _ _ _ => trivial) ?_
  rintro (fault | log') last - happended
  · exact meets_pure trivial (.inl (congrArg _ happended))
  obtain ⟨address, hrange, happlied, hstaged, hchanges', hvacant', htracks'⟩ := happended
  refine meets_pure trivial (.inr ⟨rfl, address, by rw [hrange]; exact hnext,
    hchanges.trans hchanges', fun hclear => hvacant' (hvacant hclear), ?_⟩)
  -- the new record is the last one that was staged
  rw [List.append_assoc] at htracks'
  refine { htracks' with first_eq := ?_, applied_eq := ?_, staged_eq := ?_ }
  · rw [hrange, hfirst, h.first_eq]
  · rw [happlied, hindex, h.applied_eq]
  · rw [hstaged, hindex, h.staged_eq, Found.lines_append, ← Index.ofEntries_concat]
    rfl

/-- A barrier makes every binding visible. -/
theorem sync (h : log.Serves config start origin base applied staged) :
    Meets log.sync start (fun _ => True) fun log' disk =>
      log'.active = log.active ∧ log'.range = log.range ∧ log'.index.log = log.index.log ∧
        start.Becomes start.leaf disk ∧
        log'.Serves config disk origin base (applied ++ staged) [] := by
  rw [sync_eq]
  refine Meets.bind (meets_sync h.wellFormed log.active.file fun _ _ => trivial) ?_
  rintro _ disk - hsame
  refine Meets.bind (meets_sync hsame.wellFormed log.index.log fun _ _ => trivial) ?_
  rintro _ last - hsame'
  -- no byte of a file changes when it is synced
  have hbecomes : start.Becomes start.leaf last := (hsame.trans hsame').congr hsame.leaf_eq
  have hchanges : start.Changes ∅ last := hbecomes.changes fun _ _ => rfl
  refine meets_pure trivial ⟨rfl, rfl, rfl, hbecomes, ?_⟩
  have htracks := h.toTracks.of_changes hchanges (by simp) (by simp) (by simp)
  refine { htracks with index_leaf := ?_, scanned_eq := ?_, fits := ?_, first_eq := h.first_eq,
                        applied_eq := ?_, staged_eq := rfl }
  · rw [List.append_nil]
    exact htracks.index_leaf
  · rw [List.append_nil]
    exact htracks.scanned_eq
  · rw [List.append_nil]
    exact htracks.fits
  · rw [Found.lines_append, ← Index.ofEntries_union, ← h.applied_eq, ← h.staged_eq]

/-- A closed log leaves files that select all of its bindings. -/
theorem close (h : log.Serves config start origin base applied staged)
    (hseparate : config.Separate) (hadmits : start.Admits config.indexLog)
    (hbeside : start.Admits config.besideIndex) :
    Achieves log.close start (fun _ => True)
      (fun _ disk => start.Changes {config.besideIndex.place, config.place .index} disk ∧
        config.range? disk = some log.range ∧ ∀ key,
          selectedValue (config.indexed disk) (config.scanned disk log.range) key =
            latest (applied ++ staged).bindings key)
      (fun _ _ => False) := by
  refine Achieves.bind (achieves_lift h.sync) ?_
  rintro synced disk - ⟨-, hrange, -, hsame, hserves⟩
  refine Achieves.bind (achieves_lift (Index.meets_sync synced.index hserves.wellFormed
    fun _ _ => trivial)) ?_
  rintro _ middle - ⟨rfl, hsame'⟩
  have hbecomes : start.Becomes start.leaf middle := (hsame.trans hsame').congr hsame.leaf_eq
  have happlied : synced.index.applied ∪ synced.index.staged =
      AddressMap.ofEntries (applied ++ staged).lines := by
    rw [hserves.applied_eq, hserves.staged_eq, Index.ofEntries_union, ← Found.lines_append,
      List.append_nil]
  dsimp only
  -- the compact log has the lines of all records, since the barrier has applied them
  rw [hserves.path_eq, happlied]
  refine (IndexLog.achieves_store hbecomes.wellFormed (hseparate.besideIndex .index) _
    fun _ _ _ => trivial).imp ?_ ?_
  · rintro _ last - ⟨-, -, hchanges, file, hleaf⟩
    have hchanges : start.Changes {config.besideIndex.place, config.place .index} last :=
      (hbecomes.changes fun _ _ => rfl).trans hchanges
    have hkept : ∀ file, file ≠ .index →
        config.fileBytes last file = config.fileBytes start file := by
      intro file hfile
      refine Config.fileBytes_of_changes hchanges ?_
      simp [(hseparate.besideIndex file).symm, hseparate.place_ne hfile]
    have hindexed : config.indexed last = AddressMap.ofEntries (applied ++ staged).lines := by
      rw [Config.indexed, IndexLog.replayed_of_leaf hleaf, IndexLog.replay_compact]
    refine ⟨hchanges, ?_, fun key => ?_⟩
    · rw [Config.range?, hkept .range (by simp)]
      exact h.range?_eq
    · have hscanned : config.scanned last log.range = applied ++ staged := by
        rw [Config.scanned_congr fun id _ _ => hkept (.segment id) (by simp), ← h.scanned_eq,
          ← h.first_eq]
      rw [hscanned, hindexed]
      exact selected_settled [] (hscanned ▸ Config.ascending_scanned _ _ _) h.fits key
  · rintro _ last - ⟨-, hrefused⟩
    exact hrefused ⟨hbecomes.admits_iff.mpr hadmits, hbecomes.admits_iff.mpr hbeside⟩

end Serves

end ValueLog

end BarrierStore
