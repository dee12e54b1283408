import BarrierStore.Proofs.ValueLog.Bindings

/-!
# Lost ends

A crash of the machine may take the end of the active segment and the end of the index log, each cut
off at a byte of its own: in a record or a line, or between two. What lies in front of both cuts is
found, and of what lies behind one of them nothing is that was not put.

The module introduces `Config.EndsBefore`: a record ends in front of a place in a segment.

Main statements: `Tracks.scanned_cut` and `Serves.survives_cut`.
-/

namespace BarrierStore

/-- The record lies in front of the segment, or in it and ends within its first `length` bytes. -/
def Config.EndsBefore (config : Config) (segment : UInt64) (length : Nat) (entry : Nat × Record) :
    Prop :=
  entry.1 < segment.toNat * config.capacity.toNat ∨
    entry.1 < (segment.toNat + 1) * config.capacity.toNat ∧
      entry.1 + entry.2.length ≤ segment.toNat * config.capacity.toNat + length

/-- What ends in front of one place ends in front of those behind it. -/
theorem Config.EndsBefore.mono {config : Config} {segment segment' : UInt64} {length length' : Nat}
    {entry : Nat × Record} (h : config.EndsBefore segment length entry) (hsegment : segment ≤ segment')
    (hlength : segment' = segment → length ≤ length') : config.EndsBefore segment' length' entry := by
  by_cases hsame : segment' = segment
  · subst hsame
    have hle := hlength rfl
    exact h.imp_right fun ⟨hbelow, hend⟩ => ⟨hbelow, by omega⟩
  · have hlt : segment.toNat + 1 ≤ segment'.toNat :=
      UInt64.lt_iff_toNat_lt.mp (UInt64.lt_of_le_of_ne hsegment (Ne.symm hsame))
    have hmul : (segment.toNat + 1) * config.capacity.toNat ≤
        segment'.toNat * config.capacity.toNat := Nat.mul_le_mul_right _ hlt
    rw [Nat.succ_mul] at hmul
    rcases h with hfront | ⟨hbelow, -⟩
    · exact .inl (by omega)
    · rw [Nat.succ_mul] at hbelow
      exact .inl (by omega)

namespace ValueLog

variable {config : Config} {log : ValueLog} {start left : Disk} {origin : UInt64}
  {base : List (Bytes × UInt64)} {found applied staged : Found}

/-- Every record of an open log ends in what is written of its active segment, or lies in front of
it. -/
theorem Tracks.endsBefore (h : log.Tracks config start origin base found) {entry : Nat × Record}
    (hentry : entry ∈ found) : config.EndsBefore log.active.id log.active.length entry := by
  rw [← h.scanned_eq] at hentry
  obtain ⟨id, -, hnext, hmem⟩ := Config.mem_scanned_iff.mp hentry
  have hbelow := (Config.bounds_of_mem_scannedSegment hmem).2
  rw [UInt64.lt_iff_toNat_lt, h.next_eq] at hnext
  by_cases hactive : id = log.active.id
  · subst hactive
    -- a record of the active segment was found in its bytes
    refine .inr ⟨hbelow, ?_⟩
    obtain ⟨bytes, hleaf, hlength, -⟩ := h.active_leaf
    obtain ⟨⟨offset, record⟩, hfound, rfl⟩ := List.mem_map.mp hmem
    have hbytes : config.fileBytes start (.segment log.active.id) = some bytes :=
      Disk.bytesAt_of_leaf hleaf
    rw [hbytes, Option.getD_some] at hfound
    have hend := Scan.le_length_of_mem_recordsIn hfound
    dsimp only
    omega
  · -- a record of an earlier segment starts below the next one
    have hlt : id.toNat + 1 ≤ log.active.id.toNat := by
      have hne : id.toNat ≠ log.active.id.toNat := fun hsame => hactive (UInt64.toNat_inj.mp hsame)
      omega
    exact .inl (Nat.lt_of_lt_of_le hbelow (Nat.mul_le_mul_right _ hlt))

/-- The records are cut off with the active segment, behind those that end in front of the cut. -/
theorem Tracks.scanned_cut {front rest : Found}
    (h : log.Tracks config start origin base (front ++ rest)) {stop : Nat}
    (hactive : config.fileBytes left (.segment log.active.id) =
      (config.fileBytes start (.segment log.active.id)).map (List.take stop))
    (hother : ∀ id, id ≠ log.active.id →
      config.fileBytes left (.segment id) = config.fileBytes start (.segment id))
    (hfront : ∀ entry ∈ front, config.EndsBefore log.active.id stop entry) :
    ∃ count, config.scanned left ⟨origin, log.range.next⟩ = front ++ rest.take count := by
  obtain ⟨bytes, hleaf, -, hwhole⟩ := h.active_leaf
  have hbytes : config.fileBytes start (.segment log.active.id) = some bytes :=
    Disk.bytesAt_of_leaf hleaf
  obtain ⟨count, htaken, hcount⟩ := hwhole.take stop
  have hsealed : config.scanned left ⟨origin, log.active.id⟩ =
      config.scanned start ⟨origin, log.active.id⟩ :=
    Config.scanned_congr fun id _ hid => hother id (UInt64.ne_of_lt hid)
  have htail : config.scannedSegment left log.active.id =
      (config.scannedSegment start log.active.id).take count := by
    rw [Config.scannedSegment, hactive, hbytes, Option.map_some, Option.getD_some, htaken,
      Config.scannedSegment, hbytes, Option.getD_some, List.map_take]
  have hall := (h.scanned_split start).symm.trans h.scanned_eq
  rw [h.scanned_split left, hsealed, htail]
  -- the records in front end in the active segment, or in an earlier one
  rcases List.append_eq_append_iff.mp hall with ⟨last, hsplit, hlast⟩ | ⟨more, hmore, hrest⟩
  · have hfound : (config.scannedSegment start log.active.id).take last.length = last := by
      rw [hlast, List.take_left]
    -- those of the active segment end in front of the cut, so they are found
    have hkept : last.length ≤ count := by
      have hlength : last.length ≤ (Scan.recordsIn config.capacity.toNat bytes).length := by
        have := congrArg List.length hlast
        rw [Config.scannedSegment, hbytes, List.length_map, List.length_append] at this
        exact Nat.le.intro this.symm
      have hends := hcount _ _ (List.take_append_drop last.length _).symm fun entry hentry => ?_
      · rwa [List.length_take_of_le hlength] at hends
      · have hmem : (log.active.id.toNat * config.capacity.toNat + entry.1, entry.2) ∈ last := by
          rw [← hfound, Config.scannedSegment, hbytes, ← List.map_take]
          exact List.mem_map_of_mem hentry
        rcases hfront _ (hsplit ▸ List.mem_append_right _ hmem) with hbefore | ⟨-, hend⟩
        · dsimp only at hbefore
          omega
        · dsimp only at hend
          omega
    refine ⟨count - last.length, ?_⟩
    rw [hlast, List.take_append, List.take_of_length_le hkept, hsplit, List.append_assoc]
  · -- all of them are in earlier segments, which the cut leaves as they are
    refine ⟨more.length + count, ?_⟩
    rw [hmore, hrest, List.append_assoc, List.take_length_add_append]

/-- What a barrier has covered survives where neither cut is in front of it. -/
theorem Serves.survives_cut (h : log.Serves config start origin base applied staged)
    {stop lines : Nat}
    (hactive : config.fileBytes left (.segment log.active.id) =
      (config.fileBytes start (.segment log.active.id)).map (List.take stop))
    (hother : ∀ id, id ≠ log.active.id →
      config.fileBytes left (.segment id) = config.fileBytes start (.segment id))
    (hindex : config.fileBytes left .index = (config.fileBytes start .index).map (List.take lines))
    (hends : ∀ entry ∈ applied, config.EndsBefore log.active.id stop entry)
    (hlines : (IndexLog.encodeEntries (base ++ applied.lines)).length ≤ lines) (key : Bytes) :
    Survives (latest applied.bindings key)
      (selectedValue (config.indexed left) (config.scanned left log.range) key) staged.bindings key := by
  obtain ⟨records, hscanned⟩ := h.toTracks.scanned_cut hactive hother hends
  obtain ⟨lined, hreplayed⟩ := IndexLog.replay_take (base ++ applied.lines) staged.lines hlines
  have hrange : log.range = ⟨origin, log.range.next⟩ := by rw [← h.first_eq]
  -- the index log is cut behind the lines of what is covered, perhaps inside a later line
  have hindexed : config.indexed left = overlay (AddressMap.ofEntries base)
      (Found.lines (applied ++ staged.take lined)) := by
    have hbytes : config.fileBytes start .index = some (IndexLog.encodeEntries
        (base ++ applied.lines ++ staged.lines)) := by
      rw [List.append_assoc, ← Found.lines_append]
      exact Disk.bytesAt_of_leaf h.index_leaf
    rw [hbytes] at hindex
    calc config.indexed left
        = IndexLog.replay ((config.fileBytes left .index).getD []) := rfl
      _ = AddressMap.ofEntries (base ++ applied.lines ++ staged.lines.take lined) := by
          rw [hindex]
          exact hreplayed
      _ = AddressMap.ofEntries (base ++ Found.lines (applied ++ staged.take lined)) := by
          rw [Found.lines_append, Found.lines, Found.lines, Found.lines, List.map_take,
            List.append_assoc]
      _ = overlay (AddressMap.ofEntries base) (Found.lines (applied ++ staged.take lined)) :=
          List.foldl_append
  rw [hindexed, hrange, hscanned]
  exact selected_cut _ (h.scanned_eq ▸ Config.ascending_scanned _ _ _) h.fits lined records key

end ValueLog

end BarrierStore
