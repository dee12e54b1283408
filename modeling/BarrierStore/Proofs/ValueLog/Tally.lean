import BarrierStore.Proofs.ValueLog.Cursor
import BarrierStore.Proofs.ValueLog.Opening
import BarrierStore.Proofs.ValueLog.Segments

/-!
# What an opening copies and counts

An opening copies the records that its files select, each of them once, so it takes no more addresses than
they do. What it counts as dangling are the keys that the index log binds and none of these records has.

The module introduces:

* `Config.live` — the records that the files of a disk select;
* `Config.Affords` — addresses are left for these records;
* `ValueLog.Paced` — relocation has taken no more addresses so far than its copies need;
* `ValueLog.Tallied` — what an opening has copied and counted.

Main statements: `Tracks.recover_tallied` and `openAt_tallied`.
-/

namespace BarrierStore

open Drive

namespace Config

/-- The records that the files of a disk select, in the order of the segments. -/
def live (config : Config) (disk : Disk) (range : SegmentRange) : List Record :=
  (chosen (config.indexed disk) (config.scanned disk range) (config.scanned disk range)).map Prod.snd

/-- The capacity that the capacity file says. -/
def capacity? (config : Config) (disk : Disk) : Option UInt64 :=
  (config.fileBytes disk .capacity).bind Capacity.ofBytes?

/-- Behind `mark` addresses are left for these records, and for the ends of segments that they leave
free. -/
def Affords (config : Config) (mark : Nat) (records : List Record) : Prop :=
  mark + 2 * shares config.capacity.toNat records + 1 < UInt64.size

/-- Addresses are left for all that an opening copies. -/
def AffordsOpening (config : Config) (disk : Disk) : Prop :=
  disk.Reaches config.rangeFile ∧ ∀ range, config.range? disk = some range →
    config.Affords (range.next.toNat * config.capacity.toNat) (config.live disk range)

/-- What is afforded behind the segments of a range leaves addresses for all of each of them. -/
theorem Affords.addresses_le {config : Config} {old : SegmentRange} {records : List Record}
    (h : config.Affords (old.next.toNat * config.capacity.toNat) records) :
    ∀ id ∈ old.ids, (id.toNat + 1) * config.capacity.toNat ≤ UInt64.size := by
  intro id hid
  have hids : id.toNat + 1 ≤ old.next.toNat :=
    UInt64.lt_iff_toNat_lt.mp (SegmentRange.mem_ids_iff.mp hid).2
  have hle := Nat.mul_le_mul_right config.capacity.toNat hids
  rw [Affords] at h
  omega

end Config

namespace ValueLog

variable {config : Config} {log : ValueLog} {start disk : Disk} {origin : UInt64}
  {base : List (Bytes × UInt64)} {map best : AddressMap} {found front copies : Found}
  {old range : SegmentRange} {mark : Nat}

/-! ## The survivors -/

/-- A scan finds records below the capacity only. -/
theorem ends_scanSegment {failed : Fault → Prop} (hio : ∀ cause, failed (.io cause)) (log : ValueLog)
    (id : UInt64) :
    Ends (log.scanSegment id) (fun scan => ∀ entry ∈ scan.records, entry.1 < log.capacity.toNat)
      failed := by
  refine (ends_contentsOf? hio _).bind fun contents _ => ends_pure fun entry hentry => ?_
  exact (Scan.mem_records_fromOffset hentry).2.1

/-- A record of a segment has its address, if all of the segment has. -/
theorem addressOf_eq_ok {id : UInt64} {offset : Nat} (hoffset : offset < log.capacity.toNat)
    (hsegment : (id.toNat + 1) * log.capacity.toNat ≤ UInt64.size) :
    ∃ address, log.addressOf id offset = .ok address := by
  have hsize : id.toNat * log.capacity.toNat + offset < UInt64.size := by
    rw [Nat.succ_mul] at hsegment
    omega
  exact ⟨.ofNat (id.toNat * log.capacity.toNat + offset),
    by simp only [addressOf, Position.address?, if_pos hsize]⟩

/-- Going through segments takes no addresses. -/
theorem ends_survivors (log : ValueLog) (ids : List UInt64) :
    Ends (log.survivors ids) (fun _ => True) fun fault =>
      (∀ id ∈ ids, (id.toNat + 1) * log.capacity.toNat ≤ UInt64.size) → fault ≠ .arithmetic := by
  refine ends_foldlM trivial fun id hid best _ => ?_
  refine (ends_scanSegment (fun _ _ => nofun) log id).bind fun scan hscan => ?_
  refine ends_foldlM trivial fun entry hentry best _ => ?_
  refine (ends_outcome (fun _ _ => trivial) fun fault hfault hids => ?_).bind fun _ _ =>
    ends_pure trivial
  obtain ⟨address, haddress⟩ := addressOf_eq_ok (hscan entry hentry) (hids id hid)
  rw [haddress] at hfault
  cases hfault

/-! ## The copies -/

/-- Relocation has gone through `front`, and by that the log has come no further from `mark` than its
copies need. -/
structure Paced (config : Config) (start : Disk) (origin : UInt64) (base : List (Bytes × UInt64))
    (map : AddressMap) (found : Found) (range : SegmentRange) (mark : Nat) (front : Found)
    (log : ValueLog) (disk : Disk) : Prop where
  exists_copies : ∃ copies, Relocated config start origin base map found range front copies log disk
  cursor_le : log.cursor ≤
    mark + 2 * shares config.capacity.toNat ((chosen map found front).map Prod.snd)

/-- A record that is passed over takes no addresses, and one that is copied takes its share. -/
theorem ends_relocateRecord (hnext : log.range.next.toNat = log.active.id.toNat + 1)
    (hcapacity : log.capacity ≠ 0) {id address : UInt64} {entry : Nat × Record}
    (haddress : log.addressOf id entry.1 = .ok address) (best : AddressMap) (report : Recovery) :
    let kept := if best[entry.2.key]? = some address then [entry.2] else []
    Ends (relocateRecord best id (log, report) entry)
      (fun state => state.1.cursor ≤ log.cursor + 2 * shares log.capacity.toNat kept)
      (fun fault => log.cursor + 2 * shares log.capacity.toNat kept + 1 < UInt64.size →
        fault ≠ .arithmetic) := by
  intro kept
  unfold relocateRecord
  dsimp only
  rw [haddress]
  refine (ends_outcome (fun _ hfound => Except.ok.inj hfound) nofun).bind ?_
  rintro _ rfl
  split
  · rename_i hbest
    have hkept : kept = [entry.2] := if_pos hbest
    rw [hkept, shares_singleton]
    exact (ends_store hnext hcapacity entry.2).bind fun _ hstored => ends_pure hstored
  · exact ends_pure (Nat.le_add_right _ _)

section Relocate

variable (hseparate : config.Separate) (hcapacity : config.capacity ≠ 0) (hascending : found.Ascending)
  (hfits : ∀ entry ∈ found, entry.1 < UInt64.size) (hbest : Selects map found best)

include hseparate hcapacity hascending hfits hbest

/-- One record more is gone through. -/
theorem Paced.step {rest : Found}
    (h : Paced config start origin base map found range mark front log disk) {report : Recovery}
    {id : UInt64} {next : Nat × Record} (hsmall : next.2.Small)
    (hfound : found = front ++ addressed config id next :: rest) :
    Achieves (relocateRecord best id (log, report) next) disk (fun _ => True)
      (fun state last => Paced config start origin base map found range mark
        (front ++ [addressed config id next]) state.1 last)
      (fun fault _ => config.Affords mark ((chosen map found found).map Prod.snd) →
        fault ≠ .arithmetic) := by
  obtain ⟨copies, hcopies⟩ := h.exists_copies
  have hmem : addressed config id next ∈ found := by simp [hfound]
  have hsame : log.capacity = config.capacity := hcopies.tracks.capacity_eq
  obtain ⟨address, hentry, haddress⟩ := hcopies.exists_address hfits hmem
  -- the record is copied if the index selects it, and counts among the chosen ones then
  have hchosen : (chosen map found (front ++ [addressed config id next])).map Prod.snd =
      (chosen map found front).map Prod.snd ++
        if best[next.2.key]? = some address then [next.2] else [] := by
    rw [hentry] at hmem ⊢
    rw [chosen_concat, List.map_append]
    simp only [hbest.eq_some_iff hascending hfits hmem]
    congr 1
    split <;> rfl
  have hwithin := h.cursor_le
  have hends := ends_relocateRecord hcopies.tracks.next_eq (hsame ▸ hcapacity) haddress best report
  rw [hsame] at hends
  refine ((hcopies.step hseparate hcapacity hascending hfits hbest (fun _ _ _ _ _ _ => trivial) hsmall
    hfound).and_ends hends).imp ?_ ?_
  · rintro state last - ⟨hcopied, hcursor⟩
    refine ⟨hcopied, ?_⟩
    rw [hchosen, shares_append]
    omega
  · rintro fault _ - ⟨-, hfault⟩ haffords
    refine hfault (Nat.lt_of_le_of_lt ?_ haffords)
    -- what is chosen so far is the front of all that is chosen
    have hle : shares config.capacity.toNat
          ((chosen map found (front ++ [addressed config id next])).map Prod.snd) ≤
        shares config.capacity.toNat ((chosen map found found).map Prod.snd) := by
      refine shares_le_of_sublist (List.Sublist.map _ (List.Sublist.filter _ ?_))
      have hsplit : found = front ++ [addressed config id next] ++ rest := by simp [hfound]
      rw [hsplit]
      exact List.sublist_append_left _ _
    rw [hchosen, shares_append] at hle
    omega

/-- The records of one old segment are gone through. -/
theorem Paced.segment {rest : Found} {state : ValueLog × Recovery}
    (h : Paced config start origin base map found range mark front state.1 disk)
    {id : UInt64} (hold : id < origin)
    (hfound : found = front ++ config.scannedSegment start id ++ rest) :
    Achieves (relocateSegment best state id) disk (fun _ => True)
      (fun state last => Paced config start origin base map found range mark
        (front ++ config.scannedSegment start id) state.1 last)
      (fun fault _ => config.Affords mark ((chosen map found found).map Prod.snd) →
        fault ≠ .arithmetic) := by
  obtain ⟨copies, hcopies⟩ := h.exists_copies
  have hsame := Config.scannedSegment_congr (hcopies.fileBytes_eq hseparate hold)
  rw [← hsame] at hfound ⊢
  refine achieves_relocateSegment (fun seen => Paced config start origin base map found range mark
    (front ++ seen)) hcopies.tracks.stem_eq hcopies.tracks.capacity_eq
    (hcopies.tracks.reaches_of_lt hold) trivial (fun _ _ _ => nofun) (by simpa using h) ?_
  intro seen next tail hseen hsmall log report last _ hlast
  have hfound' : found = front ++ seen ++ addressed config id next :: (tail ++ rest) := by
    rw [hfound, hseen]
    simp
  rw [← List.append_assoc]
  exact hlast.step hseparate hcapacity hascending hfits hbest hsmall hfound'

end Relocate

/-- Relocation takes no more addresses than its copies need. -/
theorem achieves_relocate_paced
    (h : Relocated config start old.next base map (config.scanned start old) range [] [] log start)
    (hseparate : config.Separate) (hcapacity : config.capacity ≠ 0)
    (hfits : ∀ entry ∈ config.scanned start old, entry.1 < UInt64.size)
    (hbest : Selects map (config.scanned start old) best) :
    Achieves (log.relocate best old.ids) start (fun _ => True)
      (fun state disk => Paced config start old.next base map (config.scanned start old) range log.cursor
        (config.scanned start old) state.1 disk)
      (fun fault _ => config.Affords log.cursor
          ((chosen map (config.scanned start old) (config.scanned start old)).map Prod.snd) →
        fault ≠ .arithmetic) := by
  have hascending := Config.ascending_scanned config start old
  refine achieves_foldlM (fun ids (state : ValueLog × Recovery) disk =>
    Paced config start old.next base map (config.scanned start old) range log.cursor
      (ids.flatMap (config.scannedSegment start)) state.1 disk) trivial
      ⟨⟨[], h⟩, Nat.le_add_right _ _⟩ ?_
  rintro front id rest hids state disk - hpaced
  have hfound : config.scanned start old = front.flatMap (config.scannedSegment start) ++
      config.scannedSegment start id ++ rest.flatMap (config.scannedSegment start) := by
    rw [Config.scanned, hids]
    simp
  have hold : id < old.next := (SegmentRange.mem_ids_iff.mp (show id ∈ old.ids by simp [hids])).2
  refine (hpaced.segment hseparate hcapacity hascending hfits hbest hold hfound).imp_done ?_
  intro state' last _ hdone
  simpa using hdone

/-! ## What recovery counts -/

/-- The keys that are kept are those of the copies. -/
theorem size_retained (hbest : Selects map found best) (hascending : found.Ascending)
    (hrecords : copies.map Prod.snd = (chosen map found found).map Prod.snd) :
    (map.filter fun key _ => best.contains key).size = (AddressMap.ofEntries copies.lines).size := by
  have hcopies : Copies map found copies :=
    copies_of_chosen hascending (List.append_nil _).symm hrecords
  refine size_eq_of_isSome fun key => ?_
  rw [Std.ExtTreeMap.getElem?_filter', getElem?_ofEntries, Found.latest_lines,
    Std.ExtTreeMap.contains_eq_isSome_getElem?, hbest key]
  rcases hlast : copies.last? key with _ | entry
  · -- a key without a copy has no record that is selected
    have hnone : selected map found key = none := by
      rcases hselected : selected map found key with _ | entry
      · rfl
      · obtain rfl := (mem_of_selected hselected).2
        obtain ⟨address, hcopy⟩ := exists_copy_of_chosen hrecords hselected
        exact absurd rfl (Found.last?_eq_none_iff.mp hlast (address, entry.2) hcopy)
    rw [hnone]
    cases map[key]? <;> rfl
  · obtain ⟨hmem, rfl⟩ := Found.mem_of_last? hlast
    obtain ⟨address, haddress⟩ := hcopies.source hmem
    obtain ⟨indexed, hindexed, -⟩ := Option.bind_eq_some_iff.mp haddress
    rw [haddress, hindexed]
    rfl

/-- What an opening has copied and counted. -/
structure Tallied (config : Config) (start : Disk) (old : SegmentRange) (log : ValueLog)
    (report : Recovery) (disk : Disk) : Prop where
  live_eq : (config.scanned disk log.range).map Prod.snd = config.live start old
  cursor_le : log.cursor ≤ old.next.toNat * config.capacity.toNat +
    2 * shares config.capacity.toNat (config.live start old)
  indexed_eq : config.indexed disk = config.indexed start ∪ log.index.applied
  size_eq : log.index.applied.size + report.dangling = (config.indexed start).size
  indexed_of_applied (key : Bytes) : log.index.applied[key]?.isSome →
    (config.indexed start)[key]?.isSome
  capacity_eq : config.capacity? start = some config.capacity →
    config.capacity? disk = some config.capacity

/-- An old segment goes, or was not there, and no other file changes. -/
theorem changes_removeSegment (h : start.WellFormed) (hstem : log.segmentStem = config.segmentStem)
    (id : UInt64) :
    Achieves (log.removeSegment id) start (fun _ => True)
      (fun _ disk => start.Changes {config.place (.segment id)} disk)
      (fun fault _ => fault ≠ .arithmetic) := by
  unfold removeSegment
  rw [segmentFile_eq hstem]
  have hremoved : Achieves (remove (config.segmentFile id)) start (fun _ => True) _ _ :=
    spares_remove h (config.segmentFile id) fun _ _ _ => trivial
  refine Achieves.bind (m := fun outcome disk =>
    start.Changes {config.place (.segment id)} disk ∧ outcome ≠ .error .arithmetic)
    (Achieves.attempt ((hremoved.and_ends
      (@ends_remove (· ≠ .arithmetic) (fun _ => nofun) _)).imp ?_ ?_)) ?_
  · exact fun _ disk _ hdone => ⟨hdone.1.toChanges, nofun⟩
  · rintro fault _ - ⟨rfl, hfault⟩
    exact ⟨.refl h, by simpa using hfault⟩
  rintro outcome disk - ⟨hchanges, hfault⟩
  split
  · exact achieves_pure trivial hchanges
  · exact achieves_pure trivial hchanges
  · exact achieves_throw trivial fun harithmetic => hfault (by rw [harithmetic])

/-- The old segments go and the range is stored, and no other file changes. -/
theorem achieves_discard (h : start.WellFormed) (hseparate : config.Separate)
    (hstem : log.segmentStem = config.segmentStem) (hfile : log.rangeFile = config.rangeFile)
    (old range : SegmentRange) :
    Achieves (do old.ids.forM log.removeSegment; range.store log.rangeFile) start (fun _ => True)
      (fun _ disk => ∀ file, file ≠ .range → (∀ id, id < old.next → file ≠ .segment id) →
        config.fileBytes disk file = config.fileBytes start file)
      (fun fault _ => fault ≠ .arithmetic) := by
  let retired : Set Location := {place | ∃ id, id < old.next ∧ config.place (.segment id) = place}
  refine Achieves.bind (achieves_forM (fun _ disk => start.Changes retired disk) trivial (.refl h) ?_) ?_
  · rintro front id rest hids disk - hchanges
    have hold : id < old.next := (SegmentRange.mem_ids_iff.mp (show id ∈ old.ids by simp [hids])).2
    refine (changes_removeSegment hchanges.wellFormed hstem id).imp_done ?_
    intro _ last _ hremoved
    refine hchanges.trans (hremoved.mono ?_)
    rintro place rfl
    exact ⟨id, hold, rfl⟩
  rintro _ cleared - hcleared
  rw [hfile]
  refine ((achieves_replaceFile_of_changes hcleared.wellFormed (hseparate.besideRange .range) _
    fun _ _ _ => trivial).and_ends (@ends_replaceFile (· ≠ .arithmetic) (fun _ => nofun)
      _ _ _)).imp ?_ fun _ _ _ hfault => hfault.2
  rintro _ disk - ⟨⟨-, -, hstored, -⟩, -⟩ file hrange hsegment
  rw [Config.fileBytes_of_changes hstored, Config.fileBytes_of_changes hcleared]
  · rintro ⟨id, hid, hplace⟩
    exact hsegment id hid (hseparate.injective hplace.symm)
  · rintro (hplace | hplace)
    · exact hseparate.besideRange file hplace.symm
    · exact hrange (hseparate.injective hplace)

/-- With its copies applied, the keys without one dropped, and the old segments gone, a log counts what
was relocated. -/
theorem Relocated.tallied {moved : ValueLog} {last : Disk}
    (h : Relocated config start old.next base map (config.scanned start old) range
      (config.scanned start old) copies moved disk) (hseparate : config.Separate)
    (hbest : Selects map (config.scanned start old) best) (hindexed : config.indexed start = map)
    (hmap : map = AddressMap.ofEntries base)
    (hcursor : moved.cursor ≤ old.next.toNat * config.capacity.toNat +
      2 * shares config.capacity.toNat (config.live start old))
    (hbytes : ∀ file, file ≠ .range → (∀ id, id < old.next → file ≠ .segment id) →
      config.fileBytes last file = config.fileBytes disk file) (report : Recovery) :
    let kept := moved.index.retain best.contains
    Tallied config start old
      { moved with
        index := { kept with staged := ∅, applied := kept.applied ∪ kept.staged }
        range := { moved.range with first := old.next } }
      { report with dangling := moved.index.applied.size - kept.applied.size } last := by
  intro kept
  have hascending := Config.ascending_scanned config start old
  have happlied : kept.applied ∪ kept.staged = AddressMap.ofEntries copies.lines := by
    show (moved.index.retain best.contains).applied ∪ moved.index.staged = _
    rw [Index.retain, h.applied_eq, h.staged_eq]
    exact retained_union hbest fun _ => exists_copy_of_chosen h.records_eq
  refine ⟨?_, hcursor, ?_, ?_, fun key => ?_, ?_⟩
  · -- what is scanned now are the copies
    have hscanned : config.scanned last ⟨old.next, moved.range.next⟩ = copies := by
      rw [← h.tracks.scanned_eq]
      refine Config.scanned_congr fun id hid _ => hbytes _ (by simp) fun other hother => ?_
      exact (ValueFile.segment_ne (UInt64.lt_of_lt_of_le hother hid)).symm
    rw [Config.live, hindexed, ← h.records_eq]
    exact congrArg _ hscanned
  · rw [Config.indexed_congr (hbytes .index (by simp) (by simp)), h.tracks.indexed_eq, hindexed,
      hmap, ← Index.ofEntries_union]
    exact congrArg _ happlied.symm
  · -- the keys that are dropped are those that point into nothing
    have hkept := size_retained hbest hascending h.records_eq
    have hle : (map.filter fun key _ => best.contains key).size ≤ map.size :=
      Std.ExtTreeMap.size_filter_le_size
    show (kept.applied ∪ kept.staged).size +
      (moved.index.applied.size - (moved.index.retain best.contains).applied.size) = _
    rw [happlied, hindexed, h.applied_eq, Index.retain, h.applied_eq, hkept]
    rw [hkept] at hle
    omega
  · -- a copy has its source among the indexed records
    show (kept.applied ∪ kept.staged)[key]?.isSome → _
    rw [happlied, getElem?_ofEntries, Found.latest_lines, Option.isSome_map]
    intro hsome
    obtain ⟨entry, hlast⟩ := Option.isSome_iff_exists.mp hsome
    obtain ⟨hmem, rfl⟩ := Found.mem_of_last? hlast
    obtain ⟨address, haddress⟩ := (copies_of_chosen hascending (List.append_nil _).symm
      h.records_eq).source hmem
    obtain ⟨indexed, hindexed', -⟩ := Option.bind_eq_some_iff.mp haddress
    rw [hindexed, hindexed']
    rfl
  · intro hsaid
    rw [Config.capacity?, hbytes .capacity (by simp) (by simp), Config.fileBytes_of_changes
      h.changes (hseparate.not_mem_sessionPlaces (by simp) (by simp) (by simp))]
    exact hsaid

/-- Recovery copies what its files select, and takes no more addresses than that needs. -/
theorem Tracks.recover_tallied (h : log.Tracks config start old.next base [])
    (hseparate : config.Separate) (hcapacity : config.capacity ≠ 0)
    (happlied : log.index.applied = AddressMap.ofEntries base) (hstaged : log.index.staged = ∅)
    (hcursor : log.cursor = old.next.toNat * config.capacity.toNat) :
    Achieves (log.recover old) start (fun _ => True)
      (fun state disk => Tallied config start old state.1 state.2 disk)
      (fun fault _ => config.Affords log.cursor (config.live start old) → fault ≠ .arithmetic) := by
  have hindexed : config.indexed start = log.index.applied := by
    rw [h.indexed_eq, happlied]
    exact congrArg _ (List.append_nil _)
  have hlive : config.live start old = (chosen log.index.applied (config.scanned start old)
      (config.scanned start old)).map Prod.snd := by
    rw [Config.live, hindexed]
  have hreaches : ∀ id ∈ old.ids, start.Reaches (config.segmentFile id) := fun id hid =>
    h.reaches_of_lt (SegmentRange.mem_ids_iff.mp hid).2
  unfold ValueLog.recover
  refine Achieves.bind (((achieves_survivors h.stem_eq h.capacity_eq hreaches trivial).and_ends
    (ends_survivors log old.ids)).imp_failed ?_) ?_
  · rintro fault _ - ⟨-, hfault⟩ haffords
    rw [hcursor] at haffords
    exact hfault (h.capacity_eq ▸ haffords.addresses_le)
  rintro best _ - ⟨⟨rfl, -, hbest, hfits⟩, -⟩
  refine Achieves.bind ((achieves_relocate_paced (h.relocated hstaged) hseparate hcapacity hfits
    hbest).imp_failed fun _ _ _ hfault => hlive ▸ hfault) ?_
  rintro ⟨moved, report⟩ disk - ⟨⟨copies, hmoved⟩, hwithin⟩
  rw [hcursor, ← hlive] at hwithin
  dsimp only at hmoved hwithin ⊢
  refine Achieves.bind (achieves_lift ((spares_sync hmoved.tracks.wellFormed
    { moved with index := moved.index.retain best.contains }).mono (fun _ _ => trivial)
      fun _ _ _ hdone => hdone)) ?_
  rintro _ synced - ⟨rfl, hspares, -⟩
  rw [← bind_assoc]
  refine Achieves.bind ((achieves_discard hspares.wellFormed hseparate hmoved.tracks.stem_eq
    hmoved.tracks.rangeFile_eq old _).imp_failed fun _ _ _ hfault _ => hfault) ?_
  rintro _ last - hbytes
  -- a barrier changes no file, so the files of the fresh segments are those that relocation left
  refine achieves_pure trivial (hmoved.tallied hseparate hbest hindexed happlied hwithin ?_ report)
  intro file hrange hsegment
  rw [hbytes file hrange hsegment,
    Config.fileBytes_of_changes hspares.toChanges (Set.notMem_empty _)]

/-! ## What an opening counts -/

/-- A range file that cannot be loaded is a failure of a file, or of what is in it. -/
theorem ends_load {failed : Fault → Prop} (hio : ∀ cause, failed (.io cause))
    (hstorage : ∀ cause, failed (.storage cause)) (path : Path) :
    Ends (SegmentRange.load path) (fun _ => True) failed := by
  refine (ends_readText? hio path).bind fun text _ => ?_
  cases text with
  | none => exact ends_pure trivial
  | some text =>
    dsimp only
    split
    · exact ends_pure trivial
    · exact ends_throw (hstorage _)

/-- So is a capacity file. -/
theorem ends_load? {failed : Fault → Prop} (hio : ∀ cause, failed (.io cause))
    (hstorage : ∀ cause, failed (.storage cause)) (path : Path) :
    Ends (Capacity.load? path) (fun _ => True) failed := by
  refine (ends_readText? hio path).bind fun text _ => ?_
  cases text with
  | none => exact ends_pure trivial
  | some text =>
    dsimp only
    split
    · exact ends_pure trivial
    · exact ends_throw (hstorage _)

variable {index : Index}

/-- What was counted on files that say the same was counted on these. -/
theorem Tallied.congr {middle : Disk} {report : Recovery}
    (h : Tallied config middle old log report disk)
    (hindexed : config.indexed middle = config.indexed start)
    (hscanned : config.scanned middle old = config.scanned start old)
    (hcapacity : config.capacity? start = some config.capacity →
      config.capacity? middle = some config.capacity) :
    Tallied config start old log report disk := by
  have hlive : config.live middle old = config.live start old := by
    rw [Config.live, hindexed, hscanned, Config.live]
  exact ⟨hlive ▸ h.live_eq, hlive ▸ h.cursor_le, hindexed ▸ h.indexed_eq, hindexed ▸ h.size_eq,
    hindexed ▸ h.indexed_of_applied, fun hstart => h.capacity_eq (hcapacity hstart)⟩

/-- The fresh segment takes no address, and behind it recovery takes what its copies need. -/
theorem openFresh_tallied (h : start.WellFormed) (hseparate : config.Separate)
    (hcapacity : config.capacity ≠ 0) (hpath : index.path = config.indexLog)
    (hstaged : index.staged = ∅)
    (hleaf : start.leaf (config.place .index) = some (index.log, IndexLog.compact index.applied))
    (horder : old.first ≤ old.next) :
    Achieves (openFresh config index old) start (fun _ => True)
      (fun state disk => start.Admits config.rangeFile ∧
        Tallied config start old state.1 state.2 disk)
      (fun fault _ => config.Affords (old.next.toNat * config.capacity.toNat)
        (config.live start old) → fault ≠ .arithmetic) := by
  unfold openFresh
  split
  case h_2 hnone =>
    refine achieves_throw trivial fun haffords => ?_
    -- there are no fewer addresses than ids of segments
    have hids : old.next.toNat ≤ old.next.toNat * config.capacity.toNat :=
      Nat.le_mul_of_pos_right _ (Position.capacity_pos hcapacity)
    have hsize : old.next.toNat + 1 < UInt64.size := by
      rw [Config.Affords] at haffords
      omega
    exact (hnone _ (if_pos hsize)).elim
  rename_i range hgrow
  obtain ⟨hfirst, hnext⟩ := SegmentRange.of_grow? hgrow
  rw [← bind_assoc]
  have hgrown : Achieves (do range.store config.rangeFile; create (config.segmentFile old.next)) start
      (fun _ => True) _ _ :=
    achieves_grow h hseparate (hfirst ▸ UInt64.le_trans horder (SegmentRange.le_next hnext)) old.next
      fun _ _ _ => trivial
  refine Achieves.bind ((hgrown.and_ends ((@ends_replaceFile (· ≠ .arithmetic) (fun _ => nofun)
    _ _ _).bind fun _ _ => ends_create (fun _ => nofun) _)).imp_failed
      fun _ _ _ hfault _ => hfault.2) ?_
  rintro file grown - ⟨⟨hadmits, -, hsegment, hchanges, hbytes, hfresh⟩, -⟩
  have htracks := tracks_of_fresh hseparate hpath hleaf horder hfirst hnext hchanges hsegment hbytes
    hfresh
  -- the fresh segment is not among the old ones
  have hother : ∀ file, file ≠ .range → file ≠ .segment old.next →
      config.fileBytes grown file = config.fileBytes start file := fun file hfile hfile' =>
    Config.fileBytes_of_changes hchanges (hseparate.not_mem_growthPlaces hfile hfile')
  have hindexed : config.indexed grown = config.indexed start :=
    Config.indexed_congr (hother .index (by simp) (by simp))
  have hscanned : config.scanned grown old = config.scanned start old :=
    Config.scanned_congr fun id _ hid => hother _ (by simp) (by simpa using UInt64.ne_of_lt hid)
  have hcursor : cursor ⟨config.capacity, config.segmentStem, config.rangeFile, index, range,
      ⟨old.next, file, 0⟩⟩ = old.next.toNat * config.capacity.toNat := by
    simp [cursor]
  refine (htracks.recover_tallied hseparate hcapacity (Index.ofEntries_toList _).symm hstaged
    hcursor).imp ?_ ?_
  · intro state disk _ htallied
    refine ⟨hadmits, htallied.congr hindexed hscanned fun hsaid => ?_⟩
    rw [Config.capacity?, hother .capacity (by simp) (by simp)]
    exact hsaid
  · intro fault disk _ hfault haffords
    rw [hcursor, Config.live, hindexed, hscanned] at hfault
    exact hfault haffords

/-- Where the capacity was checked, the capacity file says it. -/
theorem checkCapacity_recorded (h : start.WellFormed) (hseparate : config.Separate)
    (hcapacity : config.capacity ≠ 0) :
    Achieves (checkCapacity config) start (fun _ => True)
      (fun _ disk => start.Changes (capacityPlaces config) disk ∧
        config.capacity? disk = some config.capacity)
      (fun fault _ => fault ≠ .arithmetic) := by
  unfold checkCapacity
  dsimp only
  refine Achieves.bind (((Capacity.achieves_load? _ trivial).and_ends
    (@ends_load? (· ≠ .arithmetic) (fun _ => nofun) (fun _ => nofun) _)).imp_failed
      fun _ _ _ hfault => hfault.2) ?_
  rintro recorded _ - ⟨⟨rfl, hfound⟩, -⟩
  -- a capacity that is there has to be the same one, and one that is not is stored
  cases recorded with
  | some recorded =>
    obtain ⟨-, hrecorded, -⟩ := hfound nofun
    dsimp only
    split
    · exact achieves_throw trivial nofun
    · rename_i hsame
      obtain rfl := not_not.mp hsame
      exact achieves_pure trivial ⟨.refl h, hrecorded.symm⟩
  | none =>
    refine ((achieves_replaceFile_of_changes h (hseparate.besideCapacity .capacity) _
      fun _ _ _ => trivial).and_ends (@ends_replaceFile (· ≠ .arithmetic) (fun _ => nofun)
        _ _ _)).imp ?_ fun _ _ _ hfault => hfault.2
    rintro _ disk - ⟨⟨-, -, hchanges, file, hleaf⟩, -⟩
    refine ⟨hchanges, ?_⟩
    have hbytes : config.fileBytes disk .capacity =
        some (Utf8.encode (Capacity.encode config.capacity)) := Disk.bytesAt_of_leaf hleaf
    rw [Config.capacity?, hbytes, Option.bind_some, Capacity.ofBytes?_encode hcapacity]

/-- An opening has copied and counted, and the capacity file says its capacity. -/
def Opens (config : Config) (start : Disk) (log : ValueLog) (report : Recovery) (disk : Disk) : Prop :=
  config.capacity? disk = some config.capacity ∧
    ∃ old, config.range? start = some old ∧ Tallied config start old log report disk

/-- Openings do the same on files that say the same. -/
theorem Opens.of_bytes {middle : Disk} {report : Recovery} (h : Opens config middle log report disk)
    (hindexed : config.indexed middle = config.indexed start)
    (hbytes : ∀ file, file ≠ .index → file ≠ .capacity →
      config.fileBytes middle file = config.fileBytes start file)
    (hcapacity : config.capacity? start = some config.capacity →
      config.capacity? middle = some config.capacity) : Opens config start log report disk := by
  obtain ⟨hsaid, old, hrange, htallied⟩ := h
  refine ⟨hsaid, old, ?_, htallied.congr hindexed ?_ hcapacity⟩
  · rw [← hrange, Config.range?_congr (hbytes .range (by simp) (by simp))]
  · exact Config.scanned_congr fun id _ _ => hbytes (.segment id) (by simp) (by simp)

/-- Whether there are enough addresses does not depend on the capacity file, nor on the order of lines in
the index log. -/
theorem affordsOpening_congr {middle : Disk} (hreaches : start.Reaches config.rangeFile →
      middle.Reaches config.rangeFile) (hindexed : config.indexed middle = config.indexed start)
    (hbytes : ∀ file, file ≠ .index → file ≠ .capacity →
      config.fileBytes middle file = config.fileBytes start file)
    (h : config.AffordsOpening start) : config.AffordsOpening middle := by
  refine ⟨hreaches h.1, fun range hrange => ?_⟩
  have hsame : config.live middle range = config.live start range := by
    rw [Config.live, hindexed, Config.scanned_congr fun id _ _ =>
      hbytes (.segment id) (by simp) (by simp), Config.live]
  rw [hsame]
  exact h.2 range (by rw [← hrange, Config.range?_congr (hbytes .range (by simp) (by simp))])

/-- With the directory there, an opening takes no more addresses than its copies need. -/
theorem openFound_tallied (h : start.WellFormed) (hseparate : config.Separate)
    (hcapacity : config.capacity ≠ 0) (hpath : index.path = config.indexLog)
    (hstaged : index.staged = ∅)
    (hleaf : start.leaf (config.place .index) = some (index.log, IndexLog.compact index.applied)) :
    Achieves (openFound config index) start (fun _ => True)
      (fun state disk => Opens config start state.1 state.2 disk)
      (fun fault _ => config.AffordsOpening start → fault ≠ .arithmetic) := by
  refine Achieves.bind (((SegmentRange.achieves_load _ trivial).and_ends
    (@ends_load (· ≠ .arithmetic) (fun _ => nofun) (fun _ => nofun) _)).imp_failed
      fun _ _ _ hfault _ => hfault.2) ?_
  rintro old _ - ⟨⟨rfl, horder, hloaded⟩, -⟩
  refine Achieves.bind ((checkCapacity_recorded h hseparate hcapacity).imp_failed
    fun _ _ _ hfault _ => hfault) ?_
  rintro _ checked - ⟨hchanges, hsaid⟩
  -- the capacity file has no part in what is loaded and scanned
  have hother : ∀ file, file ≠ .capacity →
      config.fileBytes checked file = config.fileBytes start file := fun file hfile =>
    Config.fileBytes_of_changes hchanges (not_mem_capacityPlaces hseparate hfile)
  have hindexed := Config.indexed_congr (hother .index (by simp))
  refine (openFresh_tallied hchanges.wellFormed hseparate hcapacity hpath hstaged
    ((hchanges.leaf_eq (not_mem_capacityPlaces hseparate (by simp))).trans hleaf) horder).imp ?_ ?_
  · rintro state disk - ⟨hadmits, htallied⟩
    have hopens : Opens config checked state.1 state.2 disk := by
      refine ⟨htallied.capacity_eq hsaid, old, ?_, htallied⟩
      rw [Config.range?_congr (hother .range (by simp))]
      exact (hloaded (hchanges.reaches_iff.mp hadmits.toReaches)).2
    exact hopens.of_bytes hindexed (fun file _ => hother file) fun _ => hsaid
  · intro fault disk _ hfault haffords
    have hchecked := affordsOpening_congr hchanges.reaches_iff.mpr hindexed
      (fun file _ => hother file) haffords
    refine hfault (hchecked.2 old ?_)
    rw [Config.range?_congr (hother .range (by simp))]
    exact (hloaded haffords.1).2

/-- So does one that makes its directory first. -/
theorem openWith_tallied (h : start.WellFormed) (hseparate : config.Separate)
    (hpath : index.path = config.indexLog) (hstaged : index.staged = ∅)
    (hleaf : start.leaf (config.place .index) = some (index.log, IndexLog.compact index.applied)) :
    Achieves (openWith config index) start (fun _ => True)
      (fun state disk => Opens config start state.1 state.2 disk)
      (fun fault _ => config.AffordsOpening start → fault ≠ .arithmetic) := by
  rw [openWith_eq]
  cases hvalid : config.validate with
  | error cause => exact achieves_throw trivial fun _ => nofun
  | ok =>
    refine Achieves.bind (((onlyGrows_makeParent config.segmentStem start h).and_ends
      (@ends_makeParent (· ≠ .arithmetic) (fun _ => nofun) _)).mono (fun _ _ => trivial)
        (fun _ _ _ hdone => hdone) fun _ _ _ hfault _ => hfault.2) ?_
    rintro _ grown - ⟨hgrows, -⟩
    -- a directory that is made takes no file with it
    have hbytes : ∀ file, config.fileBytes grown file = config.fileBytes start file :=
      Config.fileBytes_of_leaf_eq hgrows.leaf_eq
    have hindexed := Config.indexed_congr (hbytes .index)
    refine (openFound_tallied hgrows.wellFormed hseparate (capacity_ne_of_validate hvalid) hpath
      hstaged ((congrFun hgrows.leaf_eq _).trans hleaf)).imp ?_ ?_
    · intro state disk _ hopens
      refine hopens.of_bytes hindexed (fun file _ _ => hbytes file) fun hsaid => ?_
      rw [Config.capacity?, hbytes]
      exact hsaid
    · exact fun fault disk _ hfault haffords => hfault (affordsOpening_congr
        (Disk.Reaches.mono hgrows.keepsDirectories) hindexed (fun file _ _ => hbytes file) haffords)

/-- Opening the index takes no addresses. -/
theorem ends_openIndex (path : Path) :
    Ends (Index.openAt path) (fun _ => True) (· ≠ .arithmetic) := by
  have hio : ∀ cause, Fault.io cause ≠ .arithmetic := fun _ => nofun
  have hload : Ends (IndexLog.load path) (fun _ => True) (· ≠ .arithmetic) := by
    refine (ends_contentsOf? hio path).bind fun contents _ => ?_
    cases contents <;> exact ends_pure trivial
  exact hload.bind fun _ _ => (ends_replaceFile hio _ _ _).bind fun _ _ =>
    (ends_openForWriting hio _ _).bind fun _ _ => ends_pure trivial

/-- Whatever directories are there, an opening takes no more addresses than its copies need. -/
theorem openAt_tallied (h : start.WellFormed) (hseparate : config.Separate) :
    Achieves (openAt config) start (fun _ => True)
      (fun state disk => Opens config start state.1 state.2 disk)
      (fun fault _ => config.AffordsOpening start → fault ≠ .arithmetic) := by
  refine Achieves.bind (((Index.achieves_openAt h (hseparate.besideIndex .index)
    fun _ _ _ => trivial).and_ends (ends_openIndex _)).imp_failed fun _ _ _ hfault _ => hfault.2) ?_
  rintro index disk - ⟨⟨-, -, hchanges, hpath, hstaged, happlied, hleaf⟩, -⟩
  have hbytes : ∀ file, file ≠ .index →
      config.fileBytes disk file = config.fileBytes start file := fun file hfile =>
    Config.fileBytes_of_changes hchanges (not_mem_indexPlaces hseparate hfile)
  have hindexed : config.indexed disk = config.indexed start := by
    rw [Config.indexed, IndexLog.replayed_of_leaf hleaf, IndexLog.replay_compact, happlied,
      Config.indexed]
  refine (openWith_tallied hchanges.wellFormed hseparate hpath hstaged hleaf).imp ?_ ?_
  · intro state last _ hopens
    refine hopens.of_bytes hindexed (fun file hfile _ => hbytes file hfile) fun hsaid => ?_
    rw [Config.capacity?, hbytes .capacity (by simp)]
    exact hsaid
  · exact fun fault last _ hfault haffords => hfault (affordsOpening_congr hchanges.reaches_iff.mpr
      hindexed (fun file hfile _ => hbytes file hfile) haffords)

end ValueLog

end BarrierStore
