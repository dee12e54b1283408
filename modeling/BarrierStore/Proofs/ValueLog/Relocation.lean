import BarrierStore.Proofs.ValueLog.Session
import BarrierStore.ValueLog.Recovery

/-!
# What relocation copies

Recovery goes through the old segments twice. The first time it finds the address of the record that
the index selects for each key; the second time it copies the records at these addresses. The old
segments do not change meanwhile, since copies go to later ones.

Main statements: `achieves_survivors`, and `achieves_relocate`, which says what was copied and what a
crash leaves.
-/

namespace BarrierStore

open Drive

namespace ValueLog

variable {config : Config} {start : Disk} {during : Disk → Prop}

/-! ## Scanning -/

/-- What a scan finds has its address in front. -/
def addressed (config : Config) (id : UInt64) (found : Nat × Record) : Nat × Record :=
  (id.toNat * config.capacity.toNat + found.1, found.2)

theorem scannedSegment_eq (config : Config) (disk : Disk) (id : UInt64) :
    config.scannedSegment disk id = (config.scan disk id).records.map (addressed config id) := rfl

/-- To scan a segment changes nothing. -/
theorem achieves_scanSegment {log : ValueLog} (hstem : log.segmentStem = config.segmentStem)
    (hcapacity : log.capacity = config.capacity) {id : UInt64}
    (hreaches : start.Reaches (config.segmentFile id)) (hbefore : during start) :
    Achieves (log.scanSegment id) start during
      (fun scan disk => start = disk ∧ start.Admits (config.segmentFile id) ∧
        config.scan start id = scan)
      (fun fault disk => start = disk ∧ ¬ start.Admits (config.segmentFile id) ∧
        ∃ cause, fault = .io cause) := by
  unfold scanSegment
  rw [segmentFile_eq hstem]
  refine Achieves.bind (achieves_contentsOf? _ hbefore) ?_
  rintro contents _ - ⟨rfl, hfound⟩
  obtain ⟨hadmits, hbytes⟩ := hfound fun _ => hreaches
  refine achieves_pure hbefore ⟨rfl, hadmits, ?_⟩
  have hbytes : contents.map Contents.toBytes = config.fileBytes start (.segment id) := hbytes
  rw [Config.scan, ← hbytes, hcapacity, Scan.ofContents, Scan.ofContents, Scan.fromOffset_ofBytes _
    (contents.getD .empty)]
  cases contents <;> rfl

/-- A record has an address if there is a word for it. -/
theorem addressOf_eq_ok_iff {log : ValueLog} (hcapacity : log.capacity = config.capacity)
    {id address : UInt64} (found : Nat × Record) :
    log.addressOf id found.1 = .ok address ↔ (addressed config id found).1 = address.toNat := by
  unfold addressOf addressed
  rw [hcapacity, ← @Position.address?_eq_some_iff ⟨id, found.1⟩]
  split
  · rename_i other hother
    rw [hother]
    simp
  · rename_i hnone
    rw [hnone]
    simp

theorem addressOf_eq_error {log : ValueLog} {id : UInt64} {offset : Nat} {fault : Fault}
    (h : log.addressOf id offset = .error fault) : fault = .arithmetic := by
  unfold addressOf at h
  split at h <;> cases h
  rfl

/-- A record that was found has its address, unless that does not fit its 64 bits. -/
theorem achieves_addressOf {log : ValueLog} (hcapacity : log.capacity = config.capacity)
    (id : UInt64) (found : Nat × Record) (hbefore : during start) :
    Achieves (log.addressOf id found.1) start during
      (fun address disk => start = disk ∧ addressed config id found = (address.toNat, found.2))
      (fun fault _ => fault = .arithmetic) := by
  refine achieves_outcome hbefore (fun address haddress => ⟨rfl, ?_⟩)
    fun fault hfault => addressOf_eq_error hfault
  rw [← (addressOf_eq_ok_iff hcapacity found).mp haddress]
  rfl

/-! ## The survivors -/

/-- The addresses of the records that an index selects. -/
def Selects (map : AddressMap) (found : Found) (best : AddressMap) : Prop :=
  ∀ key, best[key]? = (selected map found key).map fun entry => UInt64.ofNat entry.1

/-- One more record is selected if it is not behind the indexed address. -/
theorem selected_concat (map : AddressMap) (found : Found) (entry : Nat × Record) (key : Bytes) :
    selected map (found ++ [entry]) key =
      if entry.2.key = key ∧ (map[key]?).any (entry.1 ≤ ·.toNat) then some entry
      else selected map found key := by
  unfold selected
  rcases map[key]? with _ | address
  · simp
  rw [Option.bind_some, Option.bind_some, newest_append]
  have hsingle : newest [entry] key address.toNat =
      if entry.1 ≤ address.toNat ∧ entry.2.key = key then some entry else none := by
    unfold newest Found.last?
    by_cases hle : entry.1 ≤ address.toNat <;> by_cases hkey : entry.2.key = key <;>
      simp [hle, hkey]
  rw [hsingle]
  by_cases hle : entry.1 ≤ address.toNat <;> by_cases hkey : entry.2.key = key <;> simp [hle, hkey]

/-- One more record is selected if the index admits it. -/
theorem Selects.consider {index : Index} {found : Found} {best : AddressMap}
    (h : Selects index.applied found best) {address : UInt64} {record : Record}
    (hbelow : ∀ entry ∈ found, entry.1 < address.toNat) :
    Selects index.applied (found ++ [(address.toNat, record)])
      (consider index best record.key address) := by
  intro key
  rw [selected_concat]
  unfold ValueLog.consider Index.find?
  by_cases hkey : record.key = key
  · subst hkey
    rcases hindexed : index.applied[record.key]? with _ | indexed
    · simp [h record.key]
    dsimp only
    -- the index admits records up to the address that it has
    by_cases hbeyond : indexed < address
    · have hnot : ¬ address.toNat ≤ indexed.toNat := by
        rw [UInt64.lt_iff_toNat_lt] at hbeyond
        omega
      simp [hbeyond, hnot, h record.key]
    · have hwithin : address.toNat ≤ indexed.toNat := by
        rw [UInt64.lt_iff_toNat_lt] at hbeyond
        omega
      -- the best address so far is that of an earlier record
      have hbetter : (best[record.key]?).any (address ≤ ·) = false := by
        rw [h record.key]
        rcases hselected : selected index.applied found record.key with _ | entry
        · rfl
        · have hlt := hbelow entry (mem_of_selected hselected).1
          simp only [Option.map_some, Option.any_some, decide_eq_false_iff_not,
            UInt64.le_iff_toNat_le]
          rw [UInt64.toNat_ofNat_of_lt' (Nat.lt_trans hlt address.toNat_lt)]
          omega
      simp [hbeyond, hbetter, hwithin]
  · -- the record is of another key, and changes nothing for this one
    have hsame : ∀ indexed, (if indexed < address then best
        else if (best[record.key]?).any (address ≤ ·) then best
        else best.insert record.key address)[key]? = best[key]? := by
      intro indexed
      split
      · rfl
      · split
        · rfl
        · rw [Std.ExtTreeMap.getElem?_insert, if_neg (by simpa using hkey)]
    have hrefused : ¬ (record.key = key ∧
        (index.applied[key]?).any (address.toNat ≤ ·.toNat)) := fun both => hkey both.1
    rw [if_neg hrefused, ← h key]
    split
    · rfl
    · exact hsame _

/-- The records of one more segment are considered, one after the other. -/
theorem achieves_considerSegment {log : ValueLog} (hstem : log.segmentStem = config.segmentStem)
    (hcapacity : log.capacity = config.capacity) {id : UInt64} {front : Found} {best : AddressMap}
    (hascending : (front ++ config.scannedSegment start id).Ascending)
    (hbest : Selects log.index.applied front best)
    (hreaches : start.Reaches (config.segmentFile id)) (hbefore : during start) :
    Achieves (log.considerSegment best id) start during
      (fun best disk => start = disk ∧ start.Admits (config.segmentFile id) ∧
        Selects log.index.applied (front ++ config.scannedSegment start id) best ∧
        ∀ entry ∈ config.scannedSegment start id, entry.1 < UInt64.size)
      (fun fault _ => start.Admits (config.segmentFile id) → fault = .arithmetic) := by
  refine Achieves.bind
    ((achieves_scanSegment hstem hcapacity hreaches hbefore).imp_failed ?_) ?_
  · exact fun fault _ _ hrefused hadmits => absurd hadmits hrefused.2.1
  rintro _ _ - ⟨rfl, hadmits, rfl⟩
  rw [scannedSegment_eq] at hascending ⊢
  refine (achieves_foldlM (fun seen best disk => start = disk ∧
      Selects log.index.applied (front ++ seen.map (addressed config id)) best ∧
      ∀ entry ∈ seen.map (addressed config id), entry.1 < UInt64.size)
    hbefore ⟨rfl, by simpa using hbest, by simp⟩ ?_).imp_done ?_
  · rintro seen ⟨offset, record⟩ tail hseen best _ - ⟨rfl, hbest, hfits⟩
    refine Achieves.bind
      ((achieves_addressOf hcapacity id (offset, record) hbefore).imp_failed ?_) ?_
    · exact fun _ _ _ hfault _ => hfault
    rintro address _ - ⟨rfl, hentry⟩
    have hseen' : (seen ++ [(offset, record)]).map (addressed config id) =
        seen.map (addressed config id) ++ [(address.toNat, record)] := by
      rw [List.map_append, List.map_cons, List.map_nil, hentry]
    rw [hseen']
    refine achieves_pure hbefore ⟨rfl, ?_, List.forall_mem_append.mpr
      ⟨hfits, List.forall_mem_singleton.mpr address.toNat_lt⟩⟩
    rw [← List.append_assoc]
    refine hbest.consider fun entry hmem => ?_
    -- all records in front of this one have smaller addresses
    rw [hseen, List.map_append, List.map_cons, hentry, ← List.append_assoc] at hascending
    exact (List.pairwise_append.mp hascending).2.2 entry hmem _ List.mem_cons_self
  · rintro best' disk - ⟨rfl, hbest', hfits'⟩
    exact ⟨rfl, hadmits, hbest', hfits'⟩

/-- The survivors of some segments are the records in them that the index selects. -/
theorem achieves_survivors {log : ValueLog} (hstem : log.segmentStem = config.segmentStem)
    (hcapacity : log.capacity = config.capacity) {old : SegmentRange}
    (hreaches : ∀ id ∈ old.ids, start.Reaches (config.segmentFile id)) (hbefore : during start) :
    Achieves (log.survivors old.ids) start during
      (fun best disk => start = disk ∧ (∀ id ∈ old.ids, start.Admits (config.segmentFile id)) ∧
        Selects log.index.applied (config.scanned start old) best ∧
        ∀ entry ∈ config.scanned start old, entry.1 < UInt64.size)
      (fun fault _ => (∀ id ∈ old.ids, start.Admits (config.segmentFile id)) →
        fault = .arithmetic) := by
  have hascending := Config.ascending_scanned config start old
  -- on the segments: the best records are those that the index selects of the segments in front
  refine achieves_foldlM (fun front best disk => start = disk ∧
      (∀ id ∈ front, start.Admits (config.segmentFile id)) ∧
      Selects log.index.applied (front.flatMap (config.scannedSegment start)) best ∧
      ∀ entry ∈ front.flatMap (config.scannedSegment start), entry.1 < UInt64.size)
    hbefore ⟨rfl, by simp, fun key => ?_, by simp⟩ ?_
  · cases hindexed : log.index.applied[key]? <;>
      simp [selected, hindexed, newest, Found.last?]
  rintro front id rest hids best _ - ⟨rfl, hadmits, hbest, hfits⟩
  have hid : id ∈ old.ids := by simp [hids]
  have hall : config.scanned start old = front.flatMap (config.scannedSegment start) ++
      config.scannedSegment start id ++ rest.flatMap (config.scannedSegment start) := by
    rw [Config.scanned, hids, List.flatMap_append, List.flatMap_cons, List.append_assoc]
  rw [hall] at hascending
  refine (achieves_considerSegment hstem hcapacity (List.pairwise_append.mp hascending).1 hbest
    (hreaches id hid) hbefore).imp ?_ fun _ _ _ hfault hstart => hfault (hstart id hid)
  rintro best' disk - ⟨rfl, hadmits', hbest', hfits'⟩
  have hsegments : (front ++ [id]).flatMap (config.scannedSegment start) =
      front.flatMap (config.scannedSegment start) ++ config.scannedSegment start id := by
    rw [List.flatMap_append, List.flatMap_cons, List.flatMap_nil, List.append_nil]
  rw [hsegments]
  exact ⟨rfl, List.forall_mem_append.mpr ⟨hadmits, List.forall_mem_singleton.mpr hadmits'⟩, hbest',
    List.forall_mem_append.mpr ⟨hfits, hfits'⟩⟩

/-! ## The copies -/

/-- What relocation has done once it has gone through `front`, the first records of those found in the
old segments. -/
structure Relocated (config : Config) (start : Disk) (origin : UInt64)
    (base : List (Bytes × UInt64)) (map : AddressMap) (found : Found) (range : SegmentRange)
    (front copies : Found) (log : ValueLog) (disk : Disk) : Prop where
  tracks : log.Tracks config disk origin base copies
  changes : start.Changes (config.sessionPlaces origin) disk
  records_eq : copies.map Prod.snd = (chosen map found front).map Prod.snd
  applied_eq : log.index.applied = map
  staged_eq : log.index.staged = AddressMap.ofEntries copies.lines
  first_eq : log.range.first = range.first
  next_le : range.next ≤ log.range.next
  vacant : config.Vacant start range.next → config.Vacant disk log.range.next

section Relocated

variable {origin id : UInt64} {base : List (Bytes × UInt64)} {map : AddressMap}
  {found front copies : Found} {range : SegmentRange} {log : ValueLog} {disk : Disk}

/-- Before the first record nothing is relocated. -/
theorem Tracks.relocated (h : log.Tracks config start origin base [])
    (hstaged : log.index.staged = ∅) :
    Relocated config start origin base log.index.applied found log.range [] [] log start where
  tracks := h
  changes := .refl h.wellFormed
  records_eq := rfl
  applied_eq := rfl
  staged_eq := hstaged
  first_eq := rfl
  next_le := UInt64.le_refl _
  vacant := fun hvacant => hvacant

variable (h : Relocated config start origin base map found range front copies log disk)

include h

/-- The old segments have their bytes. -/
theorem Relocated.fileBytes_eq (hseparate : config.Separate) (hold : id < origin) :
    config.fileBytes disk (.segment id) = config.fileBytes start (.segment id) :=
  Config.fileBytes_of_changes h.changes (hseparate.segment_not_mem_sessionPlaces hold)

/-- Where a record was found is an address. -/
theorem Relocated.exists_address (hfits : ∀ entry ∈ found, entry.1 < UInt64.size)
    {next : Nat × Record} (hmem : addressed config id next ∈ found) : ∃ address : UInt64,
      addressed config id next = (address.toNat, next.2) ∧ log.addressOf id next.1 = .ok address := by
  have haddress := (UInt64.toNat_ofNat_of_lt' (hfits _ hmem)).symm
  exact ⟨_, Prod.ext haddress rfl, (addressOf_eq_ok_iff h.tracks.capacity_eq next).mpr haddress⟩

end Relocated

/-- An invariant of what was gone through of a segment is kept if each of its records keeps it; and then
the segment is counted. -/
theorem achieves_relocateSegment_counted {best : AddressMap} {state : ValueLog × Recovery} {id : UInt64}
    {failed : Fault → Disk → Prop} (inv : Found → ValueLog × Recovery → Disk → Prop)
    (hstem : state.1.segmentStem = config.segmentStem)
    (hcapacity : state.1.capacity = config.capacity)
    (hreaches : start.Reaches (config.segmentFile id)) (hbefore : during start)
    (hrefused : ¬ start.Admits (config.segmentFile id) → ∀ cause, failed (.io cause) start)
    (hinit : inv [] state start)
    (hstep : ∀ seen next tail,
      config.scannedSegment start id = seen ++ addressed config id next :: tail → next.2.Small →
      ∀ state disk, during disk → inv seen state disk →
        Achieves (relocateRecord best id state next) disk during
          (inv (seen ++ [addressed config id next])) failed) :
    Achieves (relocateSegment best state id) start during
      (fun state disk => ∃ report, inv (config.scannedSegment start id) (state.1, report) disk ∧
        state.2 = { report with
          scanned := report.scanned + 1
          torn := report.torn + if (config.scan start id).torn then 1 else 0 })
      failed := by
  refine Achieves.bind ((achieves_scanSegment hstem hcapacity hreaches hbefore).imp_failed ?_) ?_
  · rintro _ _ - ⟨rfl, hadmits, cause, rfl⟩
    exact hrefused hadmits cause
  rintro _ _ - ⟨rfl, -, rfl⟩
  rw [scannedSegment_eq] at hstep ⊢
  refine Achieves.bind (achieves_foldlM (fun seen =>
    inv (seen.map (addressed config id))) hbefore hinit ?_) ?_
  · intro seen next tail hseen state disk hdisk hinv
    -- a scan finds small records only
    have hsmall : next.2.Small := by
      have hmem : addressed config id next ∈ config.scannedSegment start id := by
        rw [scannedSegment_eq, hseen]
        simp
      obtain ⟨bytes, offset, -, -, -, hrecord⟩ := Config.mem_scannedSegment hmem
      exact Scan.small_of_recordAt? hrecord
    rw [List.map_append]
    exact hstep _ next (tail.map (addressed config id)) (by rw [hseen]; simp) hsmall state disk
      hdisk hinv
  · exact fun state disk hdisk hinv => achieves_pure hdisk ⟨state.2, hinv, rfl⟩

/-- The same where what was counted makes no difference. -/
theorem achieves_relocateSegment {best : AddressMap} {state : ValueLog × Recovery} {id : UInt64}
    {failed : Fault → Disk → Prop} (inv : Found → ValueLog → Disk → Prop)
    (hstem : state.1.segmentStem = config.segmentStem)
    (hcapacity : state.1.capacity = config.capacity)
    (hreaches : start.Reaches (config.segmentFile id)) (hbefore : during start)
    (hrefused : ¬ start.Admits (config.segmentFile id) → ∀ cause, failed (.io cause) start)
    (hinit : inv [] state.1 start)
    (hstep : ∀ seen next tail,
      config.scannedSegment start id = seen ++ addressed config id next :: tail → next.2.Small →
      ∀ log report disk, during disk → inv seen log disk →
        Achieves (relocateRecord best id (log, report) next) disk during
          (fun state => inv (seen ++ [addressed config id next]) state.1) failed) :
    Achieves (relocateSegment best state id) start during
      (fun state => inv (config.scannedSegment start id) state.1) failed :=
  (achieves_relocateSegment_counted (fun seen state => inv seen state.1) hstem hcapacity hreaches
    hbefore hrefused hinit fun seen next tail hseen hsmall state =>
      hstep seen next tail hseen hsmall state.1 state.2).imp_done fun _ _ _ ⟨_, hinv, _⟩ => hinv

section Relocate

variable {origin : UInt64} {base : List (Bytes × UInt64)} {map best : AddressMap} {found : Found}
  {range : SegmentRange}

/-- Of one record more, it is chosen if it is selected. -/
theorem chosen_concat (map : AddressMap) (found front : Found) (entry : Nat × Record) :
    chosen map found (front ++ [entry]) = chosen map found front ++
      if selected map found entry.2.key = some entry then [entry] else [] := by
  rw [chosen, chosen, List.filter_append]
  congr 1
  by_cases hselected : selected map found entry.2.key = some entry <;> simp [hselected]

/-- A record is selected exactly if its address is the best one of its key. -/
theorem Selects.eq_some_iff (h : Selects map found best) (hascending : found.Ascending)
    (hfits : ∀ entry ∈ found, entry.1 < UInt64.size) {address : UInt64} {record : Record}
    (hentry : (address.toNat, record) ∈ found) :
    best[record.key]? = some address ↔
      selected map found record.key = some (address.toNat, record) := by
  rw [h record.key]
  constructor
  · intro hbest
    obtain ⟨entry, hselected, rfl⟩ := Option.map_eq_some_iff.mp hbest
    have hmem := (mem_of_selected hselected).1
    have hsame := hascending.eq_of_address hmem hentry
      (UInt64.toNat_ofNat_of_lt' (hfits entry hmem)).symm
    rw [hselected]
    exact congrArg some hsame
  · intro hselected
    rw [hselected, Option.map_some, UInt64.ofNat_toNat]

section Steps

variable {front copies rest : Found} {log : ValueLog} {disk : Disk}
  (hseparate : config.Separate) (hcapacity : config.capacity ≠ 0) (hascending : found.Ascending)
  (hfits : ∀ entry ∈ found, entry.1 < UInt64.size) (hbest : Selects map found best)
  (hduring : ∀ lined rest disk, Copies map found (lined ++ rest) →
    (∀ entry ∈ lined, entry.1 < UInt64.size) →
    (config.Vacant start range.next →
      config.Remains start origin range.first base lined (lined ++ rest) disk) → during disk)

include hascending hduring

/-- A crash may come between two records. -/
theorem Relocated.during_self
    (h : Relocated config start origin base map found range front copies log disk)
    (hfound : found = front ++ rest) : during disk := by
  have hcopies := copies_of_chosen hascending hfound h.records_eq
  refine hduring copies [] disk (by rwa [List.append_nil]) h.tracks.fits fun hvacant => ?_
  rw [List.append_nil, ← h.first_eq]
  exact (h.tracks.remains (h.vacant hvacant)).trans h.changes

include hseparate hcapacity

/-- A selected record is copied, and what a crash leaves of the copy makes no difference. -/
theorem Relocated.copy
    (h : Relocated config start origin base map found range front copies log disk)
    {address : Nat} {record : Record} (hsmall : record.Small)
    (hselected : selected map found record.key = some (address, record))
    (hfound : found = front ++ (address, record) :: rest) :
    Achieves (log.store record) disk during
      (fun log' last => ∃ copies, Relocated config start origin base map found range
        (front ++ [(address, record)]) copies log' last)
      (fun fault _ => config.HasRoom start range.next → fault = .arithmetic) := by
  have hrecords : ∀ address' : Nat, (copies ++ [(address', record)]).map Prod.snd =
      (chosen map found (front ++ [(address, record)])).map Prod.snd := by
    intro address'
    rw [chosen_concat, if_pos hselected, List.map_append, List.map_append, h.records_eq]
    rfl
  have hfound' : found = (front ++ [(address, record)]) ++ rest := by simp [hfound]
  have hcopies : Copies map found copies := copies_of_chosen hascending hfound h.records_eq
  have hcopies' : ∀ address' : Nat, Copies map found (copies ++ [(address', record)]) :=
    fun address' => copies_of_chosen hascending hfound' (hrecords address')
  refine (h.tracks.store hseparate hcapacity hsmall ?_).imp ?_ ?_
  · intro address' lined records last hfits' happending hremains
    have hremains : config.Vacant start range.next →
        config.Remains start origin range.first base lined records last := by
      intro hvacant
      rw [← h.first_eq]
      exact (hremains (h.vacant hvacant)).trans h.changes
    -- a crash leaves nothing of the copy, its record without a line, or both
    cases happending with
    | before =>
      refine hduring copies [] last (by rwa [List.append_nil]) h.tracks.fits ?_
      rwa [List.append_nil]
    | unlined => exact hduring copies _ last (hcopies' address') h.tracks.fits hremains
    | lined =>
      refine hduring _ [] last (by rw [List.append_nil]; exact hcopies' address')
        (List.forall_mem_append.mpr ⟨h.tracks.fits, List.forall_mem_singleton.mpr hfits'⟩) ?_
      rwa [List.append_nil]
  · rintro log' last - ⟨address', hfirst, hnext, happlied, hstaged, hchanges, hvacant, htracks⟩
    refine ⟨copies ++ [(address', record)], htracks, h.changes.trans hchanges, hrecords address',
      happlied.trans h.applied_eq, ?_, hfirst.trans h.first_eq, UInt64.le_trans h.next_le hnext,
      fun hclear => hvacant (h.vacant hclear)⟩
    rw [hstaged, h.staged_eq, Found.lines_append, ← Index.ofEntries_concat]
    rfl
  · exact fun fault _ _ hfault hroom => hfault ((hroom.of_changes h.changes).mono h.next_le)

include hfits hbest

/-- One record is copied if it is selected. -/
theorem Relocated.step
    (h : Relocated config start origin base map found range front copies log disk)
    {report : Recovery} {id : UInt64} {next : Nat × Record} (hsmall : next.2.Small)
    (hfound : found = front ++ addressed config id next :: rest) :
    Achieves (relocateRecord best id (log, report) next) disk during
      (fun state last => ∃ copies, Relocated config start origin base map found range
        (front ++ [addressed config id next]) copies state.1 last)
      (fun fault _ => config.HasRoom start range.next → fault = .arithmetic) := by
  obtain ⟨offset, record⟩ := next
  have hnow : during disk := h.during_self hascending hduring hfound
  unfold relocateRecord
  dsimp only
  refine Achieves.bind
    ((achieves_addressOf h.tracks.capacity_eq id (offset, record) hnow).imp_failed ?_) ?_
  · exact fun _ _ _ hfault _ => hfault
  rintro address _ - ⟨rfl, hentry⟩
  rw [hentry] at hfound ⊢
  have hmem : (address.toNat, record) ∈ found := by simp [hfound]
  have hselected := hbest.eq_some_iff hascending hfits hmem
  split
  · rename_i hchosen
    refine Achieves.bind (h.copy hseparate hcapacity hascending hduring hsmall
      (hselected.mp hchosen) hfound) ?_
    exact fun log' last hlast hcopied => achieves_pure hlast hcopied
  · -- the record is outdated, so it is passed over
    rename_i hother
    have hrecords := chosen_concat map found front (address.toNat, record)
    rw [if_neg fun hchosen => hother (hselected.mpr hchosen), List.append_nil] at hrecords
    exact achieves_pure hnow ⟨copies, { h with records_eq := by rw [hrecords, h.records_eq] }⟩

/-- The records of one old segment are gone through. -/
theorem Relocated.segment {state : ValueLog × Recovery}
    (h : Relocated config start origin base map found range front copies state.1 disk)
    {id : UInt64} (hold : id < origin)
    (hfound : found = front ++ config.scannedSegment start id ++ rest) :
    Achieves (relocateSegment best state id) disk during
      (fun state last => ∃ copies, Relocated config start origin base map found range
        (front ++ config.scannedSegment start id) copies state.1 last)
      (fun fault _ => config.HasRoom start range.next → start.Admits (config.segmentFile id) →
        fault = .arithmetic) := by
  have hnow : during disk :=
    h.during_self hascending hduring (hfound.trans (List.append_assoc _ _ _))
  have hsame := Config.scannedSegment_congr (h.fileBytes_eq hseparate hold)
  rw [← hsame] at hfound ⊢
  refine achieves_relocateSegment (fun seen log last => ∃ copies, Relocated config start origin base map
    found range (front ++ seen) copies log last) h.tracks.stem_eq h.tracks.capacity_eq
    (h.tracks.reaches_of_lt hold) hnow ?_ ⟨copies, by simpa using h⟩ ?_
  · exact fun hrefused _ _ hadmits => absurd (h.changes.admits_iff.mpr hadmits) hrefused
  rintro seen next tail hseen hsmall log report last - ⟨copies, hlast⟩
  have hfound' : found = front ++ seen ++ addressed config id next :: (tail ++ rest) := by
    rw [hfound, hseen]
    simp
  refine (hlast.step hseparate hcapacity hascending hfits hbest hduring hsmall hfound').imp ?_
    fun _ _ _ hfault hroom _ => hfault hroom
  rintro state' last' - ⟨copies', hcopies'⟩
  exact ⟨copies', by simpa using hcopies'⟩

end Steps

/-- Relocation copies the records that the index selects. -/
theorem achieves_relocate {log : ValueLog} {old : SegmentRange}
    (h : Relocated config start old.next base map (config.scanned start old) range [] [] log start)
    (hseparate : config.Separate) (hcapacity : config.capacity ≠ 0)
    (hfits : ∀ entry ∈ config.scanned start old, entry.1 < UInt64.size)
    (hbest : Selects map (config.scanned start old) best)
    (hduring : ∀ lined rest disk, Copies map (config.scanned start old) (lined ++ rest) →
      (∀ entry ∈ lined, entry.1 < UInt64.size) →
      (config.Vacant start range.next →
        config.Remains start old.next range.first base lined (lined ++ rest) disk) → during disk) :
    Achieves (log.relocate best old.ids) start during
      (fun state disk => ∃ copies, Relocated config start old.next base map
        (config.scanned start old) range (config.scanned start old) copies state.1 disk)
      (fun fault _ => config.HasRoom start range.next →
        (∀ id ∈ old.ids, start.Admits (config.segmentFile id)) → fault = .arithmetic) := by
  have hascending := Config.ascending_scanned config start old
  have hnow : during start := h.during_self hascending hduring (List.nil_append _).symm
  refine achieves_foldlM (fun ids (state : ValueLog × Recovery) disk => ∃ copies,
    Relocated config start old.next base map (config.scanned start old) range
      (ids.flatMap (config.scannedSegment start)) copies state.1 disk) hnow ⟨[], h⟩ ?_
  rintro front id rest hids state disk hdisk ⟨copies, hcopies⟩
  have hid : id ∈ old.ids := by simp [hids]
  have hfound : config.scanned start old = front.flatMap (config.scannedSegment start) ++
      config.scannedSegment start id ++ rest.flatMap (config.scannedSegment start) := by
    rw [Config.scanned, hids]
    simp
  refine (hcopies.segment hseparate hcapacity hascending hfits hbest hduring
    (SegmentRange.mem_ids_iff.mp hid).2 hfound).imp ?_
    fun _ _ _ hfault hroom hadmits => hfault hroom (hadmits id hid)
  rintro state' last - ⟨copies', hcopies'⟩
  exact ⟨copies', by simpa using hcopies'⟩

end Relocate

end ValueLog

end BarrierStore
