import BarrierStore.Proofs.Disk.Outcome
import BarrierStore.Proofs.ValueLog.Relocation

/-!
# Where records come to lie

A log takes records one after the other. Which segment a record goes to, and at which offset, depends on
where the log stands and on the lengths of the records, not on the disk. So a log that starts with a fresh
segment lays out the same records in the same way, whatever the id of that segment is.

Relocation therefore leaves no choice: from the records that were selected it can be told where each of
them is copied to, and how many segments that takes.

The module introduces:

* `Spot` — a segment and an offset, and `Spot.room`, the spot of a record of some length;
* `Spot.laid`, `Spot.after` — records laid out one after the other, and the spot behind them;
* `ValueLog.Placed` — what relocation has done, with the places of the copies and what was counted.

Main statements: `Spot.laid_shift`, and `ValueLog.achieves_relocate_placed`.
-/

namespace BarrierStore

open Drive

/-- A segment, and an offset in it. -/
structure Spot where
  segment : Nat
  offset : Nat
  deriving DecidableEq

namespace Spot

/-- The address of a record there. -/
def address (capacity : Nat) (spot : Spot) : Nat :=
  spot.segment * capacity + spot.offset

/-- Where a record of that length goes: to the next segment, if it does not fit and is not the first. -/
def room (capacity : Nat) (spot : Spot) (length : Nat) : Spot :=
  if 0 < spot.offset ∧ capacity < spot.offset + length then ⟨spot.segment + 1, 0⟩ else spot

/-- The spot behind that many bytes. -/
def skip (spot : Spot) (length : Nat) : Spot :=
  { spot with offset := spot.offset + length }

/-- The spot behind these records. -/
def after (capacity : Nat) : (spot : Spot) → (records : List Record) → Spot
  | spot, [] => spot
  | spot, record :: rest => after capacity ((spot.room capacity record.length).skip record.length) rest

/-- These records with their addresses, laid out from a spot on. -/
def laid (capacity : Nat) : (spot : Spot) → (records : List Record) → Found
  | _, [] => []
  | spot, record :: rest =>
    ((spot.room capacity record.length).address capacity, record) ::
      laid capacity ((spot.room capacity record.length).skip record.length) rest

/-- The start of a segment. -/
def start (id : UInt64) : Spot :=
  ⟨id.toNat, 0⟩

/-- The same spot that many segments later. -/
def shift (count : Nat) (spot : Spot) : Spot :=
  { spot with segment := spot.segment + count }

variable {capacity : Nat} {spot : Spot}

/-- Records are placed one behind the other. -/
theorem after_append (records more : List Record) :
    spot.after capacity (records ++ more) = (spot.after capacity records).after capacity more := by
  induction records generalizing spot with
  | nil => rfl
  | cons record rest ih => exact ih

theorem laid_append (records more : List Record) :
    spot.laid capacity (records ++ more) =
      spot.laid capacity records ++ (spot.after capacity records).laid capacity more := by
  induction records generalizing spot with
  | nil => rfl
  | cons record rest ih => exact congrArg (List.cons _) ih

/-- Laid out are the records themselves, in their order. -/
@[simp]
theorem laid_records (capacity : Nat) (spot : Spot) (records : List Record) :
    (spot.laid capacity records).map Prod.snd = records := by
  induction records generalizing spot with
  | nil => rfl
  | cons record rest ih => rw [laid, List.map_cons, ih]

theorem room_shift (count length : Nat) :
    (spot.shift count).room capacity length = (spot.room capacity length).shift count := by
  unfold room shift
  dsimp only
  split
  · rw [Nat.add_right_comm]
  · rfl

theorem skip_shift (count length : Nat) :
    (spot.shift count).skip length = (spot.skip length).shift count := rfl

/-- A spot some segments further on has an address as many capacities further on. -/
theorem address_shift (count : Nat) :
    (spot.shift count).address capacity = spot.address capacity + count * capacity := by
  rw [address, address, shift, Nat.add_mul, Nat.add_right_comm]

/-- Some segments later, the records are laid out in the same way. -/
theorem laid_shift (count : Nat) (records : List Record) :
    (spot.shift count).laid capacity records =
      (spot.laid capacity records).map fun entry => (entry.1 + count * capacity, entry.2) := by
  induction records generalizing spot with
  | nil => rfl
  | cons record rest ih =>
    rw [laid, laid, List.map_cons, room_shift, skip_shift, address_shift, ih]

/-- And so they take as many segments. -/
theorem after_shift (count : Nat) (records : List Record) :
    (spot.shift count).after capacity records = (spot.after capacity records).shift count := by
  induction records generalizing spot with
  | nil => rfl
  | cons record rest ih =>
    rw [after, after, room_shift, skip_shift, ih]

end Spot

/-- The lines of copies say where each of them is. -/
theorem Copies.eq_map {map : AddressMap} {found copies : Found} (h : Copies map found copies)
    (hfits : ∀ entry ∈ copies, entry.1 < UInt64.size) :
    copies = (copies.map Prod.snd).map fun record =>
      (((AddressMap.ofEntries copies.lines)[record.key]?.getD 0).toNat, record) := by
  rw [List.map_map]
  refine (List.map_id copies).symm.trans (List.map_congr_left fun entry hentry => ?_)
  have hline : (AddressMap.ofEntries copies.lines)[entry.2.key]? = some (UInt64.ofNat entry.1) := by
    rw [getElem?_ofEntries, Found.latest_lines, h.last?_eq hentry]
    rfl
  rw [Function.comp_apply, hline, Option.getD_some, UInt64.toNat_ofNat_of_lt' (hfits entry hentry)]
  rfl

/-- How many of these segments end on bytes that are no whole record. -/
def Config.tornCount (config : Config) (disk : Disk) (ids : List UInt64) : Nat :=
  ids.countP fun id => (config.scan disk id).torn

namespace ValueLog

/-- Where a log stands. -/
def spot (log : ValueLog) : Spot :=
  ⟨log.active.id.toNat, log.active.length⟩

variable {log : ValueLog}

/-! ## Storing a record -/

/-- The index stays as it is while room is made, and the log comes to stand where there is room. -/
theorem ends_makeRoom_spot (hnext : log.range.next.toNat = log.active.id.toNat + 1) (length : Nat) :
    Ends (log.makeRoom length)
      (fun log' => log'.capacity = log.capacity ∧ log'.index = log.index ∧
        log'.spot = log.spot.room log.capacity.toNat length) (fun _ => True) := by
  unfold makeRoom
  split
  · rename_i hfull
    simp only [isFull, decide_eq_true_eq] at hfull
    refine (ends_lift _).bind fun _ _ => ?_
    split
    · refine (ends_replaceFile (fun _ => trivial) _ _ _).bind fun _ _ =>
        (ends_create (fun _ => trivial) _).bind fun _ _ => ends_pure ⟨rfl, rfl, ?_⟩
      rw [spot, spot, Spot.room, if_pos hfull, hnext]
    · exact ends_throw trivial
  · rename_i hroom
    simp only [isFull, decide_eq_true_eq] at hroom
    exact ends_pure ⟨rfl, rfl, by rw [spot, Spot.room, if_neg hroom]⟩

/-- A record goes where the log stands, and its address is staged. -/
theorem ends_append_spot (log : ValueLog) (record : Record) :
    Ends (log.append record)
      (fun log' => log'.spot = log.spot.skip record.length ∧ log'.index.staged =
          log.index.staged.insert record.key (UInt64.ofNat (log.spot.address log.capacity.toNat)) ∧
        log.spot.address log.capacity.toNat < UInt64.size)
      (fun _ => True) := by
  unfold append
  dsimp only
  split
  · rename_i address haddress
    rw [Position.address?_eq_some_iff] at haddress
    have hput : Ends (liftM (log.index.put record.key address) : DiskM Index)
        (fun index => index.staged = log.index.staged.insert record.key address) (fun _ => True) :=
      ends_lift_of fun _ => rfl
    refine (ends_lift _).bind fun _ _ => hput.bind fun index hstaged => ends_pure ?_
    have hspot : log.spot.address log.capacity.toNat = address.toNat := haddress
    rw [hspot, UInt64.ofNat_toNat]
    exact ⟨rfl, hstaged, address.toNat_lt⟩
  · exact ends_throw trivial

/-- A record goes where there is room for it, and its address is staged. -/
theorem ends_store_spot (hnext : log.range.next.toNat = log.active.id.toNat + 1) (record : Record) :
    let home := log.spot.room log.capacity.toNat record.length
    Ends (log.store record)
      (fun log' => log'.spot = home.skip record.length ∧ log'.index.staged =
          log.index.staged.insert record.key (UInt64.ofNat (home.address log.capacity.toNat)) ∧
        home.address log.capacity.toNat < UInt64.size)
      (fun _ => True) := by
  refine (ends_makeRoom_spot hnext record.length).bind fun sealed hsealed => ?_
  obtain ⟨hcapacity, hindex, hspot⟩ := hsealed
  have happended := ends_append_spot sealed record
  rw [hcapacity, hindex, hspot] at happended
  exact happended

/-! ## Relocation -/

/-- A record that is kept goes where there is room for it and counts as relocated, and any other one
counts as dropped. -/
theorem ends_relocateRecord_spot (hnext : log.range.next.toNat = log.active.id.toNat + 1)
    {id address : UInt64} {entry : Nat × Record} (haddress : log.addressOf id entry.1 = .ok address)
    (best : AddressMap) (report : Recovery) :
    let home := log.spot.room log.capacity.toNat entry.2.length
    Ends (relocateRecord best id (log, report) entry)
      (fun state =>
        if best[entry.2.key]? = some address then
          state.1.spot = home.skip entry.2.length ∧ state.1.index.staged = log.index.staged.insert
            entry.2.key (UInt64.ofNat (home.address log.capacity.toNat)) ∧
          home.address log.capacity.toNat < UInt64.size ∧
          state.2 = { report with relocated := report.relocated + 1 }
        else state = (log, { report with dropped := report.dropped + 1 }))
      (fun _ => True) := by
  intro home
  unfold relocateRecord
  dsimp only
  rw [haddress]
  refine (ends_outcome (fun _ hfound => Except.ok.inj hfound) fun _ _ => trivial).bind ?_
  rintro _ rfl
  split
  · exact (ends_store_spot hnext entry.2).bind fun _ hstored =>
      ends_pure ⟨hstored.1, hstored.2.1, hstored.2.2, rfl⟩
  · exact ends_pure rfl

/-- What relocation has done once it has gone through `front`: the records that it has kept lie one behind
the other from the start of the first fresh segment on, and it has counted them and the others. -/
structure Placed (config : Config) (start : Disk) (origin : UInt64) (base : List (Bytes × UInt64))
    (map : AddressMap) (found : Found) (range : SegmentRange) (scanned torn : Nat) (front : Found)
    (state : ValueLog × Recovery) (disk : Disk) : Prop where
  exists_copies : ∃ copies,
    Relocated config start origin base map found range front copies state.1 disk
  spot_eq : state.1.spot =
    (Spot.start origin).after config.capacity.toNat ((chosen map found front).map Prod.snd)
  staged_eq : state.1.index.staged = AddressMap.ofEntries (Found.lines
    ((Spot.start origin).laid config.capacity.toNat ((chosen map found front).map Prod.snd)))
  fits : ∀ entry ∈ (Spot.start origin).laid config.capacity.toNat
    ((chosen map found front).map Prod.snd), entry.1 < UInt64.size
  relocated_eq : state.2.relocated = (chosen map found front).length
  total_eq : state.2.relocated + state.2.dropped = front.length
  scanned_eq : state.2.scanned = scanned
  torn_eq : state.2.torn = torn

section Relocate

variable {config : Config} {start disk : Disk} {origin : UInt64} {base : List (Bytes × UInt64)}
  {map best : AddressMap} {found front copies : Found} {old range : SegmentRange} {scanned torn : Nat}
  {state : ValueLog × Recovery}

section Steps

variable (hseparate : config.Separate) (hcapacity : config.capacity ≠ 0)
  (hascending : found.Ascending) (hfits : ∀ entry ∈ found, entry.1 < UInt64.size)
  (hbest : Selects map found best)

include hseparate hcapacity hascending hfits hbest

/-- One record more is gone through. -/
theorem Placed.step {rest : Found}
    (h : Placed config start origin base map found range scanned torn front state disk) {id : UInt64}
    {next : Nat × Record} (hsmall : next.2.Small)
    (hfound : found = front ++ addressed config id next :: rest) :
    Achieves (relocateRecord best id state next) disk (fun _ => True)
      (Placed config start origin base map found range scanned torn
        (front ++ [addressed config id next])) (fun _ _ => True) := by
  obtain ⟨log, report⟩ := state
  obtain ⟨copies, hcopies⟩ := h.exists_copies
  have hmem : addressed config id next ∈ found := by simp [hfound]
  have hsame : log.capacity = config.capacity := hcopies.tracks.capacity_eq
  obtain ⟨address, hentry, haddress⟩ := hcopies.exists_address hfits hmem
  have hends := ends_relocateRecord_spot hcopies.tracks.next_eq haddress best report
  rw [hsame] at hends
  refine ((hcopies.step hseparate hcapacity hascending hfits hbest (fun _ _ _ _ _ _ => trivial) hsmall
    hfound).and_ends hends).imp ?_ fun _ _ _ _ => trivial
  rintro ⟨log', report'⟩ last - ⟨hcopied, hstate⟩
  rw [hentry] at hmem hcopied ⊢
  have hchosen := chosen_concat map found front (address.toNat, next.2)
  simp only [← hbest.eq_some_iff hascending hfits hmem] at hchosen
  have hlength : (front ++ [(address.toNat, next.2)]).length = front.length + 1 := by simp
  have htotal := h.total_eq
  have hrelocated := h.relocated_eq
  dsimp only at htotal hrelocated
  split at hstate
  · -- the copy goes behind the others
    rename_i hkept
    obtain ⟨hspot, hstaged, hfit, rfl⟩ := hstate
    rw [if_pos hkept] at hchosen
    refine ⟨hcopied, ?_, ?_, ?_, ?_, ?_, h.scanned_eq, h.torn_eq⟩
    · rw [hchosen, List.map_append, Spot.after_append, ← h.spot_eq]
      exact hspot
    · rw [hchosen, List.map_append, Spot.laid_append, Found.lines_append, ← h.spot_eq]
      refine hstaged.trans ?_
      rw [h.staged_eq, ← Index.ofEntries_concat]
      rfl
    · rw [hchosen, List.map_append, Spot.laid_append, ← h.spot_eq]
      exact List.forall_mem_append.mpr ⟨h.fits, List.forall_mem_singleton.mpr hfit⟩
    · rw [hchosen, List.length_append, ← hrelocated]
      rfl
    · rw [hlength]
      dsimp only
      omega
  · rename_i hpassed
    obtain ⟨rfl, rfl⟩ := Prod.mk.inj hstate
    rw [if_neg hpassed, List.append_nil] at hchosen
    refine ⟨hcopied, ?_, ?_, ?_, ?_, ?_, h.scanned_eq, h.torn_eq⟩
    · rw [hchosen, h.spot_eq]
    · rw [hchosen, h.staged_eq]
    · rw [hchosen]
      exact h.fits
    · rw [hchosen, ← hrelocated]
    · rw [hlength]
      dsimp only
      omega

/-- The records of one old segment are gone through, and it is counted. -/
theorem Placed.segment {rest : Found}
    (h : Placed config start origin base map found range scanned torn front state disk) {id : UInt64}
    (hold : id < origin) (hfound : found = front ++ config.scannedSegment start id ++ rest) :
    Achieves (relocateSegment best state id) disk (fun _ => True)
      (Placed config start origin base map found range (scanned + 1)
        (torn + if (config.scan start id).torn then 1 else 0)
        (front ++ config.scannedSegment start id)) (fun _ _ => True) := by
  obtain ⟨copies, hcopies⟩ := h.exists_copies
  -- an old segment is not written to, so it scans as it did at the start
  have hbytes := hcopies.fileBytes_eq hseparate hold
  have hsame := Config.scannedSegment_congr hbytes
  have htorn : config.scan disk id = config.scan start id := by
    rw [Config.scan, hbytes, Config.scan]
  rw [← hsame] at hfound ⊢
  refine (achieves_relocateSegment_counted (fun seen => Placed config start origin base map found range
    scanned torn (front ++ seen)) hcopies.tracks.stem_eq hcopies.tracks.capacity_eq
    (hcopies.tracks.reaches_of_lt hold) trivial (fun _ _ => trivial) (by simpa using h) ?_).imp_done ?_
  · intro seen next tail hseen hsmall state last _ hlast
    have hfound' : found = front ++ seen ++ addressed config id next :: (tail ++ rest) := by
      rw [hfound, hseen]
      simp
    rw [← List.append_assoc]
    exact hlast.step hseparate hcapacity hascending hfits hbest hsmall hfound'
  · rintro ⟨log', _⟩ last - ⟨report, hdone, rfl⟩
    exact { hdone with
      scanned_eq := congrArg (· + 1) hdone.scanned_eq
      torn_eq := by rw [← htorn, ← hdone.torn_eq] }

end Steps

/-- The copies lie where relocation has placed them. -/
theorem Placed.copies_eq {rest : Found} (hascending : found.Ascending)
    (h : Placed config start origin base map found range scanned torn front state disk)
    (hfound : found = front ++ rest)
    (hcopies : Relocated config start origin base map found range front copies state.1 disk) :
    copies =
      (Spot.start origin).laid config.capacity.toNat ((chosen map found front).map Prod.snd) := by
  have hrecords := Spot.laid_records config.capacity.toNat (Spot.start origin)
    ((chosen map found front).map Prod.snd)
  have hlines := hcopies.staged_eq.symm.trans h.staged_eq
  rw [(copies_of_chosen hascending hfound hcopies.records_eq).eq_map hcopies.tracks.fits,
    (copies_of_chosen hascending hfound hrecords).eq_map h.fits, hlines, hcopies.records_eq, hrecords]

/-- All old segments are gone through, and each is counted. -/
theorem achieves_relocate_placed
    (h : Relocated config start old.next base map (config.scanned start old) range [] [] log start)
    (hseparate : config.Separate) (hcapacity : config.capacity ≠ 0)
    (hspot : log.spot = Spot.start old.next)
    (hfits : ∀ entry ∈ config.scanned start old, entry.1 < UInt64.size)
    (hbest : Selects map (config.scanned start old) best) :
    Achieves (log.relocate best old.ids) start (fun _ => True)
      (Placed config start old.next base map (config.scanned start old) range old.ids.length
        (config.tornCount start old.ids) (config.scanned start old)) (fun _ _ => True) := by
  have hascending := Config.ascending_scanned config start old
  refine achieves_foldlM (fun ids => Placed config start old.next base map (config.scanned start old)
    range ids.length (config.tornCount start ids) (ids.flatMap (config.scannedSegment start))) trivial
      ⟨⟨[], h⟩, hspot, h.staged_eq, by simp [chosen, Spot.laid], rfl, rfl, rfl, rfl⟩ ?_
  intro front id rest hids state disk _ hplaced
  have hfound : config.scanned start old = front.flatMap (config.scannedSegment start) ++
      config.scannedSegment start id ++ rest.flatMap (config.scannedSegment start) := by
    rw [Config.scanned, hids]
    simp
  have hold : id < old.next := (SegmentRange.mem_ids_iff.mp (show id ∈ old.ids by simp [hids])).2
  refine (hplaced.segment hseparate hcapacity hascending hfits hbest hold hfound).imp_done ?_
  intro state' last _ hdone
  simpa [Config.tornCount, List.countP_cons] using hdone

end Relocate

end ValueLog

end BarrierStore
