import BarrierStore.Proofs.Engine.Refinement
import BarrierStore.Proofs.Engine.Tally

/-!
# When addresses run out

An address has 64 bits, and a store that is used for long enough runs out of them. Every opening takes a
segment, and with it as many addresses as a segment has bytes; it copies what is live, and what is written
takes addresses too. With segments that are large enough a few openings use them all, and then the store
cannot be opened any more. A configuration with such a capacity is valid nonetheless.

The module introduces:

* `Call.record?`, `Call.restarts` — what a call writes, and whether it opens the store again;
* `Call.extent` — how many addresses a store has taken at most;
* `Config.Spaced`, `Engine.Paced` — a closed store, or an open one, has taken no more than that.

Main statement: `Engine.run_eq_of_extent`, by which a run whose extent fits the addresses never runs out of
them; `Engine.exhausts_addresses` is a short one that does.
-/

namespace BarrierStore

open Drive

namespace Call

/-- The record that a call writes, if it writes one. -/
def record? : Call → Option Record
  | .put key value | .execute (.put key value) => some ⟨key, value⟩
  | _ => none

/-- How often the store is opened in a call. -/
def restarts : Call → Nat
  | .crash | .close => 1
  | _ => 0

/-- How many addresses a store has taken at most that was opened again `restarts` times: a segment each
time, and each time all records once more, with what they leave free at the ends of segments. -/
def extent (capacity restarts : Nat) (records : List Record) : Nat :=
  restarts * capacity + 2 * (restarts + 1) * shares capacity records

/-- Records that are written take their shares, and what is left free in front of them. -/
theorem extent_append (capacity restarts : Nat) (records more : List Record) :
    extent capacity restarts records + 2 * shares capacity more ≤
      extent capacity restarts (records ++ more) := by
  have hle : 2 * 1 * shares capacity more ≤ 2 * (restarts + 1) * shares capacity more :=
    Nat.mul_le_mul_right _ (Nat.mul_le_mul_left _ (Nat.le_add_left _ _))
  rw [extent, extent, shares_append, Nat.mul_add (2 * (restarts + 1))]
  omega

/-- One more restart may take a segment, and two for each share of the records. -/
theorem extent_restart (capacity restarts : Nat) (records : List Record) :
    extent capacity restarts records + capacity + 2 * shares capacity records =
      extent capacity (restarts + 1) records := by
  simp only [extent, Nat.succ_mul, Nat.mul_add, Nat.add_mul]
  omega

/-- Fewer restarts and fewer records take no more addresses. -/
theorem extent_mono {capacity restarts restarts' : Nat} {records records' : List Record}
    (hrestarts : restarts ≤ restarts') (hrecords : List.Sublist records records') :
    extent capacity restarts records ≤ extent capacity restarts' records' :=
  Nat.add_le_add (Nat.mul_le_mul_right _ hrestarts)
    (Nat.mul_le_mul (Nat.mul_le_mul_left _ (Nat.succ_le_succ hrestarts))
      (shares_le_of_sublist hrecords))

end Call

/-- Records without repetitions take no more than a list that has all of them. -/
theorem shares_le_of_subset (capacity : Nat) {records more : List Record} (hnodup : records.Nodup)
    (hsubset : records ⊆ more) : shares capacity records ≤ shares capacity more := by
  obtain ⟨list, hperm, hsublist⟩ := List.subperm_of_subset hnodup hsubset
  have hsame : shares capacity list = shares capacity records :=
    (hperm.map (Record.share capacity)).sum_nat
  exact hsame ▸ shares_le_of_sublist hsublist

namespace Config

variable {config : Config} {start disk : Disk} {range : SegmentRange}

/-- One key has one live record. -/
theorem nodup_live (config : Config) (disk : Disk) (range : SegmentRange) :
    (config.live disk range).Nodup := by
  have hcopies : Copies (config.indexed disk) (config.scanned disk range)
      (chosen (config.indexed disk) (config.scanned disk range) (config.scanned disk range)) :=
    copies_of_chosen (ascending_scanned config disk range) (List.append_nil _).symm rfl
  refine List.Pairwise.map _ (fun a b hkeys hsame => hkeys ?_) hcopies.distinct
  rw [hsame]

/-- Live records are found in the segments. -/
theorem live_subset (config : Config) (disk : Disk) (range : SegmentRange) :
    config.live disk range ⊆ (config.scanned disk range).map Prod.snd :=
  List.map_subset _ (List.filter_subset_self _)

/-- The segments of a closed store hold such records only, and end in front of `mark`. -/
structure Spaced (config : Config) (disk : Disk) (records : List Record) (mark : Nat) : Prop where
  reaches : disk.Reaches config.rangeFile
  exists_range : ∃ range, config.range? disk = some range ∧
    range.next.toNat * config.capacity.toNat ≤ mark ∧
    (config.scanned disk range).map Prod.snd ⊆ records

/-- Files may change that are neither the range file nor segments. -/
theorem Spaced.of_changes {records : List Record} {mark : Nat} (h : config.Spaced start records mark)
    {places : Set Location} (hchanges : start.Changes places disk)
    (hrange : config.place .range ∉ places) (hsegment : ∀ id, config.place (.segment id) ∉ places) :
    config.Spaced disk records mark := by
  obtain ⟨hreaches, range, hsaid, hmark, hrecords⟩ := h
  refine ⟨hchanges.reaches_iff.mpr hreaches, range, ?_, hmark, ?_⟩
  · rw [range?_congr (fileBytes_of_changes hchanges hrange), hsaid]
  · rwa [scanned_congr fun id _ _ => fileBytes_of_changes hchanges (hsegment id)]

end Config

namespace Engine

variable {config : Config} {engine : Engine} {start disk : Disk} {records : List Record} {mark : Nat}

/-- An open engine holds such records only, and its value log has come no further than `mark`. -/
def Paced (config : Config) (engine : Engine) (disk : Disk) (records : List Record) (mark : Nat) :
    Prop :=
  ∃ origin base applied staged counted pending,
    Holds config engine disk origin base applied staged counted pending ∧
      (applied ++ staged).map Prod.snd ⊆ records ∧ engine.log.cursor ≤ mark

/-- What keeps a pace keeps a slower one. -/
theorem Paced.mono (h : Paced config engine disk records mark) {mark' : Nat} (hle : mark ≤ mark') :
    Paced config engine disk records mark' := by
  obtain ⟨origin, base, applied, staged, counted, pending, hholds, hrecords, hcursor⟩ := h
  exact ⟨origin, base, applied, staged, counted, pending, hholds, hrecords, Nat.le_trans hcursor hle⟩

/-- The next opening starts with a segment of its own. -/
theorem Holds.spaced {origin : UInt64} {base : List (Bytes × UInt64)} {applied staged : Found}
    {counted pending : List (Bytes × UInt64)}
    (h : Holds config engine start origin base applied staged counted pending)
    (hrecords : (applied ++ staged).map Prod.snd ⊆ records) (hcursor : engine.log.cursor ≤ mark) :
    config.Spaced start records (mark + config.capacity.toNat) := by
  refine ⟨h.lodged.room.range.toReaches, engine.log.range, h.log.range?_eq, ?_, ?_⟩
  · rw [ValueLog.cursor, h.log.capacity_eq] at hcursor
    rw [h.log.next_eq, Nat.succ_mul]
    omega
  · rwa [h.scanned_eq]

/-- So it does if the store is closed first, since that changes the two index logs only. -/
theorem Holds.close_spaced {origin : UInt64} {base : List (Bytes × UInt64)} {applied staged : Found}
    {counted pending : List (Bytes × UInt64)}
    (h : Holds config engine start origin base applied staged counted pending)
    (hseparate : config.Separate) (hapart : config.Apart)
    (hrecords : (applied ++ staged).map Prod.snd ⊆ records) (hcursor : engine.log.cursor ≤ mark) :
    Achieves engine.close start (fun _ => True)
      (fun _ disk => ∃ value number, config.Stored disk value number ∧
        config.Spaced disk records (mark + config.capacity.toNat))
      (fun _ _ => False) := by
  have hother : ∀ file, file ≠ .index → config.place file ∉
      ({config.besideIndex.place, config.place .index} ∪ config.numberPlaces : Set Location) := by
    rintro file hfile (hplace | hplace)
    · exact ValueLog.not_mem_indexPlaces hseparate hfile hplace
    · exact hapart.file file hplace
  refine ((h.close hseparate hapart).and (h.close_changes hseparate hapart)).mono
    (fun _ _ => trivial) ?_ fun _ _ _ hfault => hfault.1
  rintro _ disk - ⟨hstored, hchanges⟩
  exact ⟨_, _, hstored, (h.spaced hrecords hcursor).of_changes hchanges
    (hother .range (by simp)) fun id => hother (.segment id) (by simp)⟩

/-- An opening takes no more addresses than all records together. -/
theorem achieves_openWith_paced {value : Bytes → Option Bytes} {number : Bytes → Option UInt64}
    (h : config.Stored start value number) (hspaced : config.Spaced start records mark)
    (hseparate : config.Separate) (hapart : config.Apart) (hvalid : config.validate = .ok ()) :
    Achieves (Engine.openWith config) start (fun _ => True)
      (fun engine disk => Paced config engine disk records
        (mark + 2 * shares config.capacity.toNat records))
      (fun _ _ => UInt64.size ≤ mark + 2 * shares config.capacity.toNat records + 1) := by
  obtain ⟨hreaches, range, hrange, hmark, hrecords⟩ := hspaced
  obtain ⟨_, hopen, -⟩ := h.exists_range
  have hlive : config.live start range ⊆ records :=
    fun _ hrecord => hrecords (config.live_subset start range hrecord)
  have hshares := shares_le_of_subset config.capacity.toNat
    (config.nodup_live start range) hlive
  refine ((achieves_openWith h hseparate hapart hvalid).and
    (openWith_tallied hopen.wellFormed hseparate hapart hvalid)).mono (fun _ _ => trivial) ?_ ?_
  · rintro engine disk - ⟨⟨origin, base, applied, counted, hholds, -⟩, -, old, hold, htallied⟩
    obtain rfl : range = old := Option.some.inj (hrange.symm.trans hold)
    have hcopied := htallied.live_eq
    rw [hholds.scanned_eq] at hcopied
    have hcursor := htallied.cursor_le
    exact ⟨origin, base, applied, [], counted, [], hholds, hcopied ▸ hlive, by omega⟩
  · rintro fault disk - ⟨rfl, hfault⟩
    -- it has run out of addresses, so there were none left
    by_contra hroom
    refine hfault ⟨hreaches, fun range' hrange' => ?_⟩ rfl
    obtain rfl : range = range' := Option.some.inj (hrange.symm.trans hrange')
    rw [Config.Affords]
    omega

section Calls

variable (hseparate : config.Separate) (hapart : config.Apart) (hvalid : config.validate = .ok ())

include hseparate hapart hvalid

/-- A value that is put takes its share of the addresses, and as much again at most. -/
theorem Paced.put (h : Paced config engine start records mark) {key value : Bytes}
    (hsmall : Record.Small ⟨key, value⟩) :
    Meets (engine.put key value) start (fun _ => True) fun (engine', outcome) disk =>
      outcome = .error .arithmetic ∧
          UInt64.size ≤ mark + 2 * Record.share config.capacity.toNat ⟨key, value⟩ + 1 ∨
        outcome = .ok () ∧ Paced config engine' disk (records ++ [⟨key, value⟩])
          (mark + 2 * Record.share config.capacity.toNat ⟨key, value⟩) := by
  obtain ⟨origin, base, applied, staged, counted, pending, hholds, hrecords, hcursor⟩ := h
  have hcapacity : engine.log.capacity ≠ 0 :=
    hholds.log.capacity_eq ▸ ValueLog.capacity_ne_of_validate hvalid
  have hends := ValueLog.ends_store hholds.log.next_eq hcapacity ⟨key, value⟩
  rw [hholds.log.capacity_eq] at hends
  -- the engine does what its value log does
  refine ((hholds.put hseparate hapart hvalid hsmall).and_result
    (fun result : Engine × Except Fault Unit =>
      (result.2 = .ok () → result.1.log.cursor ≤ engine.log.cursor +
        2 * Record.share config.capacity.toNat ⟨key, value⟩) ∧
      ∀ fault, result.2 = .error fault → engine.log.cursor +
        2 * Record.share config.capacity.toNat ⟨key, value⟩ + 1 < UInt64.size → fault ≠ .arithmetic)
    fun drive => ValueLog.result_put hends drive).imp ?_
  rintro ⟨engine', outcome⟩ disk - ⟨rfl | ⟨rfl, address, -, hholds'⟩, hdone, hfailed⟩
  · refine .inl ⟨rfl, ?_⟩
    by_contra hroom
    exact hfailed _ rfl (by omega) rfl
  · have hcursor' : engine'.log.cursor ≤ _ := hdone rfl
    refine .inr ⟨rfl, origin, base, applied, _, counted, pending, hholds', ?_, by omega⟩
    rw [← List.append_assoc, List.map_append]
    exact List.append_subset.mpr ⟨List.subset_append_of_subset_left _ hrecords, by simp⟩

omit hseparate hvalid in
/-- A number takes no addresses. -/
theorem Paced.putNumber (h : Paced config engine start records mark) (key : Bytes) (number : UInt64) :
    Meets (engine.putNumber key number) start (fun _ => True) fun engine' disk =>
      Paced config engine' disk records mark := by
  obtain ⟨origin, base, applied, staged, counted, pending, hholds, hrecords, hcursor⟩ := h
  refine (hholds.putNumber hapart key number).imp ?_
  rintro engine' disk - ⟨hlog, hholds'⟩
  exact ⟨origin, base, applied, staged, counted, _, hholds', hrecords, hlog ▸ hcursor⟩

omit hseparate hapart hvalid in
/-- Nor does a barrier. -/
theorem Paced.sync (h : Paced config engine start records mark) :
    Meets engine.sync start (fun _ => True) fun engine' disk =>
      Paced config engine' disk records mark := by
  obtain ⟨origin, base, applied, staged, counted, pending, hholds, hrecords, hcursor⟩ := h
  refine (hholds.sync.and_result (fun engine' => engine'.log.cursor = engine.log.cursor)
    fun _ => rfl).imp ?_
  rintro engine' disk - ⟨hholds', hsame⟩
  exact ⟨origin, base, _, [], _, [], hholds', by rwa [List.append_nil], hsame.symm ▸ hcursor⟩

/-- A command takes the addresses of the record that it writes. -/
theorem Paced.execute (h : Paced config engine start records mark) {command : Command}
    (hsmall : (Call.execute command).Small) :
    let kept := (Call.execute command).record?.toList
    Meets (engine.execute command) start (fun _ => True) fun (engine', outcome) disk =>
      (∃ key value, command = .put key value) ∧ (∃ fault, outcome = .error fault) ∧
          UInt64.size ≤ mark + 2 * shares config.capacity.toNat kept + 1 ∨
        (∃ answer, outcome = .ok answer) ∧ Paced config engine' disk (records ++ kept)
          (mark + 2 * shares config.capacity.toNat kept) := by
  intro kept
  -- of all commands only a put writes a record
  have hunchanged : kept = [] → Paced config engine start (records ++ kept)
      (mark + 2 * shares config.capacity.toNat kept) := by
    intro hnone
    rw [hnone, List.append_nil]
    exact h
  cases command with
  | get key =>
    obtain ⟨origin, base, applied, staged, counted, pending, hholds, -⟩ := id h
    refine meets_current_bind trivial ?_
    rw [hholds.get_eq]
    exact meets_pure trivial (.inr ⟨⟨_, rfl⟩, hunchanged rfl⟩)
  | put key value =>
    have hkept : kept = [⟨key, value⟩] := rfl
    rw [hkept, shares_singleton]
    refine Meets.bind (h.put hseparate hapart hvalid hsmall) ?_
    rintro ⟨engine', outcome⟩ disk - (⟨rfl, hfull⟩ | ⟨rfl, hpaced⟩)
    · exact meets_pure trivial (.inl ⟨⟨key, value, rfl⟩, ⟨_, rfl⟩, hfull⟩)
    · exact meets_pure trivial (.inr ⟨⟨_, rfl⟩, hpaced⟩)
  | ping => exact meets_pure trivial (.inr ⟨⟨_, rfl⟩, hunchanged rfl⟩)
  | putNumber key number =>
    refine Meets.bind (h.putNumber hapart key number) ?_
    rintro engine' disk - hpaced
    refine meets_pure trivial (.inr ⟨⟨_, rfl⟩, ?_⟩)
    rw [show kept = [] from rfl, List.append_nil]
    exact hpaced
  | getNumber key => exact meets_pure trivial (.inr ⟨⟨_, rfl⟩, hunchanged rfl⟩)

/-- A store that was closed, or whose process has ended, is opened again. -/
theorem achieves_reopen {value : Bytes → Option Bytes} {number : Bytes → Option UInt64}
    {restarts : Nat} (h : config.Stored start value number)
    (hspaced : config.Spaced start records
      (Call.extent config.capacity.toNat restarts records + config.capacity.toNat)) :
    Achieves (do
        let engine ← Engine.openWith config
        return (engine, Answer.done)) start (fun _ => True)
      (fun state disk => Paced config state.1 disk records
        (Call.extent config.capacity.toNat (restarts + 1) records))
      (fun _ _ => UInt64.size ≤ Call.extent config.capacity.toNat (restarts + 1) records + 1) := by
  rw [← Call.extent_restart]
  exact (achieves_openWith_paced h hspaced hseparate hapart hvalid).bind
    fun engine disk _ hpaced => achieves_pure trivial hpaced

/-- No call takes more addresses than its extent allows. -/
theorem Paced.call {restarts : Nat}
    (h : Paced config engine start records (Call.extent config.capacity.toNat restarts records))
    {call : Call} (hsmall : call.Small) :
    let extent := Call.extent config.capacity.toNat (restarts + call.restarts)
      (records ++ call.record?.toList)
    Achieves (engine.call config call) start (fun _ => True)
      (fun state disk => Paced config state.1 disk (records ++ call.record?.toList) extent)
      (fun _ _ => UInt64.size ≤ extent + 1) := by
  intro extent
  -- the extent stays as it is where no record is written and nothing is opened
  have hnone : call.record?.toList = [] → call.restarts = 0 → ∀ {engine' disk},
      Paced config engine' disk records (Call.extent config.capacity.toNat restarts records) →
        Paced config engine' disk (records ++ call.record?.toList) extent := by
    intro hrecord hrestart engine' disk hpaced
    simpa only [extent, hrecord, hrestart, List.append_nil, Nat.add_zero] using hpaced
  -- and has one more restart in it where the store is opened again
  have hrestart : call.record?.toList = [] → call.restarts = 1 → ∀ {operation disk},
      Achieves operation disk (fun _ => True)
        (fun (state : Engine × Answer) last => Paced config state.1 last records
          (Call.extent config.capacity.toNat (restarts + 1) records))
        (fun _ _ => UInt64.size ≤ Call.extent config.capacity.toNat (restarts + 1) records + 1) →
      Achieves operation disk (fun _ => True)
        (fun state last => Paced config state.1 last (records ++ call.record?.toList) extent)
        (fun _ _ => UInt64.size ≤ extent + 1) := by
    intro hrecord hrestart operation disk hopened
    simpa only [extent, hrecord, hrestart, List.append_nil] using hopened
  cases call with
  | put key value =>
    have hextent := Call.extent_append config.capacity.toNat restarts records [⟨key, value⟩]
    rw [shares_singleton] at hextent
    refine Achieves.bind (achieves_lift (h.put hseparate hapart hvalid hsmall)) ?_
    rintro ⟨engine', outcome⟩ disk - (⟨rfl, hfull⟩ | ⟨rfl, hpaced⟩)
    · exact achieves_throw trivial (Nat.le_trans hfull (Nat.succ_le_succ hextent))
    · exact achieves_pure trivial (hpaced.mono hextent)
  | putNumber key number =>
    refine Achieves.bind (achieves_lift (h.putNumber hapart key number)) ?_
    rintro engine' disk - hpaced
    exact achieves_pure trivial (hnone rfl rfl hpaced)
  | sync =>
    refine Achieves.bind (achieves_lift h.sync) ?_
    rintro engine' disk - hpaced
    exact achieves_pure trivial (hnone rfl rfl hpaced)
  | get key => exact achieves_current_bind trivial (achieves_pure trivial (hnone rfl rfl h))
  | getNumber key => exact achieves_pure trivial (hnone rfl rfl h)
  | execute command =>
    have hextent := Call.extent_append config.capacity.toNat restarts records
      (Call.execute command).record?.toList
    refine Achieves.bind (achieves_lift (h.execute hseparate hapart hvalid hsmall)) ?_
    rintro ⟨engine', outcome⟩ disk -
      (⟨⟨key, value, rfl⟩, ⟨fault, rfl⟩, hfull⟩ | ⟨⟨answer, rfl⟩, hpaced⟩)
    · exact achieves_throw trivial (Nat.le_trans hfull (Nat.succ_le_succ hextent))
    · cases command <;> exact achieves_pure trivial (hpaced.mono hextent)
  | crash =>
    obtain ⟨origin, base, applied, staged, counted, pending, hholds, hrecords, hcursor⟩ := h
    exact hrestart rfl rfl (achieves_reopen hseparate hapart hvalid hholds.stored
      (hholds.spaced hrecords hcursor))
  | close =>
    obtain ⟨origin, base, applied, staged, counted, pending, hholds, hrecords, hcursor⟩ := h
    refine Achieves.bind ((hholds.close_spaced hseparate hapart hrecords hcursor).imp_failed
      fun _ _ _ hfault => hfault.elim) ?_
    rintro _ disk - ⟨value, number, hstored, hspaced⟩
    exact hrestart rfl rfl (achieves_reopen hseparate hapart hvalid hstored hspaced)

/-- Nor does a list of calls. -/
theorem Paced.reports {restarts : Nat}
    (h : Paced config engine start records (Call.extent config.capacity.toNat restarts records))
    {calls : List Call} (hsmall : ∀ call ∈ calls, call.Small) :
    Achieves (engine.reports config calls) start (fun _ => True) (fun _ _ => True)
      (fun _ _ => UInt64.size ≤ Call.extent config.capacity.toNat
        (restarts + (calls.map Call.restarts).sum) (records ++ calls.filterMap Call.record?) + 1) := by
  -- on the calls, for what was written and how often the store was opened in front of them
  induction calls generalizing engine start records restarts with
  | nil => exact achieves_pure trivial trivial
  | cons call rest ih =>
    have hall : records ++ (call :: rest).filterMap Call.record? =
        (records ++ call.record?.toList) ++ rest.filterMap Call.record? := by
      rw [List.append_assoc, ← filterMap_cons_eq]
    rw [hall, List.map_cons, List.sum_cons, ← Nat.add_assoc]
    refine Achieves.bind ((h.call hseparate hapart hvalid
      (hsmall call List.mem_cons_self)).imp_failed ?_) ?_
    · intro _ _ _ hfull
      exact Nat.le_trans hfull (Nat.succ_le_succ (Call.extent_mono (Nat.le_add_right _ _)
        (List.sublist_append_left _ _)))
    rintro ⟨engine', answer⟩ disk - hpaced
    exact Achieves.bind (ih hpaced fun other hother => hsmall other (List.mem_cons_of_mem _ hother))
      fun later last _ _ => achieves_pure trivial trivial

end Calls

/-- As long as the extent of its calls fits the addresses, a store in an empty directory never runs out of
them: it reports what the maps say. -/
theorem run_eq_of_extent {base : Config} {directory : Path} (hwell : start.WellFormed)
    (hempty : start.EmptyDirectory directory) (hcapacity : base.capacity ≠ 0)
    (hinterval : base.syncInterval ≠ 0) {calls : List Call} (hsmall : ∀ call ∈ calls, call.Small)
    (hextent : Call.extent base.capacity.toNat (calls.map Call.restarts).sum
      (calls.filterMap Call.record?) + 1 < UInt64.size) :
    ((run (base.withDirectory directory) calls).run.run (ofDisk start)).1 =
      .ok (Maps.empty.reports calls) := by
  have hseparate := Config.separate_withDirectory base directory
  have hapart := Config.apart_withDirectory base directory
  have hvalid := Config.validate_withDirectory directory hcapacity hinterval
  have hstored : (base.withDirectory directory).Stored start _ _ := stored_of_empty hwell hempty
  have hspaced : (base.withDirectory directory).Spaced start [] 0 := by
    obtain ⟨_, hopen, -⟩ := hstored.exists_range
    refine ⟨hopen.room.range.toReaches, SegmentRange.empty, ?_, Nat.le_of_eq (Nat.zero_mul _), ?_⟩
    · rw [Config.range?, Config.fileBytes_of_empty hempty]
      rfl
    · rw [Config.scanned, SegmentRange.empty, SegmentRange.ids_self, List.flatMap_nil]
      exact List.Subset.refl _
  have hrun : Achieves (run (base.withDirectory directory) calls) start (fun _ => True)
      (fun _ _ => True) (fun _ _ => UInt64.size ≤ Call.extent base.capacity.toNat
        (calls.map Call.restarts).sum (calls.filterMap Call.record?) + 1) := by
    refine Achieves.bind ((achieves_openWith_paced hstored hspaced hseparate hapart hvalid).imp_failed
      ?_) ?_
    · intro _ _ _ hfull
      rw [shares_nil] at hfull
      omega
    intro engine disk _ hpaced
    -- so far nothing was written, and the store was opened once
    have hnone : Paced (base.withDirectory directory) engine disk []
        (Call.extent (base.withDirectory directory).capacity.toNat 0 []) :=
      hpaced.mono (Nat.le_of_eq (by simp [Call.extent]))
    refine (hnone.reports hseparate hapart hvalid hsmall).imp_failed fun _ _ _ hfull => ?_
    rwa [Nat.zero_add, List.nil_append] at hfull
  have hafter := hrun.after_run_ofDisk
  refine (run_eq hwell hempty hcapacity hinterval hsmall).resolve_right fun hfault => ?_
  rw [hfault] at hafter
  exact absurd hextent (Nat.not_lt.mpr hafter)

/-- Segments of half as many bytes as there are addresses. -/
def halves : Config := { Config.default with capacity := 0x8000000000000000 }

/-- Segments of a quarter as many bytes as there are addresses. -/
def quarters : Config := { Config.default with capacity := 0x4000000000000000 }

/-- With segments of a quarter of the addresses there are enough of them for two values, a crash and a
restart. -/
theorem run_eq_of_extent_quarters :
    let calls := [.put [1] [10], .crash, .get [1], .put [1] [11], .close, .get [1]]
    ((run (quarters.withDirectory Path.fresh) calls).run.run (ofDisk Disk.fresh)).1 =
      .ok (Maps.empty.reports calls) := by
  intro calls
  have hsmall : ∀ call ∈ calls, call.Small := by decide
  have hextent : Call.extent quarters.capacity.toNat (calls.map Call.restarts).sum
      (calls.filterMap Call.record?) + 1 < UInt64.size := by
    decide +kernel
  exact run_eq_of_extent Disk.wellFormed_fresh Disk.emptyDirectory_fresh (by decide) (by decide) hsmall
    hextent

/-- With segments of half as many bytes as there are addresses, the third opening takes one for which there
is no address left, and so the first write behind it fails. -/
theorem exhausts_addresses :
    (halves.withDirectory Path.fresh).validate = .ok () ∧
      (match ((run (halves.withDirectory Path.fresh) [.crash, .crash, .put [107] [118]]).run.run
          (ofDisk Disk.fresh)).1 with
        | .error .arithmetic => true
        | _ => false) = true := by
  decide +kernel

end Engine

end BarrierStore
