import BarrierStore.Proofs.Config.DataDirectory
import BarrierStore.Proofs.Path.Directories
import BarrierStore.Proofs.Segment.Maximal
import BarrierStore.Proofs.ValueLog.Opening

/-!
# Reading damaged segments

A segment file may be gone, cut short or written over, and the index may point anywhere in it or behind
its end. A reader gets a value only where the bytes of a record of the key stand, as a whole; else the
fault says whether there is such a file at all.

The module introduces:

* `Path.way` — the pieces that lead to the last one, and `Disk.Clear`, which says that a path leads to
  nothing only for want of something there;
* `ValueLog.readFrom` — what a reader does with an open segment file;
* `ValueLog.HoldsAt` — the bytes of a record stand where an address points, wholly inside the file.

Main statement: `ValueLog.get_of_damage`. It is put together from `readAt_of_file`, `readFrom_eq_ok_iff`
and `readFrom_eq_error` on files that are there, and `Disk.nodeAt_of_clear` on those that are not.
-/

namespace BarrierStore

open Drive

/-! ## Paths that lead to nothing -/

/-- The pieces of a path that lead to the last one. -/
def Path.way (path : Path) : List Path.Piece :=
  (path.pieces.filter (· ≠ [])).dropLast

namespace Disk

/-- The system takes the path, and no file stands in place of a directory on the way. -/
structure Clear (disk : Disk) (path : Path) : Prop where
  no_nul : '\x00' ∉ path.chars
  short : (Utf8.encode path.chars).length ≤ longestPath
  short_pieces : ∀ piece ∈ path.pieces, (Utf8.encode piece).length ≤ longestName
  free : ∀ front, front <+: path.way → ∀ file,
    disk.node? (front.foldl Path.step []) ≠ some (.file file)

variable {disk : Disk}

/-- A step where no file stands fails only for want of a directory. -/
theorem enter_of_free {place : Location} {piece : Path.Piece}
    (hshort : (Utf8.encode piece).length ≤ longestName)
    (hfree : ∀ file, disk.node? (Path.step place piece) ≠ some (.file file)) :
    disk.enter place piece = .ok (Path.step place piece) ∨
      disk.enter place piece = .error .notFound := by
  rw [enter, Path.step]
  by_cases hdot : piece = Path.dot
  · rw [if_pos hdot, if_pos hdot]
    exact .inl rfl
  by_cases hup : piece = Path.dotDot
  · rw [if_neg hdot, if_neg hdot, if_pos hup, if_pos hup]
    exact .inl rfl
  rw [Path.step, if_neg hdot, if_neg hup] at hfree
  have hentry : disk.entry (piece :: place) = .ok (disk.node? (piece :: place)) :=
    if_neg (Nat.not_lt.mpr hshort)
  rw [if_neg hdot, if_neg hdot, if_neg hup, if_neg hup, hentry]
  rcases hnode : disk.node? (piece :: place) with _ | _ | file
  · exact .inr rfl
  · exact .inl rfl
  · exact absurd hnode (hfree file)

/-- Nor does a walk where no file stands. -/
theorem walk_of_free {start : Location} {pieces : List Path.Piece}
    (hshort : ∀ piece ∈ pieces, (Utf8.encode piece).length ≤ longestName)
    (hfree : ∀ front, front <+: pieces → ∀ file,
      disk.node? (front.foldl Path.step start) ≠ some (.file file)) :
    disk.walk start pieces = .ok (pieces.foldl Path.step start) ∨
      disk.walk start pieces = .error .notFound := by
  -- by induction on the pieces, from any place: what is in front of the rest is behind the first step
  induction pieces generalizing start with
  | nil => exact .inl rfl
  | cons piece rest ih =>
    rw [walk_cons]
    have hstep := enter_of_free (hshort piece List.mem_cons_self)
      (hfree [piece] (List.cons_prefix_cons.mpr ⟨rfl, List.nil_prefix⟩))
    rcases hstep with hstep | hstep <;> rw [hstep]
    · refine ih (fun other hother => hshort other (List.mem_cons_of_mem _ hother)) ?_
      exact fun front hfront => hfree (piece :: front) (List.cons_prefix_cons.mpr ⟨rfl, hfront⟩)
    · exact .inr rfl

/-- A clear path that ends in a proper name leads to nothing only where nothing is. -/
theorem nodeAt_of_clear {path : Path} {front : List Path.Piece} {name : Path.Piece}
    (hends : path.EndsIn front name) (hclear : disk.Clear path)
    (hnothing : ∀ node, disk.nodeAt path ≠ .ok node) : disk.nodeAt path = .error .notFound := by
  have hway : path.way = front.filter (· ≠ []) := by
    rw [Path.way, hends.pieces_eq, List.filter_append]
    simp [hends.proper.ne_nil]
  have hpieces : ∀ piece ∈ front.filter (· ≠ []), (Utf8.encode piece).length ≤ longestName := by
    intro piece hpiece
    refine hclear.short_pieces piece ?_
    rw [hends.pieces_eq]
    exact List.mem_append_left _ (List.mem_of_mem_filter hpiece)
  have hname : (Utf8.encode name).length ≤ longestName :=
    hclear.short_pieces name (by rw [hends.pieces_eq]; exact List.mem_append_right _ List.mem_cons_self)
  have hlocate := @locate_of_endsIn disk _ _ _ hends
  rw [if_neg hclear.no_nul, if_neg (Nat.not_lt.mpr hclear.short)] at hlocate
  -- either the directory is there, and the name in it is not, or a directory on the way is not there
  rcases walk_of_free hpieces (hway ▸ hclear.free) with hwalk | hwalk <;> rw [hwalk] at hlocate
  · have hreaches : disk.Reaches path := (reaches_iff_of_endsIn hends).mpr
      ⟨hclear.no_nul, hclear.short, hwalk, hname⟩
    rw [hreaches.nodeAt_eq] at hnothing ⊢
    rcases hnode : disk.node? path.place with _ | node
    · rfl
    · rw [hnode] at hnothing
      exact absurd rfl (hnothing node)
  · rw [nodeAt, hlocate]
    rfl

end Disk

namespace ValueLog

variable {log : ValueLog} {disk : Disk} {key value : Bytes}

/-! ## Files that are there -/

/-- What a reader does with an open segment file. It goes to the offset, unless the file ends in front of
it, reads a record within the bytes that are left of the file, and looks whether it is one of the key. -/
def readFrom (contents : Contents) (key : Bytes) (position : Position) : Except Fault Bytes :=
  let corrupt := Fault.corruptRecord position.segment position.offset
  if contents.length ≤ position.offset then .error corrupt
  else do
    -- no length may announce more than is left of the file
    let found ← Record.readWithin (contents.length - position.offset)
      (contents.toBytes.drop position.offset)
    -- the index may point at a record of any key
    found.elim (.error corrupt) fun found =>
      if found.1.key = key then .ok found.1.value else .error corrupt

variable {contents : Contents} {position : Position} {file : FileId}

/-- Within the bytes that are left no length is too large for memory, so a reader sees just the record that
stands there. -/
theorem readFrom_eq (hlength : contents.length ≤ Bytes.maxLength) :
    readFrom contents key position =
      (contents.recordAt? position.offset).elim
        (.error (.corruptRecord position.segment position.offset)) fun record =>
          if record.key = key then .ok record.value
          else .error (.corruptRecord position.segment position.offset) := by
  by_cases hend : contents.length ≤ position.offset
  · rw [readFrom, if_pos hend, Contents.recordAt?_of_length_le hlength hend]
    rfl
  · rw [readFrom, if_neg hend, Contents.readWithin_drop hlength]
    cases contents.recordAt? position.offset <;> rfl

/-- A reader goes about the file of the segment, if it is there. -/
theorem readAt_of_file (hnode : disk.nodeAt (log.segmentFile position.segment) = .ok (.file file))
    (hlength : (disk.contents file).length ≤ Bytes.maxLength) :
    log.readAt disk key position = readFrom (disk.contents file) key position := by
  rw [readFrom_eq hlength, readAt, hnode]
  dsimp only
  cases (disk.contents file).recordAt? position.offset <;> rfl

/-- A value is read exactly where the bytes of its record stand. -/
theorem readFrom_eq_ok_iff (hlength : contents.length ≤ Bytes.maxLength) :
    readFrom contents key position = .ok value ↔
      (Record.mk key value).encode <+: contents.toBytes.drop position.offset := by
  rw [readFrom_eq hlength, ← Contents.recordAt?_eq_some_iff hlength]
  rcases contents.recordAt? position.offset with _ | record
  · exact iff_of_false nofun nofun
  · -- the record that stands there may be one of another key
    rw [Option.elim_some]
    by_cases hkey : record.key = key
    · obtain ⟨_, _⟩ := record
      obtain rfl := hkey
      simp
    · have hne : record ≠ ⟨key, value⟩ := fun heq => hkey (congrArg Record.key heq)
      simp [hkey, hne]

/-- And where no such record stands, the fault names the place. -/
theorem readFrom_eq_error (hlength : contents.length ≤ Bytes.maxLength)
    (h : ∀ value, ¬ (Record.mk key value).encode <+: contents.toBytes.drop position.offset) :
    readFrom contents key position = .error (.corruptRecord position.segment position.offset) := by
  simp only [← Contents.recordAt?_eq_some_iff hlength] at h
  rw [readFrom_eq hlength]
  rcases hrecord : contents.recordAt? position.offset with _ | record
  · rfl
  · have hkey : record.key ≠ key := by
      rintro rfl
      exact h record.value hrecord
    rw [Option.elim_some, if_neg hkey]

/-! ## Any segments, and any addresses -/

/-- The segment and the offset of an address. -/
def positionOf (log : ValueLog) (address : UInt64) : Position :=
  ⟨address / log.capacity, address.toNat % log.capacity.toNat⟩

/-- The path of the segment of an address. -/
def fileOf (log : ValueLog) (address : UInt64) : Path :=
  log.segmentFile (log.positionOf address).segment

/-- The fault that names the segment and the offset of an address. -/
def corruptAt (log : ValueLog) (address : UInt64) : Fault :=
  .corruptRecord (log.positionOf address).segment (log.positionOf address).offset

/-- The segment of the address is there, and in it the bytes of the record stand at the offset of the
address. -/
def HoldsAt (log : ValueLog) (disk : Disk) (address : UInt64) (record : Record) : Prop :=
  ∃ file, disk.nodeAt (log.fileOf address) = .ok (.file file) ∧
    record.encode <+: (disk.contents file).toBytes.drop (log.positionOf address).offset

variable {address : UInt64}

/-- Where the segment is there, it holds the records that stand at the offset in its file. -/
theorem holdsAt_iff {record : Record} (hnode : disk.nodeAt (log.fileOf address) = .ok (.file file)) :
    log.HoldsAt disk address record ↔
      record.encode <+: (disk.contents file).toBytes.drop (log.positionOf address).offset := by
  constructor
  · intro hholds
    obtain ⟨file', hnode', hfront⟩ := hholds
    cases hnode.symm.trans hnode'
    exact hfront
  · exact fun hfront => ⟨file, hnode, hfront⟩

/-- A segment holds one record at most at an address. -/
theorem HoldsAt.eq {record other : Record} (h : log.HoldsAt disk address record)
    (h' : log.HoldsAt disk address other)
    (hlength : ∀ file, (disk.contents file).length ≤ Bytes.maxLength) : record = other := by
  obtain ⟨file, hnode, hfront⟩ := h
  rw [holdsAt_iff hnode] at h'
  rw [← Contents.recordAt?_eq_some_iff (hlength file)] at hfront h'
  exact Option.some.inj (hfront.symm.trans h')

section Bound

variable (hcapacity : log.capacity ≠ 0) (h : log.find? key = some address)
include hcapacity h

/-- A reader of a key that has an address reads there. -/
theorem get_of_find? :
    log.get disk key = some <$> log.readAt disk key (log.positionOf address) := by
  simp only [get, h, Position.ofAddress?, if_neg hcapacity]
  rfl

/-- The path of the segment leads to nothing. -/
theorem get_of_missing {cause : IoFault} (hnode : disk.nodeAt (log.fileOf address) = .error cause) :
    log.get disk key = .error (.io cause) := by
  rw [get_of_find? hcapacity h, readAt, ← fileOf, hnode]
  rfl

/-- A directory stands in place of the segment. -/
theorem get_of_directory (hnode : disk.nodeAt (log.fileOf address) = .ok .directory) :
    log.get disk key = .error (.io .isADirectory) ∨
      log.get disk key = .error (log.corruptAt address) := by
  rw [get_of_find? hcapacity h, readAt, ← fileOf, hnode]
  dsimp only
  split
  · exact .inl rfl
  · exact .inr rfl

variable (hlength : ∀ file, (disk.contents file).length ≤ Bytes.maxLength)
include hlength

/-- The segment is there, and holds a record of the key. -/
theorem get_of_holdsAt (hholds : log.HoldsAt disk address ⟨key, value⟩) :
    log.get disk key = .ok (some value) := by
  obtain ⟨file, hnode, hfront⟩ := hholds
  rw [get_of_find? hcapacity h, readAt_of_file hnode (hlength file),
    (readFrom_eq_ok_iff (hlength file)).mpr hfront]
  rfl

/-- The segment is there, and holds no record of the key. -/
theorem get_of_file (hnode : disk.nodeAt (log.fileOf address) = .ok (.file file))
    (hnone : ∀ value, ¬ log.HoldsAt disk address ⟨key, value⟩) :
    log.get disk key = .error (log.corruptAt address) := by
  rw [get_of_find? hcapacity h, readAt_of_file hnode (hlength file), readFrom_eq_error (hlength file)
    fun value => mt (holdsAt_iff hnode).mpr (hnone value)]
  rfl

/-- The segment holds a record of the key, or the reader is told of a fault, and no number was to blame. -/
theorem get_cases : (∃ value, log.HoldsAt disk address ⟨key, value⟩) ∨
    ∃ fault, log.get disk key = .error fault ∧ fault ≠ .arithmetic := by
  by_cases hholds : ∃ value, log.HoldsAt disk address ⟨key, value⟩
  · exact .inl hholds
  · refine .inr ?_
    rcases hnode : disk.nodeAt (log.fileOf address) with cause | _ | file
    · exact ⟨_, get_of_missing hcapacity h hnode, nofun⟩
    · rcases get_of_directory hcapacity h hnode with hfault | hfault <;> exact ⟨_, hfault, nofun⟩
    · exact ⟨_, get_of_file hcapacity h hlength hnode (not_exists.mp hholds), nofun⟩

/-- A reader of a key that has an address gets the value that the segment holds there, and no other. -/
theorem get_eq_some_iff :
    log.get disk key = .ok (some value) ↔ log.HoldsAt disk address ⟨key, value⟩ := by
  constructor
  · intro hvalue
    rcases get_cases hcapacity h hlength with hholds | hfault
    · obtain ⟨found, hfound⟩ := hholds
      cases (get_of_holdsAt hcapacity h hlength hfound).symm.trans hvalue
      exact hfound
    · obtain ⟨_, hfault, -⟩ := hfault
      cases hfault.symm.trans hvalue
  · exact get_of_holdsAt hcapacity h hlength

end Bound

/-- What a reader gets, whatever the segment files hold and wherever the index points. A key has no value
exactly where it has no address. It has a value exactly where the segment of its address is there and
holds a record of the key with that value, as a whole, at the offset of the address. Else the fault names
that segment and that offset where the segment is there, and says what is wrong with the path where it is
not: nothing is found there if the path is clear. -/
theorem get_of_damage (log : ValueLog) (disk : Disk) (key : Bytes) (hcapacity : log.capacity ≠ 0)
    (hlength : ∀ file, (disk.contents file).length ≤ Bytes.maxLength) :
    (log.get disk key = .ok none ↔ log.find? key = none) ∧
    (∀ value, log.get disk key = .ok (some value) ↔
      ∃ address, log.find? key = some address ∧ log.HoldsAt disk address ⟨key, value⟩) ∧
    (∀ address, log.find? key = some address → (∀ value, ¬ log.HoldsAt disk address ⟨key, value⟩) →
      (∀ file, disk.nodeAt (log.fileOf address) = .ok (.file file) →
        log.get disk key = .error (log.corruptAt address)) ∧
      (disk.nodeAt (log.fileOf address) = .ok .directory →
        log.get disk key = .error (.io .isADirectory) ∨
          log.get disk key = .error (log.corruptAt address)) ∧
      (∀ cause, disk.nodeAt (log.fileOf address) = .error cause →
        log.get disk key = .error (.io cause)) ∧
      (disk.Clear (log.fileOf address) → (∀ node, disk.nodeAt (log.fileOf address) ≠ .ok node) →
        log.get disk key = .error (.io .notFound))) ∧
    (∀ address record, log.find? key = some address → log.HoldsAt disk address record →
      record.key ≠ key → log.get disk key = .error (log.corruptAt address)) ∧
    log.get disk key ≠ .error .arithmetic := by
  rcases hfind : log.find? key with _ | address
  · -- the key has no address
    have hget : log.get disk key = .ok none := by rw [get, hfind]
    simp [hget]
  have hcases := get_cases hcapacity hfind hlength
  refine ⟨?_, fun value => ?_, ?_, ?_, ?_⟩
  · rcases hcases with ⟨_, hholds⟩ | ⟨_, hfault, -⟩
    · simp [get_of_holdsAt hcapacity hfind hlength hholds]
    · simp [hfault]
  · simp only [get_eq_some_iff hcapacity hfind hlength, Option.some.injEq, exists_eq_left']
  · intro other hother hnone
    obtain rfl := Option.some.inj hother
    refine ⟨fun file hnode => get_of_file hcapacity hfind hlength hnode hnone,
      get_of_directory hcapacity hfind, fun cause => get_of_missing hcapacity hfind, ?_⟩
    intro hclear hnothing
    obtain ⟨front, last, hends⟩ := exists_endsIn_segmentFile log.segmentStem
    exact get_of_missing hcapacity hfind (Disk.nodeAt_of_clear (hends _) hclear hnothing)
  · intro other record hother hrecord hkey
    obtain rfl := Option.some.inj hother
    -- one record stands there, and it is not one of this key
    obtain ⟨file, hnode, -⟩ := id hrecord
    refine get_of_file hcapacity hfind hlength hnode fun value hholds => hkey ?_
    exact congrArg Record.key (hrecord.eq hholds hlength)
  · rcases hcases with ⟨_, hholds⟩ | ⟨_, hfault, hne⟩
    · simp [get_of_holdsAt hcapacity hfind hlength hholds]
    · simpa [hfault] using hne

/-- A log of segments of 64 bytes in which the key `k` has this address. -/
def pointing (address : UInt64) : ValueLog where
  capacity := 64
  segmentStem := .ofString "s"
  rangeFile := .ofString "range"
  index :=
    { path := .ofString "index"
      log := 1
      staged := ∅
      applied := AddressMap.ofEntries [([107], address)] }
  range := ⟨0, 1⟩
  active := ⟨0, 0, 36⟩

/-- Its only segment has a record of `k`, one of `j`, and garbage behind them. -/
def damaged : Disk :=
  Disk.empty.applyAll
    [.create ["s0".toList],
      .write 0 0 (Record.encode ⟨[107], [118]⟩ ++ Record.encode ⟨[106], [119]⟩ ++ [255, 255])]

theorem length_damaged (file : FileId) : (damaged.contents file).length ≤ Bytes.maxLength := by
  by_cases hfile : file = 0
  · subst hfile
    decide +kernel
  · have hempty : damaged.contents file = .empty := by
      refine (Disk.contents_setFile _ 0 file _).trans ((if_neg hfile).trans ?_)
      simp [Disk.contents, Disk.file, Disk.apply, Disk.empty, Std.ExtTreeMap.getD_insert,
        Ne.symm hfile, File.empty]
    rw [hempty]
    exact Nat.zero_le _

/-- At its own record the key has its value. At the record of another key, and behind the end, it has a
fault, and so it has in a segment that is not there. -/
theorem get_of_damage_pointing :
    (pointing 0).get damaged [107] = .ok (some [118]) ∧
      (pointing 18).get damaged [107] = .error (.corruptRecord 0 18) ∧
      (pointing 63).get damaged [107] = .error (.corruptRecord 0 63) ∧
      (pointing 64).get damaged [107] = .error (.io .notFound) := by
  have hcapacity (address : UInt64) : (pointing address).capacity ≠ 0 :=
    show (64 : UInt64) ≠ 0 by decide
  have hfind (address : UInt64) : (pointing address).find? [107] = some address := by
    rw [find?, Index.find?, pointing, getElem?_ofEntries]
    rfl
  have hfile : damaged.nodeAt ((pointing 63).fileOf 63) = .ok (.file 0) := by decide +kernel
  have hmissing : damaged.nodeAt ((pointing 64).fileOf 64) = .error .notFound := by decide +kernel
  have hclear : damaged.Clear ((pointing 64).fileOf 64) := by
    have hway : ((pointing 64).fileOf 64).way = [] := by decide +kernel
    refine ⟨by decide +kernel, by decide +kernel, by decide +kernel, ?_⟩
    intro front hfront
    rw [hway, List.prefix_nil] at hfront
    simp [hfront, Disk.node?]
  refine ⟨?_, ?_, ?_, ?_⟩
  · -- the record of the key
    obtain ⟨-, hvalue, -⟩ := get_of_damage _ damaged [107] (hcapacity 0) length_damaged
    exact (hvalue [118]).mpr ⟨0, hfind 0, 0, by decide +kernel, by decide +kernel⟩
  · -- the record of another key
    obtain ⟨-, -, -, hother, -⟩ := get_of_damage _ damaged [107] (hcapacity 18) length_damaged
    exact hother 18 ⟨[106], [119]⟩ (hfind 18) ⟨0, by decide +kernel, by decide +kernel⟩ (by decide)
  · -- behind the end
    obtain ⟨-, -, hfault, -⟩ := get_of_damage _ damaged [107] (hcapacity 63) length_damaged
    refine (hfault 63 (hfind 63) fun value hholds => ?_).1 0 hfile
    rw [holdsAt_iff hfile, ← Contents.recordAt?_eq_some_iff (length_damaged 0)] at hholds
    have hnone : (damaged.contents 0).recordAt? 63 = none := by decide +kernel
    cases hnone.symm.trans hholds
  · -- another segment
    obtain ⟨-, -, hfault, -⟩ := get_of_damage _ damaged [107] (hcapacity 64) length_damaged
    refine (hfault 64 (hfind 64) ?_).2.2.2 hclear ?_
    · intro value hholds
      obtain ⟨file, hnode, -⟩ := hholds
      cases hmissing.symm.trans hnode
    · simp [hmissing]

/-- A store whose segments have names of 255 bytes as long as their ids have one digit. -/
def stretched : Config :=
  { Config.default.withDirectory Path.fresh with segmentStem := ⟨List.replicate 254 's'⟩ }

/-- No segment has the id 10, and none can: its name would be too long. So a reader of a key whose address
lies there is told that the name is too long, and not that nothing was found. -/
theorem get_of_long_name :
    ((do
      let (log, _) ← openAt stretched
      let index ← log.index.put [107] (10 * log.capacity)
      let log ← { log with index }.sync
      let disk ← current
      return (log.find? [107], disk.node? (log.segmentFile 10).place, log.get disk [107]) :
        DiskM (Option UInt64 × Option Node × Except Fault (Option Bytes))).run.run
          (ofDisk Disk.fresh)).1.toOption =
            some (some 671088640, none, .error (.io .nameTooLong)) := by
  decide +kernel

end ValueLog

end BarrierStore
