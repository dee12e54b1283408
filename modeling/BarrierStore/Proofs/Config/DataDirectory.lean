import BarrierStore.Proofs.Config.Files
import BarrierStore.Proofs.Path.Directories

/-!
# A data directory

In a data directory every file of a store has a name of its own, and a name that is short enough as soon
as the path of the directory leaves some room.

The module introduces:

* `ValueFile.name` — the name of a file of the value log in a data directory;
* `Disk.EmptyDirectory` — a directory with nothing in it, whose path leaves room for names;
* `Disk.fresh`, `Path.fresh`, `Config.narrow` — such a directory, and a store in it with short segments.

Main statements: `Config.separate_withDirectory`, `Config.apart_withDirectory`,
`Config.hasParent_withDirectory` and `Config.hasRoom_of_empty`.
-/

namespace BarrierStore

/-! ## Names -/

/-- The name of a file of the value log in a data directory. -/
def ValueFile.name : ValueFile → Path.Piece
  | .index => "index.log".toList
  | .range => "segments.meta".toList
  | .capacity => "segments.capacity".toList
  | .segment id => "segment_".toList ++ Decimal.digits id.toNat

/-- The name of a file of a store in its directory: letters, digits and the like. -/
structure Path.Plain (name : Piece) : Prop where
  proper : Proper name
  slash : '/' ∉ name
  nul : '\x00' ∉ name
  short : (Utf8.encode name).length ≤ 28

instance (name : Path.Piece) : Decidable (Path.Plain name) :=
  decidable_of_iff (Path.Proper name ∧ '/' ∉ name ∧ '\x00' ∉ name ∧ (Utf8.encode name).length ≤ 28)
    ⟨fun ⟨hproper, hslash, hnul, hshort⟩ => ⟨hproper, hslash, hnul, hshort⟩,
      fun ⟨hproper, hslash, hnul, hshort⟩ => ⟨hproper, hslash, hnul, hshort⟩⟩

/-- The names of the files are plain. -/
theorem ValueFile.plain_name (file : ValueFile) : Path.Plain file.name := by
  cases file with
  | segment id =>
    have hmem : ∀ {c}, c.isDigit = false → c ∉ "segment_".toList →
        c ∉ "segment_".toList ++ Decimal.digits id.toNat := fun hc hstem hmem =>
      (List.mem_append.mp hmem).elim hstem (Decimal.not_mem_digits hc _)
    have hlength : (Utf8.encode "segment_".toList).length = 8 := by decide
    refine ⟨Path.proper_append _ (Decimal.digits_ne_nil _) (Decimal.not_mem_digits rfl _),
      hmem rfl (by decide), hmem rfl (by decide), ?_⟩
    have hdigits := Decimal.length_digits_le id
    show (Utf8.encode ("segment_".toList ++ Decimal.digits id.toNat)).length ≤ 28
    rw [Disk.length_encode_extend, hlength]
    omega
  | _ => decide

/-- The eighth character tells the name of a segment from the other names. -/
theorem ValueFile.name_injective : Function.Injective ValueFile.name := by
  have hstem : ∀ id, (segment id).name.take 8 = "segment_".toList := fun id =>
    List.take_left' (by decide)
  intro file other hsame
  -- two segments differ in their digits, and of the other names there are only three
  cases file with
  | segment id =>
    cases other with
    | segment id' => rw [Decimal.digits_injective (List.append_cancel_left hsame)]
    | _ =>
      have hfirst := congrArg (List.take 8) hsame
      rw [hstem] at hfirst
      exact absurd hfirst (by decide)
  | _ =>
    cases other with
    | segment id =>
      have hfirst := congrArg (List.take 8) hsame
      rw [hstem] at hfirst
      exact absurd hfirst (by decide)
    | _ => first
      | rfl
      | exact absurd hsame (by decide)

/-- A name that is none of these, and does not start like that of a segment, is not the name of a file of
the value log. -/
theorem ValueFile.name_ne {name : Path.Piece} (hstem : name.take 8 ≠ "segment_".toList)
    (hother : name ∉ ["index.log".toList, "segments.meta".toList, "segments.capacity".toList])
    (file : ValueFile) : name ≠ file.name := by
  rintro rfl
  cases file with
  | segment id => exact hstem (List.take_left' (by decide))
  | index => exact hother List.mem_cons_self
  | range => exact hother (List.mem_cons_of_mem _ List.mem_cons_self)
  | capacity => exact hother (List.mem_cons_of_mem _ (List.mem_cons_of_mem _ List.mem_cons_self))

/-! ## Paths -/

/-- A plain name that is joined to a path is one step down from it. -/
theorem Path.place_join (directory : Path) {name : Path.Piece} (h : Path.Plain name) :
    (directory.join ⟨name⟩).place = name :: directory.place := by
  obtain ⟨front, hnamed, hpieces⟩ := Path.exists_pieces_join directory
  have hends : (directory.join ⟨name⟩).EndsIn front name := ⟨hpieces name h.slash, h.proper⟩
  rw [hends.place_eq, Path.placeOf, hnamed, Path.place]

namespace Config

variable (base : Config) (directory : Path)

/-- The files have these names in the directory. -/
theorem filePath_withDirectory (file : ValueFile) :
    (base.withDirectory directory).filePath file = directory.join ⟨file.name⟩ := by
  cases file with
  | index => rfl
  | range => rfl
  | capacity =>
    exact @Path.replaceExtension_join directory "segments".toList "meta".toList "capacity".toList
      (by decide) (by decide) (by decide) (by decide)
  | segment id =>
    obtain ⟨front, -, hchars⟩ := Path.exists_chars_join directory
    have hstem : directory.join segmentStemName = ⟨front ++ "segment_".toList⟩ :=
      hchars _ (by decide)
    have hname := hchars _ (ValueFile.segment id).plain_name.slash
    rw [hname]
    show Path.segmentFile (directory.join segmentStemName) id = _
    rw [hstem, Path.segmentFile, Path.extend, List.append_assoc]
    rfl

/-- The file beside the index log is in the directory. -/
theorem besideIndex_withDirectory :
    (base.withDirectory directory).besideIndex = directory.join ⟨"index.log.tmp".toList⟩ := by
  show (directory.join ⟨"index.log".toList⟩).replaceExtension IndexLog.temporaryExtension = _
  exact @Path.replaceExtension_join directory "index".toList "log".toList "log.tmp".toList
    (by decide) (by decide) (by decide) (by decide)

/-- So is the one beside the range file. -/
theorem besideRange_withDirectory :
    (base.withDirectory directory).besideRange = directory.join ⟨"segments.tmp".toList⟩ :=
  @Path.replaceExtension_join directory "segments".toList "meta".toList "tmp".toList
    (by decide) (by decide) (by decide) (by decide)

/-- The file beside the capacity file is the same one. -/
theorem besideCapacity_withDirectory :
    (base.withDirectory directory).besideCapacity = directory.join ⟨"segments.tmp".toList⟩ := by
  have hcapacity := filePath_withDirectory base directory .capacity
  rw [besideCapacity, show Capacity.file (base.withDirectory directory).rangeFile = _ from hcapacity]
  exact @Path.replaceExtension_join directory "segments".toList "capacity".toList "tmp".toList
    (by decide) (by decide) (by decide) (by decide)

/-- The file beside the number log is in the directory. -/
theorem besideNumbers_withDirectory :
    (base.withDirectory directory).besideNumbers = directory.join ⟨"numbers.log.tmp".toList⟩ := by
  show (directory.join ⟨"numbers.log".toList⟩).replaceExtension IndexLog.temporaryExtension = _
  exact @Path.replaceExtension_join directory "numbers".toList "log".toList "log.tmp".toList
    (by decide) (by decide) (by decide) (by decide)

theorem plain_besideIndex : Path.Plain "index.log.tmp".toList := by decide

theorem plain_besideSegments : Path.Plain "segments.tmp".toList := by decide

theorem plain_numberLog : Path.Plain "numbers.log".toList := by decide

theorem plain_besideNumbers : Path.Plain "numbers.log.tmp".toList := by decide

/-- The places of the files are one step down from that of the directory. -/
theorem place_withDirectory (file : ValueFile) :
    (base.withDirectory directory).place file = file.name :: directory.place := by
  rw [place, filePath_withDirectory, directory.place_join file.plain_name]

/-- A name that no file of the value log has is the place of none. -/
theorem join_place_ne {name : Path.Piece} (hname : Path.Plain name)
    (hne : name.take 8 ≠ "segment_".toList ∧
      name ∉ ["index.log".toList, "segments.meta".toList, "segments.capacity".toList])
    (file : ValueFile) :
    (directory.join ⟨name⟩).place ≠ (base.withDirectory directory).place file := by
  rw [place_withDirectory, directory.place_join hname]
  exact fun hsame => ValueFile.name_ne hne.1 hne.2 file (List.cons.inj hsame).1

/-- The files of a value log in a data directory have names of their own. -/
theorem separate_withDirectory : (base.withDirectory directory).Separate where
  injective file other hsame := by
    rw [place_withDirectory, place_withDirectory] at hsame
    exact ValueFile.name_injective (List.cons.inj hsame).1
  besideIndex file := by
    rw [besideIndex_withDirectory]
    exact join_place_ne base directory plain_besideIndex (by decide) file
  besideRange file := by
    rw [besideRange_withDirectory]
    exact join_place_ne base directory plain_besideSegments (by decide) file
  besideCapacity file := by
    rw [besideCapacity_withDirectory]
    exact join_place_ne base directory plain_besideSegments (by decide) file

/-- So do the number log and the file beside it. -/
theorem apart_withDirectory : (base.withDirectory directory).Apart := by
  have hlog : (base.withDirectory directory).numberLog.place =
      "numbers.log".toList :: directory.place := directory.place_join plain_numberLog
  have hbeside : (base.withDirectory directory).besideNumbers.place =
      "numbers.log.tmp".toList :: directory.place := by
    rw [besideNumbers_withDirectory, directory.place_join plain_besideNumbers]
  have hne : ∀ {name other : Path.Piece}, name ≠ other →
      name :: directory.place ≠ other :: directory.place := fun hne hsame =>
    hne (List.cons.inj hsame).1
  refine ⟨?_, ?_, fun file => ?_⟩
  · rw [hlog, hbeside]
    exact hne (by decide)
  · -- the number log against the value log's files, and those beside them
    rw [hlog]
    rintro (⟨file, hfile⟩ | hplace | hplace | hplace)
    · rw [place_withDirectory] at hfile
      exact ValueFile.name_ne (by decide) (by decide) file (List.cons.inj hfile).1.symm
    · rw [besideIndex_withDirectory, directory.place_join plain_besideIndex] at hplace
      exact hne (by decide) hplace
    · rw [besideRange_withDirectory, directory.place_join plain_besideSegments] at hplace
      exact hne (by decide) hplace
    · rw [Set.mem_singleton_iff, besideCapacity_withDirectory,
        directory.place_join plain_besideSegments] at hplace
      exact hne (by decide) hplace
  · rw [numberPlaces, hlog, hbeside, place_withDirectory]
    rintro (hplace | hplace)
    · exact ValueFile.name_ne (by decide) (by decide) file (List.cons.inj hplace).1.symm
    · exact ValueFile.name_ne (by decide) (by decide) file (List.cons.inj hplace).1.symm

variable {base} in
/-- A store in a data directory runs with any capacity and any interval that are not zero. -/
theorem validate_withDirectory (hcapacity : base.capacity ≠ 0) (hinterval : base.syncInterval ≠ 0) :
    (base.withDirectory directory).validate = .ok () := by
  obtain ⟨front, -, hpieces⟩ := Path.exists_pieces_join directory
  have hlast : ∀ {name : Path.Piece}, Path.Plain name →
      (directory.join ⟨name⟩).components.getLast? = some (.entry name) := fun hname =>
    Path.EndsIn.getLast?_components ⟨hpieces _ hname.slash, hname.proper⟩
  -- the two logs differ in the last steps of their paths
  have hlogs : ¬ Path.Same (base.withDirectory directory).numberLog
      (base.withDirectory directory).indexLog := by
    intro hsame
    have hnames : (directory.join ⟨"numbers.log".toList⟩).components.getLast? =
        (directory.join ⟨ValueFile.index.name⟩).components.getLast? := congrArg List.getLast? hsame
    rw [hlast plain_numberLog, hlast ValueFile.index.plain_name] at hnames
    exact absurd hnames (by decide)
  have hstem : (base.withDirectory directory).segmentStem ≠ .empty := by
    have hname : Path.Plain "segment_".toList := by decide
    intro hempty
    have hnone := hlast hname
    rw [show directory.join ⟨"segment_".toList⟩ = .empty from hempty] at hnone
    exact absurd hnone (by decide)
  have hcapacity : (base.withDirectory directory).capacity ≠ 0 := hcapacity
  have hinterval : (base.withDirectory directory).syncInterval ≠ 0 := hinterval
  rw [validate, if_neg hcapacity, if_neg hinterval, if_neg hlogs, if_neg hstem]

/-! ## The directory -/

variable {base directory}

/-- Where one file of a directory has its name, the directory of each of them is there. -/
theorem hasParent_join {disk : Disk} {name other : Path.Piece} (hname : Path.Plain name)
    (hother : Path.Plain other) (h : disk.Reaches (directory.join ⟨name⟩)) :
    disk.HasParent (directory.join ⟨other⟩) := by
  obtain ⟨front, -, hpieces⟩ := Path.exists_pieces_join directory
  exact Disk.hasParent_of_endsIn ⟨hpieces other hother.slash, hother.proper⟩
    ⟨hpieces name hname.slash, hname.proper⟩ h

/-- Where one file of the value log has its name, the directory of the segments is there. -/
theorem hasParent_withDirectory {disk : Disk} {file : ValueFile}
    (h : disk.Reaches ((base.withDirectory directory).filePath file)) :
    disk.HasParent (base.withDirectory directory).segmentStem := by
  rw [filePath_withDirectory] at h
  have hstem : Path.Plain "segment_".toList := by decide
  exact hasParent_join file.plain_name hstem h

end Config

/-- A directory with nothing in it, whose path leaves room for the names of a store's files. -/
structure Disk.EmptyDirectory (disk : Disk) (directory : Path) : Prop where
  isDirectory : disk.isDirectory directory = true
  node?_eq (name : Path.Piece) : disk.node? (name :: directory.place) = none
  short : (Utf8.encode directory.chars).length + 29 ≤ longestPath

namespace Config

variable {base : Config} {directory : Path} {disk : Disk}

/-- In an empty directory there may be a file of any plain name. -/
theorem admits_of_empty (h : disk.EmptyDirectory directory) {name : Path.Piece}
    (hname : Path.Plain name) : disk.Admits (directory.join ⟨name⟩) := by
  have hlength : (Utf8.encode directory.chars).length + 1 + (Utf8.encode name).length ≤ longestPath := by
    have hroom := h.short
    have hshort := hname.short
    omega
  refine ⟨Disk.reaches_join h.isDirectory hname.proper hname.slash hname.nul
    (Nat.le_trans hname.short (by decide)) hlength, ?_⟩
  rw [directory.place_join hname, h.node?_eq]
  exact nofun

/-- There is no file of that name in it. -/
theorem bytesAt_of_empty (h : disk.EmptyDirectory directory) {name : Path.Piece}
    (hname : Path.Plain name) : disk.bytesAt (directory.join ⟨name⟩).place = none := by
  have hnone : disk.node? (directory.join ⟨name⟩).place = none := by
    rw [directory.place_join hname, h.node?_eq]
  rw [Disk.bytesAt, Disk.leaf_of_vacant hnone]
  rfl

/-- An empty directory has no file of a value log. -/
theorem fileBytes_of_empty (h : disk.EmptyDirectory directory) (file : ValueFile) :
    (base.withDirectory directory).fileBytes disk file = none := by
  rw [fileBytes, place, filePath_withDirectory]
  exact bytesAt_of_empty h file.plain_name

/-- An empty directory has room for all of them. -/
theorem hasRoom_of_empty (h : disk.EmptyDirectory directory) (first : UInt64) :
    (base.withDirectory directory).HasRoom disk first := by
  -- the name of each file is free, and the directory is there
  have hfile : ∀ file, disk.Admits ((base.withDirectory directory).filePath file) := by
    intro file
    rw [filePath_withDirectory]
    exact admits_of_empty h file.plain_name
  refine ⟨hasParent_withDirectory (hfile .index).toReaches, hfile .index, ?_, hfile .range, ?_,
    hfile .capacity, fun id _ => hfile (.segment id)⟩
  · rw [besideIndex_withDirectory]
    exact admits_of_empty h plain_besideIndex
  · rw [besideRange_withDirectory]
    exact admits_of_empty h plain_besideSegments

end Config

/-- A disk with one directory in it, which is empty. -/
def Disk.fresh : Disk := empty.applyAll [.makeDirectory ["data".toList]]

/-- That directory. -/
def Path.fresh : Path := .ofString "data"

/-- Segments of forty bytes in that directory, so that records of one byte roll over after two, and one of
forty has a segment to itself. -/
def Config.narrow : Config := { Config.default with capacity := 40 }.withDirectory Path.fresh

theorem Disk.wellFormed_fresh : fresh.WellFormed := wellFormed_applyAll_empty _

/-- The directory is empty. -/
theorem Disk.emptyDirectory_fresh : fresh.EmptyDirectory Path.fresh where
  isDirectory := by decide
  node?_eq name := by
    have hplace : Path.fresh.place = ["data".toList] := by decide
    rw [hplace]
    simp [node?, fresh, applyAll, apply, empty]
  short := by decide

end BarrierStore
