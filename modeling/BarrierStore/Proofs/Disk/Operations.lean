import BarrierStore.Proofs.Disk.Crash
import BarrierStore.Proofs.Disk.Places

/-!
# What the operations on files do

Each operation on files succeeds exactly where its paths admit a file, and is then one update of the
map from names to files. Where it fails it has changed nothing, `Drive.replaceFile` apart, which may
leave the file beside the one that was to be replaced.

Main statements: `achieves_create`, `achieves_openAppend`, `meets_append`, `achieves_contentsOf?`,
`achieves_rename`, `achieves_remove`, `achieves_replaceFile_of_changes`; and for directories
`onlyGrows_makeParent`, `achieves_makeParent_anywhere`, and `achieves_makeParent` where the parent is there
already.
-/

namespace BarrierStore

namespace Drive

variable {start : Disk} {during : Disk → Prop}

/-! ## Opening -/

/-- Opening a file for writing finds the file at the name or makes an empty one. -/
theorem achieves_openForWriting (h : start.WellFormed) (path : Path) (truncate : Bool)
    (hbefore : during start)
    (hduring : truncate = true ∨ start.leaf path.place = none → ∀ id disk,
      start.Becomes (Function.update start.leaf path.place (some (id, []))) disk → during disk) :
    Achieves (openForWriting path truncate) start during
      (fun id disk => start.Admits path ∧ ∃ bytes,
        (start.leaf path.place = some (id, bytes) ∨ start.leaf path.place = none ∧ bytes = []) ∧
        start.Becomes
          (Function.update start.leaf path.place (some (id, if truncate then [] else bytes))) disk)
      (fun fault disk => disk = start ∧ ¬ start.Admits path ∧ ∃ cause, fault = .io cause) := by
  refine achieves_look_bind hbefore (fun cause hcause => ?_) fun target htarget => ?_
  · exact ⟨rfl, Disk.not_admits_of_locate (by simp [hcause]), cause, rfl⟩
  cases target with
  | directory =>
    exact achieves_throw hbefore ⟨rfl, Disk.not_admits_of_locate (by simp [htarget]), _, rfl⟩
  | name place slashes =>
    obtain rfl := Disk.eq_place_of_locate htarget
    cases slashes with
    | true =>
      exact achieves_throw hbefore ⟨rfl, Disk.not_admits_of_locate (by simp [htarget]), _, rfl⟩
    | false =>
      refine achieves_look_bind hbefore (fun cause hcause => ?_) fun node hentry => ?_
      · exact ⟨rfl, Disk.not_admits_of_entry hcause, cause, rfl⟩
      -- the name is reached, so what counts is what has it
      obtain ⟨hreaches, hnode⟩ := Disk.reaches_of_locate htarget hentry
      rcases node with _ | _ | id
      · -- nothing is there: a new file
        have hadmits : start.Admits path := ⟨hreaches, by simp [hnode]⟩
        have hleaf := Disk.leaf_of_vacant hnode
        have hbecomes := Disk.becomes_create h hnode
        refine achieves_current_bind hbefore ?_
        refine Achieves.bind (m := fun _ => start.Becomes
          (Function.update start.leaf path.place (some (start.nextFile, [])))) ?_ ?_
        · exact achieves_lift
            (meets_perform (by simp) hbefore (hduring (.inr hleaf) _ _ hbecomes) hbecomes)
        intro _ disk hdisk hbecomes
        refine achieves_pure hdisk ⟨hadmits, [], .inr ⟨hleaf, rfl⟩, ?_⟩
        simpa using hbecomes
      · exact achieves_throw hbefore ⟨rfl, fun hadmits => hadmits.node_ne hnode, _, rfl⟩
      · -- the file that is there, emptied if so asked
        have hadmits : start.Admits path := ⟨hreaches, by simp [hnode]⟩
        have hleaf := Disk.leaf_of_file hnode
        cases truncate with
        | true =>
          have hbecomes := Disk.becomes_resize h hleaf 0
          rw [Bytes.resize, List.take_zero, Nat.zero_sub, List.replicate_zero,
            List.append_nil] at hbecomes
          refine Achieves.bind (m := fun _ => start.Becomes
            (Function.update start.leaf path.place (some (id, [])))) ?_ ?_
          · exact achieves_lift
              (meets_perform (by simp) hbefore (hduring (.inl rfl) _ _ hbecomes) hbecomes)
          intro _ disk hdisk hbecomes
          exact achieves_pure hdisk ⟨hadmits, _, .inl hleaf, hbecomes⟩
        | false =>
          refine achieves_pure hbefore ⟨hadmits, _, .inl hleaf, ?_⟩
          refine (Disk.Becomes.refl h).congr ?_
          rw [if_neg (by simp), ← hleaf, Function.update_eq_self]

/-- Creating a file leaves an empty one at the name. -/
theorem achieves_create (h : start.WellFormed) (path : Path) (hbefore : during start)
    (hduring : ∀ id disk,
      start.Becomes (Function.update start.leaf path.place (some (id, []))) disk → during disk) :
    Achieves (create path) start during
      (fun id disk => start.Admits path ∧
        start.Becomes (Function.update start.leaf path.place (some (id, []))) disk)
      (fun fault disk => disk = start ∧ ¬ start.Admits path ∧ ∃ cause, fault = .io cause) := by
  refine (achieves_openForWriting h path true hbefore fun _ => hduring).imp_done ?_
  rintro id disk - ⟨hadmits, bytes, -, hbecomes⟩
  exact ⟨hadmits, hbecomes⟩

/-- Opening a file that is there for appending changes nothing. -/
theorem achieves_openAppend (h : start.WellFormed) {path : Path} {file : FileId} {bytes : Bytes}
    (hleaf : start.leaf path.place = some (file, bytes)) (hbefore : during start) :
    Achieves (openAppend path) start during
      (fun id disk => id = file ∧ start.Admits path ∧ start.Becomes start.leaf disk)
      (fun fault disk => disk = start ∧ ¬ start.Admits path ∧ ∃ cause, fault = .io cause) := by
  have hduring : false = true ∨ start.leaf path.place = none → ∀ id disk,
      start.Becomes (Function.update start.leaf path.place (some (id, []))) disk → during disk := by
    simp [hleaf]
  refine (achieves_openForWriting h path false hbefore hduring).imp_done ?_
  rintro id disk - ⟨hadmits, found, hfound | ⟨hnone, -⟩, hbecomes⟩
  · rw [hleaf] at hfound
    cases hfound
    rw [if_neg (by simp), ← hleaf, Function.update_eq_self] at hbecomes
    exact ⟨rfl, hadmits, hbecomes⟩
  · simp [hleaf] at hnone

/-! ## Writing -/

/-- A write at the end of an open file, whose length is known, appends. -/
theorem meets_write_end (h : start.WellFormed) {place : Location} {id : FileId} {bytes : Bytes}
    (hleaf : start.leaf place = some (id, bytes)) {offset : Nat} (hoffset : offset = bytes.length)
    (data : Bytes)
    (hduring : ∀ count disk, start.Becomes
      (Function.update start.leaf place (some (id, bytes ++ data.take count))) disk → during disk) :
    Meets (write id offset data) start during fun _ disk =>
      start.Becomes (Function.update start.leaf place (some (id, bytes ++ data))) disk := by
  have hwrite : ∀ more : Bytes, start.Becomes
      (Function.update start.leaf place (some (id, bytes ++ more)))
      (start.apply (.write id offset more)) := by
    intro more
    rw [hoffset, ← Bytes.overwrite_length]
    exact Disk.becomes_write h hleaf _ _
  refine meets_write ?_ (fun count => hduring count _ (hwrite _)) (hwrite data)
  refine hduring 0 start ((Disk.Becomes.refl h).congr ?_)
  rw [List.take_zero, List.append_nil, ← hleaf, Function.update_eq_self]

/-- Bytes are added at the end of a file; a crash leaves the front of them. -/
theorem meets_append (h : start.WellFormed) {place : Location} {id : FileId} {bytes : Bytes}
    (hleaf : start.leaf place = some (id, bytes)) (data : Bytes)
    (hduring : ∀ count disk, start.Becomes
      (Function.update start.leaf place (some (id, bytes ++ data.take count))) disk → during disk) :
    Meets (append id data) start during fun _ disk =>
      start.Becomes (Function.update start.leaf place (some (id, bytes ++ data))) disk := by
  have hbefore : during start := by
    refine hduring 0 start ((Disk.Becomes.refl h).congr ?_)
    rw [List.take_zero, List.append_nil, ← hleaf, Function.update_eq_self]
  refine meets_current_bind hbefore ?_
  refine meets_write_end h hleaf ?_ data hduring
  rw [← Contents.length_toBytes, (Disk.leaf_eq_some_iff.mp hleaf).2]

/-- Waiting for the medium changes nothing that a reader sees. -/
theorem meets_sync (h : start.WellFormed) (id : FileId)
    (hduring : ∀ disk, start.Becomes start.leaf disk → during disk) :
    Meets (sync id) start during fun _ disk => start.Becomes start.leaf disk :=
  meets_perform (by simp) (hduring _ (.refl h)) (hduring _ (Disk.becomes_sync h id))
    (Disk.becomes_sync h id)

/-! ## Reading -/

/-- Reading a file that may be missing changes nothing and finds the bytes at the name. -/
theorem achieves_contentsOf? (path : Path) (hbefore : during start) :
    Achieves (contentsOf? path) start during
      (fun contents disk => start = disk ∧ ((contents = none → start.Reaches path) →
        start.Admits path ∧ contents.map Contents.toBytes = start.bytesAt path.place))
      (fun fault disk => start = disk ∧ ¬ start.Admits path ∧ ∃ cause, fault = .io cause) := by
  refine achieves_current_bind hbefore ?_
  split
  · rename_i contents hread
    refine achieves_pure hbefore ⟨rfl, fun _ => ?_⟩
    -- a file was read, so the path leads to one
    have hreaches : start.Reaches path := by
      rcases hnode : start.nodeAt path with _ | _ | id
      · simp [Disk.read, Disk.fileAt, hnode, bind, Except.bind] at hread
      · rw [Disk.read, Disk.fileAt, hnode] at hread
        cases hread
      · exact Disk.reaches_of_file hnode
    simp only [Disk.read, Disk.fileAt, hreaches.nodeAt_eq] at hread
    rcases hnode : start.node? path.place with _ | _ | id <;> rw [hnode] at hread
    · cases hread
    · cases hread
    · cases hread
      rw [Disk.bytesAt, Disk.leaf_of_file hnode]
      exact ⟨⟨hreaches, by simp [hnode]⟩, rfl⟩
  · rename_i hread
    refine achieves_pure hbefore ⟨rfl, fun hreaches => ?_⟩
    have hreaches := hreaches rfl
    simp only [Disk.read, Disk.fileAt, hreaches.nodeAt_eq] at hread
    rcases hnode : start.node? path.place with _ | _ | id <;> rw [hnode] at hread
    · rw [Disk.bytesAt, Disk.leaf_of_vacant hnode]
      exact ⟨⟨hreaches, by simp [hnode]⟩, rfl⟩
    · cases hread
    · cases hread
  · rename_i cause hother hread
    refine achieves_throw hbefore ⟨rfl, fun hadmits => ?_, cause, rfl⟩
    rcases hadmits.read_eq with ⟨-, hnone⟩ | ⟨id, contents, -, hsome⟩
    · rw [hnone] at hread
      cases hread
      exact hother rfl
    · rw [hsome] at hread
      cases hread

/-! ## Moving and removing -/

/-- A file that moves takes the place of what was at its new name, be it its own. -/
theorem achieves_rename (h : start.WellFormed) {source target : Path} {id : FileId} {bytes : Bytes}
    (hsource : start.Admits source) (hleaf : start.leaf source.place = some (id, bytes))
    (hbefore : during start)
    (hduring : start.Admits target → ∀ disk, start.Becomes
      (Function.update (Function.update start.leaf source.place none)
        target.place (some (id, bytes))) disk → during disk) :
    Achieves (rename source target) start during
      (fun _ disk => start.Admits target ∧
        start.Becomes (Function.update (Function.update start.leaf source.place none)
          target.place (some (id, bytes))) disk)
      (fun fault disk => disk = start ∧ ¬ start.Admits target ∧ ∃ cause, fault = .io cause) := by
  obtain ⟨hfile, hbytes⟩ := Disk.leaf_eq_some_iff.mp hleaf
  refine achieves_look_bind hbefore (fun cause hcause => ?_) fun found hfound => ?_
  · exact absurd hsource.toReaches (Disk.not_reaches_of_locate (by simp [hcause]))
  rw [hsource.locate_eq] at hfound
  cases hfound
  refine achieves_look_bind hbefore (fun cause hcause => ?_) fun found hfound => ?_
  · exact ⟨rfl, Disk.not_admits_of_locate (by simp [hcause]), cause, rfl⟩
  cases found with
  | directory =>
    exact achieves_throw hbefore ⟨rfl, Disk.not_admits_of_locate (by simp [hfound]), _, rfl⟩
  | name place slashes =>
    obtain rfl := Disk.eq_place_of_locate hfound
    refine achieves_look_bind hbefore (fun cause hcause => ?_) fun node hnode => ?_
    · exact absurd hsource.toReaches (Disk.not_reaches_of_entry hcause)
    rw [hsource.entry_eq, hfile] at hnode
    cases hnode
    refine achieves_look_bind hbefore (fun cause hcause => ?_) fun taken htaken => ?_
    · exact ⟨rfl, Disk.not_admits_of_entry hcause, cause, rfl⟩
    cases slashes with
    | true =>
      exact achieves_throw hbefore ⟨rfl, Disk.not_admits_of_locate (by simp [hfound]), _, rfl⟩
    | false =>
      obtain ⟨hreaches, hnode⟩ := Disk.reaches_of_locate hfound htaken
      rw [if_neg (by simp)]
      by_cases hsame : source.place = target.place
      · -- nothing is done, and the file has its name
        rw [if_pos hsame]
        have hadmits : start.Admits target := ⟨hreaches, by simp [← hsame, hfile]⟩
        refine achieves_pure hbefore ⟨hadmits, (Disk.Becomes.refl h).congr ?_⟩
        rw [← hsame, Function.update_idem, ← hleaf, Function.update_eq_self]
      rw [if_neg hsame]
      split
      · rename_i hdirectory
        exact achieves_throw hbefore
          ⟨rfl, fun hadmits => hadmits.node_ne (hnode.trans hdirectory), _, rfl⟩
      · rename_i hother
        -- what stood at the new name, if anything, was a file
        have hsafe : start.node? target.place ≠ some .directory := by rwa [hnode]
        have hbecomes := Disk.becomes_rename h hfile hsafe
        rw [hbytes] at hbecomes
        exact achieves_lift (meets_perform (by simp) hbefore (hduring ⟨hreaches, hsafe⟩ _ hbecomes)
          ⟨⟨hreaches, hsafe⟩, hbecomes⟩)

/-- Removing a file leaves its name free; a name that is free is not found. -/
theorem achieves_remove (h : start.WellFormed) (path : Path) (hbefore : during start)
    (hduring : ∀ disk,
      start.Becomes (Function.update start.leaf path.place none) disk → during disk) :
    Achieves (remove path) start during
      (fun _ disk => start.Becomes (Function.update start.leaf path.place none) disk)
      (fun fault disk => start = disk ∧ ∃ cause, fault = .io cause ∧
        (start.Reaches path → cause = .notFound → start.leaf path.place = none) ∧
        (start.Admits path → cause = .notFound)) := by
  refine achieves_look_bind hbefore (fun cause hcause => ?_) fun found hfound => ?_
  · have hreaches : ¬ start.Reaches path := Disk.not_reaches_of_locate (by simp [hcause])
    exact ⟨rfl, cause, rfl, fun h => absurd h hreaches, fun h => absurd h.toReaches hreaches⟩
  cases found with
  | directory =>
    refine achieves_throw hbefore ⟨rfl, _, rfl, by simp, fun hadmits => ?_⟩
    exact absurd hadmits (Disk.not_admits_of_locate (by simp [hfound]))
  | name place slashes =>
    obtain rfl := Disk.eq_place_of_locate hfound
    refine achieves_look_bind hbefore (fun cause hcause => ?_) fun node hnode => ?_
    · have hreaches := Disk.not_reaches_of_entry hcause
      exact ⟨rfl, cause, rfl, fun h => absurd h hreaches, fun h => absurd h.toReaches hreaches⟩
    -- a free name is not found, and a file goes unless its name promises a directory
    rcases node with _ | _ | id
    · refine achieves_throw hbefore ⟨rfl, _, rfl, fun hreaches _ => ?_, fun _ => rfl⟩
      rw [hreaches.entry_eq] at hnode
      exact Disk.leaf_of_vacant (Except.ok.inj hnode)
    · refine achieves_throw hbefore ⟨rfl, _, rfl, by simp, fun hadmits => ?_⟩
      rw [hadmits.entry_eq] at hnode
      exact absurd (Except.ok.inj hnode) hadmits.node_ne
    · cases slashes with
      | true =>
        refine achieves_throw hbefore ⟨rfl, _, rfl, by simp, fun hadmits => ?_⟩
        exact absurd hadmits (Disk.not_admits_of_locate (by simp [hfound]))
      | false =>
        obtain ⟨-, hfile⟩ := Disk.reaches_of_locate hfound hnode
        have hbecomes := Disk.becomes_remove h hfile
        exact achieves_lift (meets_perform (by simp) hbefore (hduring _ hbecomes) hbecomes)

/-! ## Replacing -/

/-- New contents come to a file by way of the one beside it; until then only that one changes. -/
theorem achieves_replaceFile (h : start.WellFormed) {path : Path} {extension : List Char}
    (contents : Bytes) (hbefore : during start)
    (hbeside : ∀ file disk, start.Becomes
      (Function.update start.leaf (path.replaceExtension extension).place file) disk → during disk)
    (hduring : start.Admits path → ∀ id disk, start.Becomes
      (Function.update (Function.update start.leaf (path.replaceExtension extension).place none)
        path.place (some (id, contents))) disk → during disk) :
    Achieves (replaceFile path extension contents) start during
      (fun _ disk => start.Admits (path.replaceExtension extension) ∧ start.Admits path ∧
        ∃ id, start.Becomes
          (Function.update (Function.update start.leaf (path.replaceExtension extension).place none)
            path.place (some (id, contents))) disk)
      (fun fault disk =>
        (∃ file, start.Becomes
          (Function.update start.leaf (path.replaceExtension extension).place file) disk) ∧
        ¬ (start.Admits (path.replaceExtension extension) ∧ start.Admits path) ∧
        (∃ cause, fault = .io cause) ∧ (disk = start ∨ ¬ start.Admits path)) := by
  unfold replaceFile
  generalize path.replaceExtension extension = beside at hbeside hduring ⊢
  have hunchanged : start.Becomes (Function.update start.leaf beside.place
      (start.leaf beside.place)) start := by
    rw [Function.update_eq_self]
    exact .refl h
  refine Achieves.bind (m := fun id disk => start.Admits beside ∧
      start.Becomes (Function.update start.leaf beside.place (some (id, []))) disk) ?_ ?_
  · refine (achieves_create h beside hbefore fun id disk => hbeside _ _).imp_failed ?_
    rintro fault disk - ⟨rfl, hadmits, hcause⟩
    exact ⟨⟨_, hunchanged⟩, fun both => hadmits both.1, hcause, .inl rfl⟩
  rintro id disk - ⟨hadmits, hempty⟩
  -- the new contents are written where no one looks for them
  have hwritten : ∀ bytes disk', disk.Becomes
      (Function.update disk.leaf beside.place (some (id, bytes))) disk' →
      start.Becomes (Function.update start.leaf beside.place (some (id, bytes))) disk' := by
    intro bytes disk' hdisk'
    refine (hempty.trans hdisk').congr ?_
    rw [hempty.leaf_eq, Function.update_idem]
  have hleaf : disk.leaf beside.place = some (id, []) := by
    rw [hempty.leaf_eq, Function.update_self]
  refine Achieves.bind (m := fun _ disk' =>
      start.Becomes (Function.update start.leaf beside.place (some (id, contents))) disk') ?_ ?_
  · refine achieves_lift ((meets_write_end hempty.wellFormed hleaf rfl contents ?_).imp ?_)
    · exact fun count disk' hdisk' => hbeside _ _ (hwritten _ _ hdisk')
    · exact fun _ disk' _ hdisk' => hwritten _ _ hdisk'
  rintro _ disk' - hfull
  refine Achieves.bind (m := fun _ last =>
      start.Becomes (Function.update start.leaf beside.place (some (id, contents))) last) ?_ ?_
  · -- waiting changes nothing that is seen
    have hsame : ∀ last, disk'.Becomes disk'.leaf last →
        start.Becomes (Function.update start.leaf beside.place (some (id, contents))) last :=
      fun last hlast => (hfull.trans hlast).congr hfull.leaf_eq
    exact achieves_lift ((meets_sync hfull.wellFormed id fun last hlast =>
      hbeside _ _ (hsame last hlast)).imp fun _ last _ => hsame last)
  rintro _ last hlast hsynced
  -- the link moves in one effect, so the old contents are there, or the new ones
  have hreplaced : ∀ final, last.Becomes
      (Function.update (Function.update last.leaf beside.place none) path.place
        (some (id, contents))) final →
      start.Becomes (Function.update (Function.update start.leaf beside.place none) path.place
        (some (id, contents))) final := by
    intro final hfinal
    refine (hsynced.trans hfinal).congr ?_
    rw [hsynced.leaf_eq, Function.update_idem]
  have hlast' : last.leaf beside.place = some (id, contents) := by
    rw [hsynced.leaf_eq, Function.update_self]
  refine (achieves_rename hsynced.wellFormed (hsynced.admits_iff.mpr hadmits) hlast' hlast
    fun htarget final hfinal => hduring (hsynced.admits_iff.mp htarget) _ _
      (hreplaced final hfinal)).imp ?_ ?_
  · rintro _ final - ⟨htarget, hfinal⟩
    exact ⟨hadmits, hsynced.admits_iff.mp htarget, id, hreplaced final hfinal⟩
  · rintro fault final - ⟨rfl, htarget, hcause⟩
    have hrefused : ¬ start.Admits path := fun hpath => htarget (hsynced.admits_iff.mpr hpath)
    exact ⟨⟨_, hsynced⟩, fun both => hrefused both.2, hcause, .inr hrefused⟩

/-- Replacing a file, told by what changes and by the bytes at its name. -/
theorem achieves_replaceFile_of_changes (h : start.WellFormed) {path : Path}
    {extension : List Char} (hne : (path.replaceExtension extension).place ≠ path.place)
    (contents : Bytes)
    (hduring : ∀ disk, start.Changes {(path.replaceExtension extension).place, path.place} disk →
      (disk.leaf path.place = start.leaf path.place ∨
        start.Admits path ∧ disk.bytesAt path.place = some contents) → during disk) :
    Achieves (replaceFile path extension contents) start during
      (fun _ disk => start.Admits path ∧ start.Admits (path.replaceExtension extension) ∧
        start.Changes {(path.replaceExtension extension).place, path.place} disk ∧
        ∃ file, disk.leaf path.place = some (file, contents))
      (fun _ disk => start.Changes {(path.replaceExtension extension).place, path.place} disk ∧
        ¬ (start.Admits path ∧ start.Admits (path.replaceExtension extension))) := by
  have hbeside : ∀ file disk, start.Becomes
      (Function.update start.leaf (path.replaceExtension extension).place file) disk →
      start.Changes {(path.replaceExtension extension).place, path.place} disk :=
    fun file disk hdisk => hdisk.changes_update.mono (by simp)
  refine (achieves_replaceFile h contents (hduring _ (.refl h) (.inl rfl)) ?_ ?_).imp ?_ ?_
  · -- while the file beside it is written, the name has what it had
    intro file disk hdisk
    refine hduring disk (hbeside file disk hdisk) (.inl ?_)
    rw [hdisk.leaf_eq]
    exact Function.update_of_ne (Ne.symm hne) _ _
  · -- the move gives it all the new contents at once
    intro hadmits id disk hdisk
    refine hduring disk hdisk.changes_move (.inr ⟨hadmits, ?_⟩)
    rw [Disk.bytesAt, hdisk.leaf_eq, Function.update_self]
    rfl
  · rintro _ disk - ⟨hadmits, hadmits', id, hdisk⟩
    exact ⟨hadmits', hadmits, hdisk.changes_move, id, by rw [hdisk.leaf_eq, Function.update_self]⟩
  · rintro _ disk - ⟨⟨file, hdisk⟩, hadmits, -⟩
    exact ⟨hbeside file disk hdisk, fun both => hadmits ⟨both.2, both.1⟩⟩

/-! ## Directories -/

/-- The operation does nothing but make directories where nothing is. -/
def OnlyGrows {α : Type} (operation : DiskM α) : Prop :=
  ∀ start : Disk, start.WellFormed →
    Achieves operation start start.Grows (fun _ => start.Grows) (fun _ => start.Grows)

/-- Two operations that only make directories do so one behind the other. -/
theorem OnlyGrows.bind {α β : Type} {operation : DiskM α} {next : α → DiskM β}
    (h : OnlyGrows operation) (hnext : ∀ a, OnlyGrows (next a)) :
    OnlyGrows (operation >>= next) := by
  intro start hstart
  refine Achieves.bind (h start hstart) fun a disk _ hdisk => ?_
  exact (hnext a disk hdisk.wellFormed).mono (fun _ => hdisk.trans) (fun _ _ _ => hdisk.trans)
    (fun _ _ _ => hdisk.trans)

theorem onlyGrows_pure {α : Type} (a : α) : OnlyGrows (pure a : DiskM α) :=
  fun _ hstart => achieves_pure (.refl hstart) (.refl hstart)

theorem onlyGrows_throw {α : Type} (fault : Fault) : OnlyGrows (throw fault : DiskM α) :=
  fun _ hstart => achieves_throw (.refl hstart) (.refl hstart)

/-- So does one whose failure is made a result. -/
theorem OnlyGrows.attempt {α : Type} {operation : DiskM α} (h : OnlyGrows operation) :
    OnlyGrows (Drive.attempt operation) :=
  fun start hstart => Achieves.attempt (h start hstart)

/-- To make a directory only makes a directory. -/
theorem onlyGrows_makeDirectory (path : Path) : OnlyGrows (makeDirectory path) := by
  intro start hstart
  refine achieves_look_bind (.refl hstart) (fun _ _ => .refl hstart) fun found hfound => ?_
  cases found with
  | directory => exact achieves_throw (.refl hstart) (.refl hstart)
  | name place slashes =>
    refine achieves_look_bind (.refl hstart) (fun _ _ => .refl hstart) fun node hnode => ?_
    cases node with
    | some => exact achieves_throw (.refl hstart) (.refl hstart)
    | none =>
      have hvacant : start.node? place = none := by
        unfold Disk.entry at hnode
        split at hnode
        · cases hnode
        · exact Except.ok.inj hnode
      have hgrows := Disk.grows_makeDirectory hstart hvacant
      exact achieves_lift (meets_perform (by simp) (.refl hstart) hgrows hgrows)

/-- A fault that is forgiven where the directory is there. -/
theorem onlyGrows_unless (path : Path) (fault : Fault) :
    OnlyGrows (do unless (← current).isDirectory path do throw fault) := by
  intro start hstart
  refine achieves_current_bind (.refl hstart) ?_
  split
  · exact onlyGrows_pure () start hstart
  · exact onlyGrows_throw fault start hstart

/-- To make a chain of directories only makes directories. -/
theorem onlyGrows_makeChain (chain : List Path) : OnlyGrows (makeChain chain) := by
  induction chain with
  | nil => exact onlyGrows_pure ()
  | cons path above ih =>
    rw [makeChain]
    refine (onlyGrows_makeDirectory path).attempt.bind fun outcome => ?_
    split
    · exact onlyGrows_pure ()
    · refine ih.bind fun _ => ?_
      refine (onlyGrows_makeDirectory path).attempt.bind fun outcome => ?_
      split
      · exact onlyGrows_pure ()
      · exact onlyGrows_unless path _
    · exact onlyGrows_unless path _

/-- Making the directory that is to hold a file does nothing but make directories. -/
theorem onlyGrows_makeParent (path : Path) : OnlyGrows (makeParent path) := by
  unfold makeParent
  split
  · exact onlyGrows_pure ()
  · rename_i parent hparent
    unfold makeDirectories
    split
    · exact onlyGrows_pure ()
    · exact onlyGrows_makeChain _

/-- Where the directory that is to hold a file is there, it is found. -/
theorem achieves_makeParent (path : Path) (hparent : start.HasParent path)
    (hbefore : during start) {failed : Fault → Disk → Prop} :
    Achieves (makeParent path) start during (fun _ disk => start = disk) failed := by
  unfold makeParent
  split
  · exact achieves_pure hbefore rfl
  rename_i parent hpath
  unfold makeDirectories
  split
  · exact achieves_pure hbefore rfl
  rename_i hne
  have hdirectory := (hparent parent hpath).resolve_left hne
  rw [Path.ancestors, makeChain]
  refine Achieves.bind (m := fun outcome disk =>
    start = disk ∧ outcome = .error (.io .alreadyExists)) (Achieves.attempt ?_) ?_
  · -- the name is taken, by the directory itself
    unfold makeDirectory
    have hnode : start.nodeAt parent = .ok .directory := by
      unfold Disk.isDirectory at hdirectory
      split at hdirectory
      · assumption
      · cases hdirectory
    refine achieves_look_bind hbefore (fun cause hlocate => ?_) fun found hlocate => ?_
    · simp [Disk.nodeAt, hlocate, bind, Except.bind] at hnode
    cases found with
    | directory => exact achieves_throw hbefore ⟨rfl, rfl⟩
    | name place slashes =>
      refine achieves_look_bind hbefore (fun cause hentry => ?_) fun node hentry => ?_
      · simp [Disk.nodeAt, hlocate, hentry, bind, Except.bind] at hnode
      cases node with
      | none => simp [Disk.nodeAt, hlocate, hentry, bind, Except.bind] at hnode
      | some => exact achieves_throw hbefore ⟨rfl, rfl⟩
  rintro _ _ - ⟨rfl, rfl⟩
  refine achieves_current_bind hbefore ?_
  rw [hdirectory]
  exact achieves_pure hbefore rfl

/-- Wherever the operation goes well, it has made directories only, and the path leads to one. -/
def Provides {α : Type} (operation : DiskM α) (path : Path) : Prop :=
  ∀ start : Disk, start.WellFormed →
    Achieves operation start start.Grows (fun _ disk => disk.isDirectory path = true) (fun _ _ => True)

/-- What provides a directory does so behind others that were made. -/
theorem OnlyGrows.bind_provides {α β : Type} {operation : DiskM α} {next : α → DiskM β} {path : Path}
    (h : OnlyGrows operation) (hnext : ∀ a, Provides (next a) path) :
    Provides (operation >>= next) path := by
  intro start hstart
  refine Achieves.bind ((h start hstart).imp_failed fun _ _ _ _ => trivial) fun a disk _ hdisk => ?_
  exact (hnext a disk hdisk.wellFormed).mono (fun _ => hdisk.trans) (fun _ _ _ hdone => hdone)
    fun _ _ _ _ => trivial

/-- A directory that was made is there. -/
theorem provides_makeDirectory (path : Path) : Provides (makeDirectory path) path := by
  intro start hstart
  refine achieves_look_bind (.refl hstart) (fun _ _ => trivial) fun found hlocate => ?_
  cases found with
  | directory => exact achieves_throw (.refl hstart) trivial
  | name place slashes =>
    refine achieves_look_bind (.refl hstart) (fun _ _ => trivial) fun node hentry => ?_
    cases node with
    | some => exact achieves_throw (.refl hstart) trivial
    | none =>
      unfold Disk.entry at hentry
      split at hentry
      · cases hentry
      rename_i hshort
      have hvacant := Except.ok.inj hentry
      -- the name is free, so a directory is made there, and the path leads to it then
      have hgrows := Disk.grows_makeDirectory hstart hvacant
      have hmade : (start.apply (.makeDirectory place)).node? place = some .directory := by
        have hne : place ≠ [] := Disk.ne_nil_of_node? start (by simp [hvacant])
        rw [Disk.node?_of_ne_nil hne]
        simp [Disk.apply]
      refine achieves_lift (meets_perform (by simp) (.refl hstart) hgrows ?_)
      have hnode : (start.apply (.makeDirectory place)).nodeAt path = .ok .directory := by
        simp only [Disk.nodeAt, Disk.locate_mono hgrows.keepsDirectories hlocate, Disk.entry,
          if_neg hshort, hmade, bind, Except.bind]
        rfl
      rw [Disk.isDirectory, hnode]

/-- A fault is forgiven where the directory is there. -/
theorem provides_unless (path : Path) (fault : Fault) :
    Provides (do unless (← current).isDirectory path do throw fault) path := by
  intro start hstart
  refine achieves_current_bind (.refl hstart) ?_
  split
  · rename_i hdirectory
    exact achieves_pure (.refl hstart) hdirectory
  · exact achieves_throw (.refl hstart) trivial

/-- An attempt to make a directory, and what is done without it. -/
theorem provides_attempt {path : Path} {next : Except Fault Unit → DiskM Unit}
    (hmade : next (.ok ()) = pure ()) (hnext : ∀ fault, Provides (next (.error fault)) path) :
    Provides (attempt (makeDirectory path) >>= next) path := by
  intro start hstart
  refine Achieves.bind (m := fun outcome disk =>
    outcome = .ok () → disk.isDirectory path = true) (Achieves.attempt
      ((provides_makeDirectory path start hstart).imp (fun _ _ _ hdone _ => hdone)
        fun _ _ _ _ hfault => nomatch hfault)) ?_
  rintro (fault | _) disk hgrows hmiddle
  · exact (hnext fault disk hgrows.wellFormed).mono (fun _ => hgrows.trans) (fun _ _ _ hdone => hdone)
      fun _ _ _ _ => trivial
  · rw [hmade]
    exact achieves_pure hgrows (hmiddle rfl)

/-- A chain that is made provides the directory at its front. -/
theorem provides_makeChain (path : Path) (above : List Path) :
    Provides (makeChain (path :: above)) path := by
  rw [makeChain]
  refine provides_attempt rfl fun fault => ?_
  split
  · contradiction
  · refine (onlyGrows_makeChain above).bind_provides fun _ => ?_
    refine provides_attempt rfl fun fault => ?_
    exact provides_unless path fault
  · rename_i hfault
    cases hfault
    exact provides_unless path _

/-- Once the directory that is to hold a file was made, it is there. -/
theorem achieves_makeParent_anywhere (path : Path) {start : Disk} (h : start.WellFormed) :
    Achieves (makeParent path) start start.Grows (fun _ disk => disk.HasParent path)
      (fun _ _ => True) := by
  unfold makeParent
  split
  · rename_i hnone
    exact achieves_pure (.refl h) fun parent hparent => nomatch hnone.symm.trans hparent
  · rename_i parent hsome
    have hparent {disk : Disk} (hdirectory : parent.chars = [] ∨ disk.isDirectory parent = true) :
        disk.HasParent path := fun other hother =>
      Option.some.inj (hsome.symm.trans hother) ▸ hdirectory
    unfold makeDirectories
    split
    · rename_i hempty
      exact achieves_pure (.refl h) (hparent (.inl hempty))
    · rw [Path.ancestors]
      exact (provides_makeChain parent _ start h).imp_done fun _ _ _ hdone => hparent (.inr hdone)

end Drive

end BarrierStore
