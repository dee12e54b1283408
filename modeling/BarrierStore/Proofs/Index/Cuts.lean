import BarrierStore.Proofs.Index.Barriers

/-!
# An index log that was cut, or that is anything at all

What a file says to the index is told by the lines in front of the first one that is malformed or that
has no newline. A log that was rewritten, then written on line by line, and then cut off somewhere, says
what was written in front of the cut. Inside a hexadecimal key or a decimal address, a shorter text
may well be one, but the line has no newline then and does not count.

The module introduces `IndexLog.storeLines`, which replaces a log by lines in any order, and
`IndexLog.appendEach`, which appends one line after the other.

Main statement: `IndexLog.load_of_cut`. On bytes alone it is `IndexLog.exists_kept` on a cut, and
`IndexLog.exists_accepted` with `IndexLog.Accepted.isPrefix_of_stops` on any file.
-/

namespace BarrierStore

open Drive

namespace IndexLog

/-- Replace a log by these lines. -/
def storeLines (path : Path) (entries : List (Bytes × UInt64)) : DiskM Unit :=
  Drive.replaceFile path temporaryExtension (encodeEntries entries)

/-- Append a line for each of these bindings to an open log. -/
def appendEach (log : FileId) (entries : List (Bytes × UInt64)) : StateM Drive Unit :=
  entries.forM fun (key, address) => Drive.append log (Line.encode key address)

/-- The lines of a map are in one order of many. -/
theorem store_eq (path : Path) (map : AddressMap) : store path map = storeLines path map.toList := rfl

/-! ## Any file -/

/-- The first newline is where the first line ends. -/
theorem eq_of_append_cons {line other rest rest' : Bytes} (h : Line.newline ∉ line)
    (h' : Line.newline ∉ other)
    (heq : line ++ Line.newline :: rest = other ++ Line.newline :: rest') :
    line = other ∧ rest = rest' := by
  have hsplit := congrArg (List.splitOn Line.newline) heq
  rw [List.splitOn_append_cons_self_of_not_mem h, List.splitOn_append_cons_self_of_not_mem h'] at hsplit
  obtain rfl := (List.cons.inj hsplit).1
  exact ⟨rfl, (List.cons.inj (List.append_cancel_left heq)).2⟩

/-- A file says what is on the well-formed lines in front of what stops them, and no more. -/
theorem Accepted.replay_append {front rest : Bytes} {list : List (Bytes × UInt64)}
    (h : Accepted front list) (hrest : Stops rest) : replay (front ++ rest) = overlay ∅ list := by
  rw [replay, h.entries_append, hrest.entries_eq, List.append_nil]
  rfl

/-- Any file starts with well-formed lines, perhaps none, and something that stops them. -/
theorem exists_accepted (contents : Bytes) : ∃ front rest list, contents = front ++ rest ∧
    Accepted front list ∧ Stops rest := by
  -- each line makes the rest shorter
  induction hlength : contents.length using Nat.strongRecOn generalizing contents with
  | ind length ih =>
    by_cases hnewline : Line.newline ∈ contents
    · obtain ⟨line, tail, rfl, hline⟩ := List.eq_append_cons_of_mem hnewline
      cases hparse : Line.parse? line with
      | none => exact ⟨[], _, [], rfl, .nil, .inr ⟨line, tail, rfl, hline, hparse⟩⟩
      | some entry =>
        have hshorter : tail.length < length := by
          rw [← hlength, List.length_append, List.length_cons]
          omega
        obtain ⟨front, rest, list, rfl, haccepted, hstops⟩ := ih _ hshorter tail rfl
        exact ⟨line ++ Line.newline :: front, rest, entry :: list, by simp,
          .cons hline hparse haccepted, hstops⟩
    · exact ⟨[], contents, [], rfl, .nil, .inl hnewline⟩

/-- No longer run of well-formed lines is in front of a file. -/
theorem Accepted.isPrefix_of_stops {front rest other rest' : Bytes} {list list' : List (Bytes × UInt64)}
    (h : Accepted front list) (hrest : Stops rest) (h' : Accepted other list')
    (heq : other ++ rest' = front ++ rest) : other <+: front ∧ list' <+: list := by
  -- by induction on the other run, line by line: the two have the same first newline
  induction h' generalizing front list with
  | nil => exact ⟨List.nil_prefix, List.nil_prefix⟩
  | @cons line other entry list' hline hentry _ ih =>
    rw [List.append_assoc, List.cons_append] at heq
    cases h with
    | nil =>
      -- a well-formed line would be in front of what stops them
      rw [List.nil_append] at heq
      rcases hrest with hnone | ⟨line', tail, rfl, hline', hmalformed⟩
      · rw [← heq] at hnone
        exact absurd (by simp) hnone
      · obtain ⟨rfl, -⟩ := eq_of_append_cons hline hline' heq
        rw [hentry] at hmalformed
        cases hmalformed
    | cons hline' hentry' hfront =>
      rw [List.append_assoc, List.cons_append] at heq
      obtain ⟨rfl, hbehind⟩ := eq_of_append_cons hline hline' heq
      obtain rfl := Option.some.inj (hentry.symm.trans hentry')
      obtain ⟨hbytes, hlist⟩ := ih hfront hbehind
      refine ⟨?_, List.cons_prefix_cons.mpr ⟨rfl, hlist⟩⟩
      obtain ⟨more, rfl⟩ := hbytes
      exact ⟨more, by simp⟩

/-! ## On a disk -/

/-- A log has a file beside it that is another one if its path is taken for that of a file. -/
theorem place_beside_ne_of_reaches {disk : Disk} {path : Path} (h : disk.Reaches path) :
    (beside path).place ≠ path.place := by
  obtain ⟨front, name, hends⟩ := Disk.exists_endsIn_of_locate h.locate_eq
  exact hends.place_replaceExtension_ne (by decide) (by decide)

/-- Only to a path that ends in a name a file is moved. -/
theorem exists_endsIn_of_rename {source target : Path} {drive last : Drive}
    (h : (Drive.rename source target).run.run drive = (.ok (), last)) :
    ∃ front name, target.EndsIn front name := by
  obtain ⟨found, middle, -, hbehind⟩ := run_bind_ok h
  obtain ⟨found', middle', htarget, hmove⟩ := run_bind_ok hbehind
  clear h hbehind
  have hlocate := (eq_of_run_look htarget).1
  rcases found with _ | ⟨old, slashes⟩
  · cases hmove
  rcases found' with _ | ⟨new, _ | _⟩
  · cases hmove
  · exact Disk.exists_endsIn_of_locate hlocate
  · -- a name that promises a directory is refused for a file
    obtain ⟨node, looked, -, hnode⟩ := run_bind_ok hmove
    clear hmove
    rcases node with _ | _ | id
    · cases hnode
    · cases hnode
    · obtain ⟨taken, looked', -, htaken⟩ := run_bind_ok hnode
      rw [Bool.or_true, if_pos rfl] at htaken
      cases htaken

theorem place_beside_ne_of_stored {path : Path} {entries : List (Bytes × UInt64)}
    {drive last : Drive} (h : (storeLines path entries).run.run drive = (.ok (), last)) :
    (beside path).place ≠ path.place := by
  obtain ⟨_, _, -, hwrite⟩ := run_bind_ok h
  obtain ⟨_, _, -, hsync⟩ := run_bind_ok hwrite
  obtain ⟨_, _, -, hmove⟩ := run_bind_ok hsync
  obtain ⟨front, name, hends⟩ := exists_endsIn_of_rename hmove
  exact hends.place_replaceExtension_ne (by decide) (by decide)

theorem achieves_storeLines {start : Disk} (h : start.WellFormed) {path : Path}
    (hne : (beside path).place ≠ path.place) (entries : List (Bytes × UInt64)) :
    Achieves (storeLines path entries) start (fun _ => True)
      (fun _ disk => start.Admits path ∧ start.Admits (beside path) ∧
        start.Changes {(beside path).place, path.place} disk ∧
        ∃ file, disk.leaf path.place = some (file, encodeEntries entries))
      (fun _ disk => start.Changes {(beside path).place, path.place} disk ∧
        ¬ (start.Admits path ∧ start.Admits (beside path))) :=
  achieves_replaceFile_of_changes h hne _ fun _ _ _ => trivial

/-- A log is rewritten where it and the file beside it can be. -/
theorem exists_stored {drive : Drive} {path : Path} (hwell : drive.disk.WellFormed)
    (hadmits : drive.disk.Admits path) (hbeside : drive.disk.Admits (beside path))
    (entries : List (Bytes × UInt64)) :
    ∃ stored, (storeLines path entries).run.run drive = (.ok (), stored) := by
  have hafter := (achieves_storeLines hwell
    (place_beside_ne_of_reaches hadmits.toReaches) entries).after_run
  rcases hrun : (storeLines path entries).run.run drive with ⟨fault | ⟨⟩, stored⟩
  · rw [hrun] at hafter
    exact absurd ⟨hadmits, hbeside⟩ hafter.2
  · exact ⟨stored, rfl⟩

/-- A log that was rewritten has these lines, and is opened. -/
theorem opened_of_stored {drive stored : Drive} {path : Path} {entries : List (Bytes × UInt64)}
    (hwell : drive.disk.WellFormed)
    (h : (storeLines path entries).run.run drive = (.ok (), stored)) :
    ∃ log opened, (openAppend path).run.run stored = (.ok log, opened) ∧
      stored.disk.Admits path ∧ stored.disk.Becomes stored.disk.leaf opened.disk ∧
      stored.disk.leaf path.place = some (log, encodeEntries entries) := by
  have hafter := (achieves_storeLines hwell (place_beside_ne_of_stored h) entries).after_run
  rw [h] at hafter
  obtain ⟨hadmits, -, hchanges, log, hleaf⟩ : _ ∧ _ ∧ drive.disk.Changes _ stored.disk ∧
    ∃ file, stored.disk.leaf path.place = some (file, encodeEntries entries) := hafter
  have hadmits' := hchanges.admits_iff.mpr hadmits
  have hopen := (@achieves_openAppend _ (fun _ => True) hchanges.wellFormed _ _ _ hleaf
    trivial).after_run
  rcases hrun : (openAppend path).run.run stored with ⟨fault | id, opened⟩ <;> rw [hrun] at hopen
  · exact absurd hadmits' hopen.2.1
  · obtain ⟨rfl, -, hopened⟩ := hopen
    exact ⟨id, opened, rfl, hadmits', hopened, hleaf⟩

/-- Lines are appended at the end of what is there. -/
theorem meets_appendEach {start : Disk} (h : start.WellFormed) {place : Location} {log : FileId}
    {bytes : Bytes} (hleaf : start.leaf place = some (log, bytes)) (more : List (Bytes × UInt64)) :
    Meets (appendEach log more) start (fun _ => True) fun _ disk =>
      start.Changes {place} disk ∧ disk.leaf place = some (log, bytes ++ encodeEntries more) := by
  induction more generalizing start bytes with
  | nil =>
    refine meets_pure trivial ⟨.refl h, ?_⟩
    rw [encodeEntries_nil, List.append_nil]
    exact hleaf
  | cons entry rest ih =>
    obtain ⟨key, address⟩ := entry
    refine Meets.bind (meets_append h hleaf (Line.encode key address) fun _ _ _ => trivial)
      fun _ disk _ hbecomes => ?_
    have hline : disk.leaf place = some (log, bytes ++ Line.encode key address) := by
      rw [hbecomes.leaf_eq, Function.update_self]
    refine (ih hbecomes.wellFormed hline).imp ?_
    rintro _ last - ⟨hchanges, hlast⟩
    refine ⟨hbecomes.changes_update.trans hchanges, ?_⟩
    rw [hlast, List.append_assoc]
    rfl

/-- An open log that was written on line by line, and cut off behind the lines that it had, says what is
in front of the cut. -/
theorem exists_kept_of_cut {opened : Drive} {path : Path} {log : FileId}
    {entries : List (Bytes × UInt64)} (hwell : opened.disk.WellFormed)
    (hadmits : opened.disk.Admits path)
    (hleaf : opened.disk.leaf path.place = some (log, encodeEntries entries))
    {more : List (Bytes × UInt64)} {stop : Nat} {written cut : Drive}
    (hwritten : (appendEach log more).run opened = ((), written))
    (hstop : (encodeEntries entries).length ≤ stop)
    (hshort : stop ≤ (encodeEntries (entries ++ more)).length)
    (hcut : (perform (.resize log stop)).run written = ((), cut)) :
    ∃ kept, ((load path).run.run cut).1 =
        .ok (AddressMap.ofEntries (entries ++ more.take kept)) ∧
      ∀ i < more.length, i < kept ↔
        (encodeEntries (entries ++ more.take (i + 1))).length ≤ stop := by
  -- the lines stand behind one another in the file, and the cut leaves a front of them
  have hmore := (meets_appendEach hwell hleaf more).after_run
  rw [hwritten, ← encodeEntries_append] at hmore
  obtain ⟨happended, hlines⟩ := hmore
  obtain ⟨hresized, htaken⟩ := Disk.changes_truncate happended.wellFormed hlines hshort
  obtain ⟨kept, hreplay, hkept⟩ := exists_kept entries more hstop
  refine ⟨kept, ?_, hkept⟩
  -- the file has its name still, so what is loaded is what is left in it
  obtain rfl := (Prod.mk.inj hcut).2
  have hlast := hresized.admits_iff.mpr (happended.admits_iff.mpr hadmits)
  rw [← hreplay]
  exact (Index.load_eq hlast _).trans (congrArg Except.ok (replayed_of_leaf htaken))

/-- What is read of a file is what the index makes of it. -/
theorem load_of_read {drive : Drive} {path : Path} {contents : Contents}
    (h : drive.disk.read path = .ok contents) :
    ((load path).run.run drive).1 = .ok (replay contents.toBytes) := by
  have hfound : (contentsOf? path).run.run drive = (.ok (some contents), drive) := by
    rw [contentsOf?, run_current_bind, h]
    rfl
  rw [load, run_bind_of_ok hfound]
  rfl

/-- A log that was rewritten by the lines of a map, in any order, says that map. Written on line by
line and cut off at a byte behind the rewritten part, it says the map after the bindings whose lines are
in front of the cut, newline included. And any file says what is on the longest run of well-formed lines
at its start, whatever is behind a line that is malformed or has no newline. -/
theorem load_of_cut :
    (∀ (drive : Drive) (path : Path) (map : AddressMap) (entries : List (Bytes × UInt64)),
      drive.disk.WellFormed → entries.Perm map.toList →
        (drive.disk.Admits path → drive.disk.Admits (beside path) →
          ∃ stored, (storeLines path entries).run.run drive = (.ok (), stored)) ∧
        ∀ stored, (storeLines path entries).run.run drive = (.ok (), stored) →
          ((load path).run.run stored).1 = .ok map ∧
          ∃ log opened, (openAppend path).run.run stored = (.ok log, opened) ∧
            ∀ more stop written cut, (appendEach log more).run opened = ((), written) →
              (encodeEntries entries).length ≤ stop →
              stop ≤ (encodeEntries (entries ++ more)).length →
              (perform (.resize log stop)).run written = ((), cut) →
              ∃ kept, ((load path).run.run cut).1 = .ok (overlay map (more.take kept)) ∧
                ∀ i < more.length, i < kept ↔
                  (encodeEntries (entries ++ more.take (i + 1))).length ≤ stop) ∧
    ∀ (drive : Drive) (path : Path) (contents : Contents), drive.disk.read path = .ok contents →
      ∃ front rest list, contents.toBytes = front ++ rest ∧ Accepted front list ∧ Stops rest ∧
        (∀ other list', other <+: contents.toBytes → Accepted other list' →
          other <+: front ∧ list' <+: list) ∧
        ((load path).run.run drive).1 = .ok (overlay ∅ list) ∧
        ∀ (drive' : Drive) (path' : Path) (contents' : Contents) (rest' : Bytes),
          drive'.disk.read path' = .ok contents' → contents'.toBytes = front ++ rest' →
            Stops rest' → ((load path').run.run drive').1 = .ok (overlay ∅ list) := by
  constructor
  · -- a log that was rewritten
    intro drive path map entries hwell hperm
    refine ⟨fun hadmits hbeside => exists_stored hwell hadmits hbeside entries,
      fun stored hstored => ?_⟩
    obtain ⟨log, opened, hopen, hadmits, hopened, hleaf⟩ := opened_of_stored hwell hstored
    have hmap := ofEntries_of_perm hperm
    refine ⟨?_, log, opened, hopen, fun more stop written cut hwritten hstop hshort hcut => ?_⟩
    · rw [Index.load_eq hadmits stored.effects, replayed_of_leaf hleaf, replay_encodeEntries, hmap]
    · obtain ⟨kept, hload, hkept⟩ := exists_kept_of_cut hopened.wellFormed
        (hopened.admits_iff.mpr hadmits) ((congrFun hopened.leaf_eq _).trans hleaf) hwritten hstop
        hshort hcut
      refine ⟨kept, ?_, hkept⟩
      rw [hload, ← hmap, AddressMap.ofEntries, List.foldl_append]
      rfl
  · -- any file: what is behind the longest run does not count, whatever it is
    intro drive path contents hread
    obtain ⟨front, rest, list, hcontents, haccepted, hrest⟩ := exists_accepted contents.toBytes
    have hall : ∀ (drive' : Drive) (path' : Path) (contents' : Contents) (rest' : Bytes),
        drive'.disk.read path' = .ok contents' → contents'.toBytes = front ++ rest' →
          Stops rest' → ((load path').run.run drive').1 = .ok (overlay ∅ list) := by
      intro drive' path' contents' rest' hread' hcontents' hrest'
      rw [load_of_read hread', hcontents', haccepted.replay_append hrest']
    refine ⟨front, rest, list, hcontents, haccepted, hrest, ?_,
      hall drive path contents rest hread hcontents hrest, hall⟩
    rintro other list' ⟨behind, hother⟩ hlist'
    exact haccepted.isPrefix_of_stops hrest hlist' (hother.trans hcontents)

/-- A log that was rewritten with one line, and that two lines were appended to, the last of which is cut
in its address: only the first of the two is found. And a log of two lines says at least these. -/
theorem load_of_cut_digits :
    (∃ stored log opened written cut, Disk.empty.WellFormed ∧
      [(([107] : Bytes), (9 : UInt64))].Perm (AddressMap.ofEntries [([107], 9)]).toList ∧
      (storeLines (.ofString "index.log") [([107], 9)]).run.run (ofDisk Disk.empty) =
        (.ok (), stored) ∧
      (openAppend (.ofString "index.log")).run.run stored = (.ok log, opened) ∧
      (appendEach log [([107], 1), ([108], 22)]).run opened = ((), written) ∧
      (perform (.resize log 14)).run written = ((), cut) ∧
      ((load (.ofString "index.log")).run.run cut).1 =
        .ok (overlay (AddressMap.ofEntries [([107], 9)]) [([107], 1)])) ∧
    ∃ contents list, Index.loggedDisk.read (.ofString "index.log") = .ok contents ∧
      [([107], 9), ([108], 8)] <+: list ∧
      ((load (.ofString "index.log")).run.run (ofDisk Index.loggedDisk)).1 = .ok (overlay ∅ list) := by
  constructor
  · have hperm : [(([107] : Bytes), (9 : UInt64))].Perm (AddressMap.ofEntries [([107], 9)]).toList := by
      decide +kernel
    have hstores : ∃ answer stored, (storeLines (.ofString "index.log") [([107], 9)]).run.run
        (ofDisk Disk.empty) = (.ok answer, stored) := by
      decide +kernel
    obtain ⟨_, stored, hstored⟩ := hstores
    obtain ⟨-, log, opened, hopen, hcut⟩ :=
      (load_of_cut.1 (ofDisk Disk.empty) _ _ _ Disk.wellFormed_empty hperm).2 stored hstored
    obtain ⟨kept, hload, hkept⟩ := hcut [([107], 1), ([108], 22)] 14 _ _ rfl (by decide) (by decide) rfl
    -- the cut is behind the first line and inside the address of the second
    obtain rfl : kept = 1 := by
      have hfirst := (hkept 0 (by decide)).mpr (by decide)
      have hsecond := mt (hkept 1 (by decide)).mp (by decide)
      omega
    exact ⟨stored, log, opened, _, _, Disk.wellFormed_empty, hperm, hstored, hopen, rfl, rfl, hload⟩
  · have hfound : (Index.loggedDisk.read (.ofString "index.log")).toOption.map Contents.toBytes =
        some (encodeEntries [([107], 9), ([108], 8)]) := by
      decide +kernel
    rcases hread : Index.loggedDisk.read (.ofString "index.log") with cause | contents <;>
      rw [hread] at hfound
    · cases hfound
    obtain ⟨front, rest, list, -, -, -, hlongest, hload, -⟩ :=
      load_of_cut.2 (ofDisk Index.loggedDisk) _ _ hread
    have hbytes := Option.some.inj hfound
    exact ⟨contents, list, rfl, (hlongest _ _ (hbytes ▸ List.prefix_refl _)
      (accepted_encodeEntries _)).2, hload⟩

end IndexLog

end BarrierStore
