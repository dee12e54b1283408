import BarrierStore.Proofs.Disk.Operations

/-!
# Directories in the way

A directory that stands where a file is to go stops an operation that comes to it. Up to there the operation
has done what it does without the directory, and nothing of that depends on the directory: once it is
removed, the disk is the one that the operation leaves when it is interrupted at that point.

The module introduces:

* `Disk.Obstructed clean places blocked` — `blocked` is `clean` with directories at these places, where
  `clean` has nothing;
* `Disk.Ready paths roots disk` — paths that lead to names, and paths whose directory is there;
* `Drive.Follows paths roots operation done` — on an obstructed disk the operation follows its run on the
  clean one, to its end or until a file fails; on the clean one its answer satisfies `done`.

Main statements: `Drive.Follows.bind` and its like for the ways to put operations together, and
`Drive.follows_replaceFile` and its like for the operations on files.
-/

namespace BarrierStore

/-- The places at which an effect puts something or takes it away. -/
def Effect.places : Effect → Set Location
  | .makeDirectory place | .create place | .remove place => {place}
  | .rename source target => {source, target}
  | .resize _ _ | .write _ _ _ | .sync _ => ∅

namespace Disk

/-- The disk with directories at these places, where nothing was. -/
structure Obstructed (clean : Disk) (places : Set Location) (blocked : Disk) : Prop where
  files_eq : blocked.files = clean.files
  nextFile_eq : blocked.nextFile = clean.nextFile
  vacant {place : Location} : place ∈ places → clean.node? place = none
  taken {place : Location} : place ∈ places → blocked.nodes[place]? = some .directory
  same {place : Location} : place ∉ places → blocked.nodes[place]? = clean.nodes[place]?

/-- What stands elsewhere stays as it was. -/
theorem getElem?_nodes_apply (disk : Disk) {effect : Effect} {place : Location}
    (h : place ∉ effect.places) : (disk.apply effect).nodes[place]? = disk.nodes[place]? := by
  -- contents change without names; the other effects touch the names that they list, and no more
  cases effect with
  | resize | write | sync => rfl
  | makeDirectory made | create made =>
    simp only [Disk.apply, Std.ExtTreeMap.getElem?_insert, Std.compare_eq_iff_eq]
    exact if_neg (Ne.symm h)
  | remove gone =>
    simp only [Disk.apply, Std.ExtTreeMap.getElem?_erase, Std.compare_eq_iff_eq]
    exact if_neg (Ne.symm h)
  | rename source target =>
    simp only [Effect.places, Set.mem_insert_iff, Set.mem_singleton_iff, not_or] at h
    simp only [Disk.apply]
    cases disk.nodes[source]? with
    | none => rfl
    | some node =>
      simp only [Std.ExtTreeMap.getElem?_insert, Std.ExtTreeMap.getElem?_erase,
        Std.compare_eq_iff_eq]
      rw [if_neg (Ne.symm h.2), if_neg (Ne.symm h.1)]

namespace Obstructed

variable {clean blocked : Disk} {places : Set Location} {place : Location}

theorem refl (disk : Disk) : disk.Obstructed ∅ disk :=
  ⟨rfl, rfl, False.elim, False.elim, fun _ => rfl⟩

/-- Without directories in the way the disks are the same. -/
theorem eq_of_empty (h : clean.Obstructed ∅ blocked) : blocked = clean := by
  obtain ⟨nodes, files, next⟩ := blocked
  obtain rfl : files = clean.files := h.files_eq
  obtain rfl : next = clean.nextFile := h.nextFile_eq
  obtain rfl : nodes = clean.nodes := Std.ExtTreeMap.ext_getElem? fun {_} => h.same id
  rfl

/-- On the clean disk nothing stands where the directories are. -/
theorem vacant_nodes (h : clean.Obstructed places blocked) (hplace : place ∈ places) :
    clean.nodes[place]? = none := by
  have hvacant := h.vacant hplace
  rwa [node?_of_ne_nil (ne_nil_of_node? clean (by simp [hvacant]))] at hvacant

/-- On the blocked disk the directories stand at their places. -/
theorem node?_of_mem (h : clean.Obstructed places blocked) (hplace : place ∈ places) :
    blocked.node? place = some .directory := by
  have hvacant := h.vacant hplace
  rw [node?_of_ne_nil (ne_nil_of_node? clean (by simp [hvacant])), h.taken hplace]

/-- Elsewhere the two disks have the same. -/
theorem node?_of_notMem (h : clean.Obstructed places blocked) (hplace : place ∉ places) :
    blocked.node? place = clean.node? place := by
  cases place with
  | nil => rfl
  | cons piece above => exact h.same hplace

/-- Nothing is in the way where nothing is. -/
theorem clean_vacant (h : clean.Obstructed places blocked) (hvacant : blocked.node? place = none) :
    clean.node? place = none := by
  by_cases hplace : place ∈ places
  · exact h.vacant hplace
  · rwa [h.node?_of_notMem hplace] at hvacant

theorem file_eq (h : clean.Obstructed places blocked) (id : FileId) : blocked.file id = clean.file id := by
  rw [Disk.file, h.files_eq, Disk.file]

/-- Files have the same contents on both disks. -/
theorem contents_eq (h : clean.Obstructed places blocked) (id : FileId) :
    blocked.contents id = clean.contents id := by
  rw [contents, h.file_eq, contents]

/-- The directories of the clean disk are there on the blocked one. -/
theorem keepsDirectories (h : clean.Obstructed places blocked) : clean.KeepsDirectories blocked := by
  intro place hdirectory
  by_cases hplace : place ∈ places
  · exact h.node?_of_mem hplace
  · rwa [h.node?_of_notMem hplace]

/-- An effect elsewhere does the same on both disks. -/
theorem apply (h : clean.Obstructed places blocked) {effect : Effect}
    (helse : ∀ place ∈ effect.places, place ∉ places) :
    (clean.apply effect).Obstructed places (blocked.apply effect) := by
  have hother {disk : Disk} {place : Location} (hplace : place ∈ places) :
      (disk.apply effect).nodes[place]? = disk.nodes[place]? :=
    getElem?_nodes_apply disk fun hmem => helse place hmem hplace
  have hvacant {place : Location} (hplace : place ∈ places) :
      (clean.apply effect).node? place = none := by
    rw [node?_of_ne_nil (ne_nil_of_node? clean (by simp [h.vacant hplace])), hother hplace]
    exact h.vacant_nodes hplace
  have htaken {place : Location} (hplace : place ∈ places) :
      (blocked.apply effect).nodes[place]? = some .directory := by
    rw [hother hplace, h.taken hplace]
  cases effect with
  | resize id length =>
    refine ⟨?_, h.nextFile_eq, hvacant, htaken, h.same⟩
    simp only [Disk.apply, setFile, h.files_eq, h.file_eq, h.contents_eq]
  | write id offset data =>
    refine ⟨?_, h.nextFile_eq, hvacant, htaken, h.same⟩
    simp only [Disk.apply, setFile, h.files_eq, h.file_eq, h.contents_eq]
  | sync id =>
    refine ⟨?_, h.nextFile_eq, hvacant, htaken, h.same⟩
    simp only [Disk.apply, setFile, h.files_eq, h.contents_eq]
  | makeDirectory made =>
    refine ⟨h.files_eq, h.nextFile_eq, hvacant, htaken, fun {place} hplace => ?_⟩
    simp only [Disk.apply, Std.ExtTreeMap.getElem?_insert, h.same hplace]
  | create made =>
    refine ⟨?_, ?_, hvacant, htaken, fun {place} hplace => ?_⟩
    · simp only [Disk.apply, h.files_eq, h.nextFile_eq]
    · simp only [Disk.apply, h.nextFile_eq]
    · simp only [Disk.apply, Std.ExtTreeMap.getElem?_insert, h.same hplace, h.nextFile_eq]
  | remove gone =>
    refine ⟨h.files_eq, h.nextFile_eq, hvacant, htaken, fun {place} hplace => ?_⟩
    simp only [Disk.apply, Std.ExtTreeMap.getElem?_erase, h.same hplace]
  | rename source target =>
    -- the same link moves, if there is one
    have hsource := h.same (helse source (.inl rfl))
    refine ⟨?_, ?_, hvacant, htaken, fun {place} hplace => ?_⟩ <;>
      simp only [Disk.apply, hsource] <;> cases clean.nodes[source]?
    · exact h.files_eq
    · exact h.files_eq
    · exact h.nextFile_eq
    · exact h.nextFile_eq
    · exact h.same hplace
    · simp only [Std.ExtTreeMap.getElem?_insert, Std.ExtTreeMap.getElem?_erase, h.same hplace]

/-- Another directory gets in the way. -/
theorem insert (h : clean.Obstructed places blocked) (hvacant : clean.node? place = none) :
    clean.Obstructed (insert place places) (blocked.apply (.makeDirectory place)) := by
  refine ⟨h.files_eq, h.nextFile_eq, ?_, fun {other} hother => ?_, fun {other} hother => ?_⟩
  · rintro other (rfl | hother)
    · exact hvacant
    · exact h.vacant hother
  · simp only [Disk.apply, Std.ExtTreeMap.getElem?_insert, Std.compare_eq_iff_eq]
    split
    · rfl
    · rename_i hne
      exact h.taken (hother.resolve_left (Ne.symm hne))
  · simp only [Set.mem_insert_iff, not_or] at hother
    rw [getElem?_nodes_apply blocked (by simpa [Effect.places] using hother.1)]
    exact h.same hother.2

/-- Directories may be made at any number of places where nothing stands. -/
theorem insertAll (h : clean.Obstructed places blocked) {made : List Location}
    (hvacant : ∀ place ∈ made, clean.node? place = none) :
    clean.Obstructed ({place | place ∈ made} ∪ places)
      (blocked.applyAll (made.map .makeDirectory)) := by
  induction made generalizing places blocked with
  | nil =>
    rw [show { place | place ∈ ([] : List Location) } ∪ places = places by simp]
    exact h
  | cons place rest ih =>
    have hall := ih (h.insert (hvacant place List.mem_cons_self)) fun other hother =>
      hvacant other (List.mem_cons_of_mem _ hother)
    rwa [show { other | other ∈ rest } ∪ Insert.insert place places =
      { other | other ∈ place :: rest } ∪ places from Set.ext fun other => by
        simp [or_assoc]] at hall

/-- A directory is taken away. -/
theorem erase (h : clean.Obstructed places blocked) (hplace : place ∈ places) :
    clean.Obstructed (places \ {place}) (blocked.apply (.remove place)) := by
  refine ⟨h.files_eq, h.nextFile_eq, fun hother => h.vacant hother.1, fun {other} hother => ?_,
    fun {other} hother => ?_⟩
  · rw [getElem?_nodes_apply blocked hother.2]
    exact h.taken hother.1
  · by_cases heq : other = place
    · subst heq
      rw [h.vacant_nodes hplace]
      simp [Disk.apply]
    · rw [getElem?_nodes_apply blocked heq]
      exact h.same fun hmem => hother ⟨hmem, heq⟩

end Obstructed

/-- These paths lead to names in directories that are there, and these ones lie in directories that are
there. -/
structure Ready (paths roots : Set Path) (disk : Disk) : Prop where
  reaches {path : Path} : path ∈ paths → disk.Reaches path
  parent {path : Path} : path ∈ roots → disk.HasParent path

/-- What is ready stays so as long as no directory goes. -/
theorem Ready.mono {paths roots : Set Path} {disk disk' : Disk} (h : disk.Ready paths roots)
    (hkeeps : disk.KeepsDirectories disk') : disk'.Ready paths roots :=
  ⟨fun hpath => (h.reaches hpath).mono hkeeps, fun hpath => (h.parent hpath).mono hkeeps⟩

end Disk

namespace Drive

variable {α β : Type} {paths roots : Set Path} {operation : DiskM α} {done done' : α → Prop}

/-! ## What a run does on the clean disk and on the obstructed one -/

/-- On the obstructed disk the operation does what it does on the clean one, to its end or until a file
fails; on the clean one the paths stay ready, and its answer satisfies `done`. -/
def Pursues (paths roots : Set Path) (places : Set Location) (clean blocked : Disk)
    (operation : DiskM α) (done : α → Prop) : Prop :=
  ∀ past past', ∃ outcome effects outcome' effects',
    operation.run.run ⟨clean, past⟩ = (outcome, ⟨clean.applyAll effects, effects.reverse ++ past⟩) ∧
    operation.run.run ⟨blocked, past'⟩ =
      (outcome', ⟨blocked.applyAll effects', effects'.reverse ++ past'⟩) ∧
    (clean.applyAll effects).Ready paths roots ∧
    (clean.applyAll effects').Obstructed places (blocked.applyAll effects') ∧
    (∀ a, outcome = .ok a → done a) ∧
    (outcome = outcome' ∧ effects = effects' ∨
      effects' <+: effects ∧ ∃ cause, outcome' = .error (.io cause))

/-- So it does wherever directories are in the way. -/
def Follows (paths roots : Set Path) (operation : DiskM α) (done : α → Prop) : Prop :=
  ∀ ⦃places : Set Location⦄ ⦃clean blocked : Disk⦄, clean.Obstructed places blocked →
    clean.WellFormed → clean.Ready paths roots → Pursues paths roots places clean blocked operation done

section Runs

variable {places : Set Location} {clean blocked : Disk} {outcome : Except Fault α}
  (hblocked : clean.Obstructed places blocked) (hready : clean.Ready paths roots)

include hblocked hready

/-- Both runs end alike, without an effect. -/
theorem pursues_unchanged
    (hrun : ∀ past, operation.run.run ⟨clean, past⟩ = (outcome, ⟨clean, past⟩))
    (hrun' : ∀ past, operation.run.run ⟨blocked, past⟩ = (outcome, ⟨blocked, past⟩))
    (hdone : ∀ a, outcome = .ok a → done a) :
    Pursues paths roots places clean blocked operation done :=
  fun past past' => ⟨outcome, [], outcome, [], hrun past, hrun' past', hready, hblocked, hdone,
    .inl ⟨rfl, rfl⟩⟩

/-- Both runs end alike, with one effect. -/
theorem pursues_effect {effect : Effect}
    (hrun : ∀ past, operation.run.run ⟨clean, past⟩ = (outcome, ⟨clean.apply effect, effect :: past⟩))
    (hrun' : ∀ past,
      operation.run.run ⟨blocked, past⟩ = (outcome, ⟨blocked.apply effect, effect :: past⟩))
    (hkeeps : clean.KeepsDirectories (clean.apply effect))
    (helse : ∀ place ∈ effect.places, place ∉ places) (hdone : ∀ a, outcome = .ok a → done a) :
    Pursues paths roots places clean blocked operation done := by
  refine fun past past' => ⟨outcome, [effect], outcome, [effect], hrun past, hrun' past', ?_, ?_, hdone,
    .inl ⟨rfl, rfl⟩⟩
  · exact hready.mono hkeeps
  · exact hblocked.apply helse

/-- A directory stops the run that comes to it. -/
theorem pursues_stopped {effects : List Effect} {cause : IoFault}
    (hrun : ∀ past, operation.run.run ⟨clean, past⟩ =
      (outcome, ⟨clean.applyAll effects, effects.reverse ++ past⟩))
    (hrun' : ∀ past, operation.run.run ⟨blocked, past⟩ = (.error (.io cause), ⟨blocked, past⟩))
    (hkeeps : clean.KeepsDirectories (clean.applyAll effects))
    (hdone : ∀ a, outcome = .ok a → done a) :
    Pursues paths roots places clean blocked operation done :=
  fun past past' => ⟨outcome, effects, .error (.io cause), [], hrun past, hrun' past',
    hready.mono hkeeps, hblocked, hdone, .inr ⟨List.nil_prefix, cause, rfl⟩⟩

end Runs

/-- What an operation leaves on an obstructed disk is, without the directories, what a crash of its run on
the clean disk may leave. -/
theorem Follows.exists_clean {places : Set Location} {clean blocked : Disk} {during : Disk → Prop}
    {after : α → Disk → Prop} {failed : Fault → Disk → Prop} (h : Follows paths roots operation done)
    (hblocked : clean.Obstructed places blocked) (hwell : clean.WellFormed)
    (hready : clean.Ready paths roots) (hduring : Achieves operation clean during after failed)
    (past : List Effect) : ∃ disk, during disk ∧
      disk.Obstructed places (operation.run.run ⟨blocked, past⟩).2.disk := by
  obtain ⟨outcome, effects, outcome', effects', hrun, hrun', -, hleft, -, hfollows⟩ :=
    h hblocked hwell hready [] past
  have hfront : effects' <+: effects := hfollows.elim (fun hsame => hsame.2 ▸ List.prefix_rfl) And.left
  refine ⟨clean.applyAll effects', hduring.during_crash ?_, ?_⟩
  · rw [ofDisk, hrun, List.append_nil, List.reverse_reverse, List.prefix_iff_eq_take.mp hfront]
    exact clean.crashes_take effects _
  · rw [hrun']
    exact hleft

/-- An outcome that is known, and no effect. -/
theorem follows_outcome {outcome : Except Fault α} (hdone : ∀ a, outcome = .ok a → done a) :
    Follows paths roots (liftM outcome : DiskM α) done := by
  intro places clean blocked hblocked _ hready
  refine pursues_unchanged hblocked hready (fun past => ?_) (fun past => ?_) hdone <;>
    cases outcome <;> rfl

/-- What does nothing follows its run on the clean disk. -/
theorem follows_pure {a : α} (h : done a) : Follows paths roots (pure a : DiskM α) done :=
  @follows_outcome _ _ _ _ (.ok a) fun _ hother => Except.ok.inj hother ▸ h

/-- A failure that does not depend on the disk is the same on both. -/
theorem follows_throw (fault : Fault) : Follows paths roots (throw fault : DiskM α) done :=
  @follows_outcome _ _ _ _ (.error fault) nofun

/-- Two operations follow their runs one behind the other. -/
theorem Follows.bind {next : α → DiskM β} {done' : β → Prop}
    (h : Follows paths roots operation done)
    (hnext : ∀ a, done a → Follows paths roots (next a) done') :
    Follows paths roots (operation >>= next) done' := by
  intro places clean blocked hblocked hwell hready past past'
  obtain ⟨outcome, effects, outcome', effects', hrun, hrun', hready', hblocked', hdone, hfollows⟩ :=
    h hblocked hwell hready past past'
  have hwell' := hwell.applyAll effects
  rcases hfollows with ⟨rfl, rfl⟩ | ⟨hfront, cause, rfl⟩
  · -- both have come to the end of the first step
    cases outcome with
    | error fault =>
      refine ⟨.error fault, effects, .error fault, effects, ?_, ?_, hready', hblocked', nofun,
        .inl ⟨rfl, rfl⟩⟩
      · rw [run_bind_error hrun]
      · rw [run_bind_error hrun']
    | ok a =>
      obtain ⟨outcome, more, outcome', more', hrun₂, hrun₂', hready₂, hblocked₂, hdone₂, hfollows₂⟩ :=
        hnext a (hdone a rfl) hblocked' hwell' hready' (effects.reverse ++ past)
          (effects.reverse ++ past')
      refine ⟨outcome, effects ++ more, outcome', effects ++ more', ?_, ?_, ?_, ?_, hdone₂, ?_⟩
      · rw [run_bind_of_ok hrun, hrun₂, Disk.applyAll_append, List.reverse_append, List.append_assoc]
      · rw [run_bind_of_ok hrun', hrun₂', Disk.applyAll_append, List.reverse_append, List.append_assoc]
      · rwa [Disk.applyAll_append]
      · rwa [Disk.applyAll_append, Disk.applyAll_append]
      · exact hfollows₂.imp (And.imp_right (congrArg (effects ++ ·)))
          (And.imp_left fun hfront => (List.prefix_append_right_inj effects).mpr hfront)
  · -- a directory was in the way, and the clean run goes on alone
    have hstopped : (operation >>= next).run.run ⟨blocked, past'⟩ = _ := run_bind_error hrun'
    cases outcome with
    | error fault =>
      exact ⟨.error fault, effects, .error (.io cause), effects', run_bind_error hrun, hstopped, hready',
        hblocked', nofun, .inr ⟨hfront, cause, rfl⟩⟩
    | ok a =>
      obtain ⟨outcome, more, _, _, hrun₂, -, hready₂, -, hdone₂, -⟩ :=
        hnext a (hdone a rfl) (.refl _) hwell' hready' (effects.reverse ++ past) []
      refine ⟨outcome, effects ++ more, .error (.io cause), effects', ?_, hstopped, ?_, hblocked', hdone₂,
        .inr ⟨hfront.trans (List.prefix_append _ _), cause, rfl⟩⟩
      · rw [run_bind_of_ok hrun, hrun₂, Disk.applyAll_append, List.reverse_append, List.append_assoc]
      · rwa [Disk.applyAll_append]

/-- A loop follows step by step. -/
theorem follows_foldlM {step : β → α → DiskM β} {list : List α} {init : β} {inv : β → Prop}
    (hinit : inv init) (hstep : ∀ a ∈ list, ∀ b, inv b → Follows paths roots (step b a) inv) :
    Follows paths roots (list.foldlM step init) inv := by
  induction list generalizing init with
  | nil => exact follows_pure hinit
  | cons a rest ih =>
    rw [List.foldlM_cons]
    refine (hstep a List.mem_cons_self init hinit).bind fun b hb => ih hb fun other hother => ?_
    exact hstep other (List.mem_cons_of_mem _ hother)

/-- So does a loop of which every step does. -/
theorem follows_forM {step : α → DiskM Unit} {list : List α}
    (hstep : ∀ a ∈ list, Follows paths roots (step a) fun _ => True) :
    Follows paths roots (list.forM step) fun _ => True := by
  induction list with
  | nil => exact follows_pure trivial
  | cons a rest ih =>
    exact (hstep a List.mem_cons_self).bind fun _ _ => ih fun other hother =>
      hstep other (List.mem_cons_of_mem _ hother)

/-! ## Operations on files -/

theorem run_current_bind (next : Disk → DiskM α) (drive : Drive) :
    ((liftM current : DiskM Disk) >>= next).run.run drive = (next drive.disk).run.run drive := rfl

/-- A look at the disk leaves the drive as it is. -/
theorem run_look (question : Disk → Except IoFault α) (drive : Drive) :
    (look question).run.run drive = ((question drive.disk).mapError .io, drive) := by
  rw [look, run_current_bind]
  cases question drive.disk <;> rfl

/-- An answer that was given is that of the disk, and asking changes nothing. -/
theorem eq_of_run_look {question : Disk → Except IoFault α} {a : α} {drive last : Drive}
    (h : (look question).run.run drive = (.ok a, last)) :
    question drive.disk = .ok a ∧ last = drive := by
  rw [run_look] at h
  obtain ⟨hanswer, hlast⟩ := Prod.mk.inj h
  refine ⟨?_, hlast.symm⟩
  cases hquestion : question drive.disk with
  | error cause =>
    rw [hquestion] at hanswer
    cases hanswer
  | ok answer =>
    rw [hquestion] at hanswer
    cases hanswer
    rfl

/-- What comes behind a look depends on what it finds. -/
theorem run_look_bind (question : Disk → Except IoFault α) (next : α → DiskM β) (disk : Disk)
    (past : List Effect) : (look question >>= next).run.run ⟨disk, past⟩ =
      match question disk with
      | .ok a => (next a).run.run ⟨disk, past⟩
      | .error cause => (.error (.io cause), ⟨disk, past⟩) := by
  have hlook := run_look question ⟨disk, past⟩
  cases hquestion : question disk <;> rw [hquestion] at hlook
  · exact run_bind_error hlook
  · exact run_bind_of_ok hlook

/-- What an opening does where the path leads to a name. -/
theorem run_openForWriting {disk : Disk} {path : Path} (h : disk.Reaches path) (truncate : Bool)
    (past : List Effect) : (openForWriting path truncate).run.run ⟨disk, past⟩ =
      match disk.node? path.place with
      | none => (.ok disk.nextFile, ⟨disk.apply (.create path.place), .create path.place :: past⟩)
      | some .directory => (.error (.io .isADirectory), ⟨disk, past⟩)
      | some (.file id) =>
        if truncate then (.ok id, ⟨disk.apply (.resize id 0), .resize id 0 :: past⟩)
        else (.ok id, ⟨disk, past⟩) := by
  unfold openForWriting
  rw [run_look_bind, h.locate_eq]
  dsimp only
  rw [if_neg (by simp), run_look_bind, h.entry_eq]
  rcases disk.node? path.place with _ | _ | id
  · rfl
  · rfl
  · cases truncate <;> rfl

/-- What moving a file does where both paths lead to names. -/
theorem run_rename {disk : Disk} {source target : Path} (hsource : disk.Reaches source)
    (htarget : disk.Reaches target) (past : List Effect) :
    (rename source target).run.run ⟨disk, past⟩ =
      match disk.node? source.place with
      | none => (.error (.io .notFound), ⟨disk, past⟩)
      | some .directory => (.error (.io .isADirectory), ⟨disk, past⟩)
      | some (.file _) =>
        if source.place = target.place then (.ok (), ⟨disk, past⟩)
        else if disk.node? target.place = some .directory then
          (.error (.io .isADirectory), ⟨disk, past⟩)
        else (.ok (), ⟨disk.apply (.rename source.place target.place),
          .rename source.place target.place :: past⟩) := by
  unfold rename
  rw [run_look_bind, hsource.locate_eq]
  dsimp only
  rw [run_look_bind, htarget.locate_eq]
  dsimp only
  rw [run_look_bind, hsource.entry_eq]
  rcases disk.node? source.place with _ | _ | id
  · rfl
  · rfl
  · dsimp only
    rw [run_look_bind, htarget.entry_eq]
    dsimp only
    rw [if_neg (by simp)]
    split
    · rfl
    · split <;> rfl

/-- What removing a file does where the path leads to a name. -/
theorem run_remove {disk : Disk} {path : Path} (h : disk.Reaches path) (past : List Effect) :
    (remove path).run.run ⟨disk, past⟩ =
      match disk.node? path.place with
      | none => (.error (.io .notFound), ⟨disk, past⟩)
      | some .directory => (.error (.io .isADirectory), ⟨disk, past⟩)
      | some (.file _) => (.ok (), ⟨disk.apply (.remove path.place), .remove path.place :: past⟩) := by
  unfold remove
  rw [run_look_bind, h.locate_eq]
  dsimp only
  rw [run_look_bind, h.entry_eq]
  rcases disk.node? path.place with _ | _ | id <;> rfl

/-- What reading a file that may be missing does where the path leads to a name. -/
theorem run_contentsOf? {disk : Disk} {path : Path} (h : disk.Reaches path) (past : List Effect) :
    (contentsOf? path).run.run ⟨disk, past⟩ =
      (match disk.node? path.place with
        | none => .ok none
        | some .directory => .error (.io .isADirectory)
        | some (.file id) => .ok (some (disk.contents id)), ⟨disk, past⟩) := by
  have hread : disk.read path = match disk.node? path.place with
      | none => .error .notFound
      | some .directory => .error .isADirectory
      | some (.file id) => .ok (disk.contents id) := by
    rw [Disk.read, Disk.fileAt, h.nodeAt_eq]
    rcases disk.node? path.place with _ | _ | id <;> rfl
  have hcurrent : current.run ⟨disk, past⟩ = (disk, ⟨disk, past⟩) := rfl
  rw [contentsOf?, run_lift_bind, hcurrent]
  dsimp only
  rw [hread]
  rcases disk.node? path.place with _ | _ | id <;> rfl

/-- Where the directory that is to hold a file is there, nothing is made. -/
theorem run_makeParent {disk : Disk} {path : Path} (h : disk.HasParent path) (past : List Effect) :
    (makeParent path).run.run ⟨disk, past⟩ = (.ok (), ⟨disk, past⟩) := by
  unfold makeParent
  split
  · rfl
  rename_i parent hpath
  unfold makeDirectories
  split
  · rfl
  rename_i hne
  have hdirectory := (h parent hpath).resolve_left hne
  have hnode : disk.nodeAt parent = .ok .directory := by
    unfold Disk.isDirectory at hdirectory
    split at hdirectory
    · assumption
    · cases hdirectory
  -- the name is taken, by the directory itself
  have hmade : (makeDirectory parent).run.run ⟨disk, past⟩ =
      (.error (.io .alreadyExists), ⟨disk, past⟩) := by
    unfold makeDirectory
    rw [run_look_bind]
    cases hlocate : disk.locate parent with
    | error => simp [Disk.nodeAt, hlocate, bind, Except.bind] at hnode
    | ok target =>
      cases target with
      | directory => rfl
      | name place slashes =>
        dsimp only
        rw [run_look_bind]
        cases hentry : disk.entry place with
        | error => simp [Disk.nodeAt, hlocate, hentry, bind, Except.bind] at hnode
        | ok node =>
          cases node with
          | none => simp [Disk.nodeAt, hlocate, hentry, bind, Except.bind] at hnode
          | some => rfl
  have hattempt : (attempt (makeDirectory parent)).run.run ⟨disk, past⟩ =
      (.ok (.error (.io .alreadyExists)), ⟨disk, past⟩) := by
    show (Except.ok ((makeDirectory parent).run.run ⟨disk, past⟩).1,
      ((makeDirectory parent).run.run ⟨disk, past⟩).2) = _
    rw [hmade]
  rw [Path.ancestors, makeChain, run_bind_of_ok hattempt]
  show ((if disk.isDirectory parent = true then pure () else
    throw (.io .alreadyExists) : DiskM Unit)).run.run ⟨disk, past⟩ = _
  rw [hdirectory]
  rfl

/-- A program that cannot fail does not fail as an operation either. -/
theorem run_liftM (program : StateM Drive α) (drive : Drive) :
    (liftM program : DiskM α).run.run drive = (.ok (program.run drive).1, (program.run drive).2) := rfl

/-- An effect that is about no name. -/
theorem follows_perform {effect : Effect} (hplaces : effect.places = ∅) :
    Follows paths roots (liftM (perform effect)) fun _ => True := by
  intro places clean blocked hblocked _ hready
  have hnode (place : Location) : (clean.apply effect).node? place = clean.node? place := by
    cases place with
    | nil => rfl
    | cons => exact Disk.getElem?_nodes_apply clean (hplaces ▸ Set.notMem_empty _)
  refine pursues_effect hblocked hready (fun _ => rfl) (fun _ => rfl) (fun place hdirectory => ?_) ?_
    fun _ _ => trivial
  · rw [hnode, hdirectory]
  · rw [hplaces]
    exact fun place => False.elim

theorem follows_write (id : FileId) (offset : Nat) (data : Bytes) :
    Follows paths roots (liftM (write id offset data)) fun _ => True :=
  follows_perform rfl

theorem follows_sync (id : FileId) : Follows paths roots (liftM (sync id)) fun _ => True :=
  follows_perform rfl

/-- The end of a file is the same on both disks. -/
theorem follows_append (id : FileId) (data : Bytes) :
    Follows paths roots (liftM (append id data)) fun _ => True := by
  intro places clean blocked hblocked hwell hready
  have hrun (disk : Disk) (past : List Effect) :
      (append id data).run ⟨disk, past⟩ = (write id (disk.contents id).length data).run ⟨disk, past⟩ :=
    StateT.run_bind current _ _
  have hpursues := follows_write id (clean.contents id).length data hblocked hwell hready
  intro past past'
  obtain ⟨outcome, effects, outcome', effects', hwrite, hwrite', hrest⟩ := hpursues past past'
  refine ⟨outcome, effects, outcome', effects', ?_, ?_, hrest⟩
  · rw [← hwrite, run_liftM, run_liftM, hrun]
  · rw [← hwrite', run_liftM, run_liftM, hrun, hblocked.contents_eq]

/-- To open a file for writing follows its run on the clean disk, if the path is one of these. -/
theorem follows_openForWriting {path : Path} (hpath : path ∈ paths) (truncate : Bool) :
    Follows paths roots (openForWriting path truncate) fun _ => True := by
  intro places clean blocked hblocked hwell hready
  have hreaches := hready.reaches hpath
  have hrun := run_openForWriting hreaches truncate
  have hrun' := run_openForWriting (hreaches.mono hblocked.keepsDirectories) truncate
  by_cases hplace : path.place ∈ places
  · -- the file would be a new one
    rw [hblocked.vacant hplace] at hrun
    rw [hblocked.node?_of_mem hplace] at hrun'
    exact @pursues_stopped _ _ _ _ _ _ _ _ _ hblocked hready [.create path.place] _ hrun hrun'
      (Disk.becomes_create hwell (hblocked.vacant hplace)).keepsDirectories fun _ _ => trivial
  rw [hblocked.node?_of_notMem hplace] at hrun'
  rcases hnode : clean.node? path.place with _ | _ | id <;> rw [hnode] at hrun hrun'
  · rw [hblocked.nextFile_eq] at hrun'
    refine pursues_effect hblocked hready hrun hrun'
      (Disk.becomes_create hwell hnode).keepsDirectories ?_ fun _ _ => trivial
    rintro place rfl
    exact hplace
  · exact pursues_unchanged hblocked hready hrun hrun' fun _ _ => trivial
  · cases truncate with
    | true =>
      exact pursues_effect hblocked hready hrun hrun' (fun _ hsame => hsame) (fun _ => False.elim)
        fun _ _ => trivial
    | false => exact pursues_unchanged hblocked hready hrun hrun' fun _ _ => trivial

theorem follows_create {path : Path} (hpath : path ∈ paths) :
    Follows paths roots (create path) fun _ => True :=
  follows_openForWriting hpath true

theorem follows_openAppend {path : Path} (hpath : path ∈ paths) :
    Follows paths roots (openAppend path) fun _ => True :=
  follows_openForWriting hpath false

/-- So does reading a file that need not be there. -/
theorem follows_contentsOf? {path : Path} (hpath : path ∈ paths) :
    Follows paths roots (contentsOf? path) fun _ => True := by
  intro places clean blocked hblocked _ hready
  have hreaches := hready.reaches hpath
  have hrun := run_contentsOf? hreaches
  have hrun' := run_contentsOf? (hreaches.mono hblocked.keepsDirectories)
  by_cases hplace : path.place ∈ places
  · rw [hblocked.node?_of_mem hplace] at hrun'
    exact @pursues_stopped _ _ _ _ _ _ _ _ _ hblocked hready [] _ hrun hrun' (fun _ hsame => hsame)
      fun _ _ => trivial
  · rw [hblocked.node?_of_notMem hplace] at hrun'
    simp only [hblocked.contents_eq] at hrun'
    exact pursues_unchanged hblocked hready hrun hrun' fun _ _ => trivial

/-- So does a change of names between two such paths. -/
theorem follows_rename {source target : Path} (hsource : source ∈ paths) (htarget : target ∈ paths) :
    Follows paths roots (rename source target) fun _ => True := by
  intro places clean blocked hblocked hwell hready
  have hkeeps := hblocked.keepsDirectories
  have hrun := run_rename (hready.reaches hsource) (hready.reaches htarget)
  have hrun' := run_rename ((hready.reaches hsource).mono hkeeps) ((hready.reaches htarget).mono hkeeps)
  by_cases hplace : source.place ∈ places
  · rw [hblocked.vacant hplace] at hrun
    rw [hblocked.node?_of_mem hplace] at hrun'
    exact @pursues_stopped _ _ _ _ _ _ _ _ _ hblocked hready [] _ hrun hrun' (fun _ hsame => hsame)
      fun _ _ => trivial
  rw [hblocked.node?_of_notMem hplace] at hrun'
  rcases hnode : clean.node? source.place with _ | _ | id <;> rw [hnode] at hrun hrun' <;>
    dsimp only at hrun hrun'
  · exact pursues_unchanged hblocked hready hrun hrun' fun _ _ => trivial
  · exact pursues_unchanged hblocked hready hrun hrun' fun _ _ => trivial
  by_cases hsame : source.place = target.place
  · simp only [if_pos hsame] at hrun hrun'
    exact pursues_unchanged hblocked hready hrun hrun' fun _ _ => trivial
  simp only [if_neg hsame] at hrun hrun'
  by_cases hplace' : target.place ∈ places
  · -- the new name is taken by a directory where the clean disk has nothing
    have hsafe : clean.node? target.place ≠ some .directory := by simp [hblocked.vacant hplace']
    simp only [if_neg hsafe] at hrun
    simp only [if_pos (hblocked.node?_of_mem hplace')] at hrun'
    exact @pursues_stopped _ _ _ _ _ _ _ _ _ hblocked hready [.rename source.place target.place] _ hrun
      hrun' (Disk.becomes_rename hwell hnode hsafe).keepsDirectories fun _ _ => trivial
  rw [hblocked.node?_of_notMem hplace'] at hrun'
  by_cases hsafe : clean.node? target.place = some .directory
  · simp only [if_pos hsafe] at hrun hrun'
    exact pursues_unchanged hblocked hready hrun hrun' fun _ _ => trivial
  · simp only [if_neg hsafe] at hrun hrun'
    refine pursues_effect hblocked hready hrun hrun'
      (Disk.becomes_rename hwell hnode hsafe).keepsDirectories ?_ fun _ _ => trivial
    rintro place (rfl | rfl)
    · exact hplace
    · exact hplace'

/-- A file is removed if it is there. -/
theorem follows_removeIfThere {path : Path} (hpath : path ∈ paths) {operation : DiskM Unit}
    (hoperation : ∀ drive, operation.run.run drive = (match (remove path).run.run drive with
      | (.error (.io .notFound), last) => (.ok (), last)
      | result => result)) : Follows paths roots operation fun _ => True := by
  intro places clean blocked hblocked hwell hready
  have hreaches := hready.reaches hpath
  have hrun (past : List Effect) := hoperation ⟨clean, past⟩
  have hrun' (past : List Effect) := hoperation ⟨blocked, past⟩
  simp only [run_remove hreaches] at hrun
  simp only [run_remove (hreaches.mono hblocked.keepsDirectories)] at hrun'
  -- a directory in the way stops the blocked run before it has any effect
  by_cases hplace : path.place ∈ places
  · rw [hblocked.vacant hplace] at hrun
    rw [hblocked.node?_of_mem hplace] at hrun'
    exact @pursues_stopped _ _ _ _ _ _ _ _ _ hblocked hready [] _ hrun hrun' (fun _ hsame => hsame)
      fun _ _ => trivial
  rw [hblocked.node?_of_notMem hplace] at hrun'
  -- elsewhere both runs find the same: nothing, a directory, or the file
  rcases hnode : clean.node? path.place with _ | _ | id <;> rw [hnode] at hrun hrun'
  · exact pursues_unchanged hblocked hready hrun hrun' fun _ _ => trivial
  · exact pursues_unchanged hblocked hready hrun hrun' fun _ _ => trivial
  · refine pursues_effect hblocked hready hrun hrun'
      (Disk.becomes_remove hwell hnode).keepsDirectories ?_ fun _ _ => trivial
    rintro place rfl
    exact hplace

/-- To make the parent of a root follows its run on the clean disk. -/
theorem follows_makeParent {path : Path} (hpath : path ∈ roots) :
    Follows paths roots (makeParent path) fun _ => True := by
  intro places clean blocked hblocked _ hready
  have hparent := hready.parent hpath
  exact pursues_unchanged hblocked hready (run_makeParent hparent)
    (run_makeParent (hparent.mono hblocked.keepsDirectories)) fun _ _ => trivial

/-- To replace a file by way of the one beside it follows its run on the clean disk. -/
theorem follows_replaceFile {path : Path} {extension : List Char} (hpath : path ∈ paths)
    (hbeside : path.replaceExtension extension ∈ paths) (contents : Bytes) :
    Follows paths roots (replaceFile path extension contents) fun _ => True :=
  (follows_create hbeside).bind fun id _ => (follows_write id 0 contents).bind fun _ _ =>
    (follows_sync id).bind fun _ _ => follows_rename hbeside hpath

end Drive

end BarrierStore
