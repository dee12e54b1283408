import BarrierStore.Proofs.Disk.Crash
import BarrierStore.Segment.Range

/-!
# What comes of an operation, whatever the disk

Some of what is known of an operation depends on no disk: which faults it may end with, and what its
answer looks like. A file that fails does so with a fault of its own kind, wherever it is.

The module introduces:

* `Drive.Ends operation done failed` — on any disk the answer of the operation is such, or its fault is.

Main statements: `Drive.Achieves.and_ends`, by which such knowledge is added to what is known on a disk,
and `Drive.ends_replaceFile` and its like on the operations that fail as files do.
-/

namespace BarrierStore

namespace Drive

variable {α β : Type} {operation : DiskM α} {done done' : α → Prop} {failed failed' : Fault → Prop}

/-- Whatever the disk, the answer of the operation is such, or its fault is. -/
def Ends (operation : DiskM α) (done : α → Prop) (failed : Fault → Prop) : Prop :=
  ∀ drive, match (operation.run.run drive).1 with
    | .ok a => done a
    | .error fault => failed fault

/-- An operation may also end in a weaker way. -/
theorem Ends.imp (h : Ends operation done failed) (hdone : ∀ a, done a → done' a)
    (hfailed : ∀ fault, failed fault → failed' fault) : Ends operation done' failed' := by
  intro drive
  have houtcome := h drive
  revert houtcome
  cases (operation.run.run drive).1 with
  | ok a => exact hdone a
  | error fault => exact hfailed fault

/-- What does nothing ends with its value. -/
theorem ends_pure {a : α} (h : done a) : Ends (pure a : DiskM α) done failed :=
  fun _ => h

/-- A failure ends with its fault. -/
theorem ends_throw {fault : Fault} (h : failed fault) : Ends (throw fault : DiskM α) done failed :=
  fun _ => h

/-- A program that cannot fail, as a step of an operation of which no answer is asked. -/
theorem ends_lift (program : StateM Drive α) :
    Ends (liftM program : DiskM α) (fun _ => True) failed :=
  fun _ => trivial

/-- The same where something is known of its answer. -/
theorem ends_lift_of {program : StateM Drive α} (h : ∀ drive, done (program.run drive).1) :
    Ends (liftM program : DiskM α) done failed :=
  fun drive => h drive

/-- An outcome that is known without a look at the disk. -/
theorem ends_outcome {outcome : Except Fault α} (hdone : ∀ a, outcome = .ok a → done a)
    (hfailed : ∀ fault, outcome = .error fault → failed fault) :
    Ends (liftM outcome : DiskM α) done failed := by
  cases outcome with
  | ok a => exact ends_pure (hdone a rfl)
  | error fault => exact ends_throw (hfailed fault rfl)

/-- Two operations end one behind the other as the second one does, or as the first one fails. -/
theorem Ends.bind {next : α → DiskM β} {done' : β → Prop} (h : Ends operation done failed)
    (hnext : ∀ a, done a → Ends (next a) done' failed) : Ends (operation >>= next) done' failed := by
  intro drive
  have houtcome := h drive
  simp only [ExceptT.run_bind, StateT.run_bind]
  rcases hrun : operation.run.run drive with ⟨fault | a, middle⟩ <;> rw [hrun] at houtcome
  · exact houtcome
  · exact hnext a houtcome middle

/-- A loop keeps what is known of its state. -/
theorem ends_foldlM {step : β → α → DiskM β} {list : List α} {init : β} {inv : β → Prop}
    (hinit : inv init) (hstep : ∀ a ∈ list, ∀ b, inv b → Ends (step b a) inv failed) :
    Ends (list.foldlM step init) inv failed := by
  induction list generalizing init with
  | nil => exact ends_pure hinit
  | cons a rest ih =>
    rw [List.foldlM_cons]
    refine (hstep a List.mem_cons_self init hinit).bind fun b hb => ih hb fun other hother => ?_
    exact hstep other (List.mem_cons_of_mem _ hother)

/-- What comes of an operation on any disk comes of it on this one. -/
theorem Achieves.and_ends {start : Disk} {during : Disk → Prop} {after : α → Disk → Prop}
    {faulty : Fault → Disk → Prop} (h : Achieves operation start during after faulty)
    (hends : Ends operation done failed) :
    Achieves operation start during (fun a disk => after a disk ∧ done a)
      (fun fault disk => faulty fault disk ∧ failed fault) := by
  intro past
  obtain ⟨effects, hrun, hcrash, hafter⟩ := h past
  have houtcome := hends ⟨start, past⟩
  refine ⟨effects, hrun, hcrash, ?_⟩
  revert hafter houtcome
  cases (operation.run.run ⟨start, past⟩).1 with
  | ok a => exact fun hafter houtcome => ⟨hafter, houtcome⟩
  | error fault => exact fun hafter houtcome => ⟨hafter, houtcome⟩

/-- The same for a program that cannot fail. -/
theorem Meets.and_result {program : StateM Drive α} {start : Disk} {during : Disk → Prop}
    {after : α → Disk → Prop} (h : Meets program start during after) (known : α → Prop)
    (hknown : ∀ drive, known (program.run drive).1) :
    Meets program start during fun a disk => after a disk ∧ known a := by
  intro past
  obtain ⟨effects, hrun, hcrash, hafter⟩ := h past
  exact ⟨effects, hrun, hcrash, hafter, hknown _⟩

/-! ## The faults of files -/

section Files

variable (hio : ∀ cause, failed (.io cause))

include hio

/-- A question to the disk fails with a failure of a file. -/
theorem ends_look (question : Disk → Except IoFault α) :
    Ends (look question) (fun _ => True) failed := by
  refine (ends_lift current).bind fun disk _ => ?_
  cases question disk with
  | ok answer => exact ends_pure trivial
  | error cause => exact ends_throw (hio cause)

/-- To open a file for writing fails for a cause of the disk only. -/
theorem ends_openForWriting (path : Path) (truncate : Bool) :
    Ends (openForWriting path truncate) (fun _ => True) failed := by
  refine (ends_look hio _).bind fun found _ => ?_
  cases found with
  | directory => exact ends_throw (hio _)
  | name place slashes =>
    cases slashes with
    | true => exact ends_throw (hio _)
    | false =>
      refine (ends_look hio _).bind fun node _ => ?_
      rcases node with _ | _ | id
      · exact (ends_lift current).bind fun disk _ => (ends_lift _).bind fun _ _ => ends_pure trivial
      · exact ends_throw (hio _)
      · cases truncate with
        | true => exact (ends_lift _).bind fun _ _ => ends_pure trivial
        | false => exact ends_pure trivial

theorem ends_create (path : Path) : Ends (create path) (fun _ => True) failed :=
  ends_openForWriting hio path true

/-- So does reading a file that need not be there. -/
theorem ends_contentsOf? (path : Path) : Ends (contentsOf? path) (fun _ => True) failed := by
  refine (ends_lift current).bind fun disk _ => ?_
  split
  · exact ends_pure trivial
  · exact ends_pure trivial
  · exact ends_throw (hio _)

/-- So does a change of names. -/
theorem ends_rename (source target : Path) : Ends (rename source target) (fun _ => True) failed := by
  refine (ends_look hio _).bind fun old _ => (ends_look hio _).bind fun new _ => ?_
  split
  · refine (ends_look hio _).bind fun node _ => ?_
    rcases node with _ | _ | id
    · exact ends_throw (hio _)
    · exact ends_throw (hio _)
    · refine (ends_look hio _).bind fun taken _ => ?_
      dsimp only
      split
      · exact ends_throw (hio _)
      split
      · exact ends_pure trivial
      split
      · exact ends_throw (hio _)
      · exact ends_lift _
  · exact ends_throw (hio _)

/-- So does replacing a file by way of the one beside it. -/
theorem ends_replaceFile (path : Path) (extension : List Char) (contents : Bytes) :
    Ends (replaceFile path extension contents) (fun _ => True) failed :=
  (ends_create hio _).bind fun _ _ => (ends_lift _).bind fun _ _ => (ends_lift _).bind fun _ _ =>
    ends_rename hio _ _

/-- So does removing a link. -/
theorem ends_remove (path : Path) : Ends (remove path) (fun _ => True) failed := by
  refine (ends_look hio _).bind fun found _ => ?_
  cases found with
  | directory => exact ends_throw (hio _)
  | name place slashes =>
    refine (ends_look hio _).bind fun node _ => ?_
    rcases node with _ | _ | id
    · exact ends_throw (hio _)
    · exact ends_throw (hio _)
    · cases slashes with
      | true => exact ends_throw (hio _)
      | false => exact ends_lift _

omit hio in
/-- A fault that an attempt finds is one that the operation may end with. -/
theorem ends_attempt (h : Ends operation (fun _ => True) failed) :
    Ends (attempt operation) (fun outcome => ∀ fault, outcome = .error fault → failed fault) failed := by
  intro drive
  have houtcome := h drive
  show ∀ fault, (operation.run.run drive).1 = .error fault → failed fault
  rintro fault hfault
  rw [hfault] at houtcome
  exact houtcome

/-- So does making a directory. -/
theorem ends_makeDirectory (path : Path) : Ends (makeDirectory path) (fun _ => True) failed := by
  refine (ends_look hio _).bind fun found _ => ?_
  cases found with
  | directory => exact ends_throw (hio _)
  | name place slashes =>
    refine (ends_look hio _).bind fun node _ => ?_
    cases node with
    | none => exact ends_lift _
    | some => exact ends_throw (hio _)

omit hio in
/-- A check that a directory is there fails with its own fault, if at all. -/
theorem ends_unless {path : Path} {fault : Fault} (h : failed fault) :
    Ends (do unless (← current).isDirectory path do throw fault) (fun _ => True) failed := by
  refine (ends_lift current).bind fun disk _ => ?_
  split
  · exact ends_pure trivial
  · exact ends_throw h

/-- To make a chain of directories fails for a cause of the disk only. -/
theorem ends_makeChain (chain : List Path) : Ends (makeChain chain) (fun _ => True) failed := by
  induction chain with
  | nil => exact ends_pure trivial
  | cons path above ih =>
    rw [makeChain]
    refine (ends_attempt (ends_makeDirectory hio path)).bind fun outcome hfailed => ?_
    split
    · exact ends_pure trivial
    · -- the directories above come first, and then this one is made or there
      refine ih.bind fun _ _ => (ends_attempt (ends_makeDirectory hio path)).bind
        fun outcome hfailed => ?_
      split
      · exact ends_pure trivial
      · exact ends_unless (hfailed _ rfl)
    · exact ends_unless (hfailed _ rfl)

/-- So does making the parent of a file. -/
theorem ends_makeParent (path : Path) : Ends (makeParent path) (fun _ => True) failed := by
  unfold makeParent
  split
  · exact ends_pure trivial
  · unfold makeDirectories
    split
    · exact ends_pure trivial
    · exact ends_makeChain hio _

/-- To read a text fails for a cause of the disk only. -/
theorem ends_readText? (path : Path) : Ends (readText? path) (fun _ => True) failed := by
  refine (ends_contentsOf? hio path).bind fun contents _ => ?_
  cases contents with
  | none => exact ends_pure trivial
  | some contents =>
    dsimp only
    split
    · exact ends_pure trivial
    · exact ends_throw (hio _)

end Files

end Drive

end BarrierStore
