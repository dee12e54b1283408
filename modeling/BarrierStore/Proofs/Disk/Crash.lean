import BarrierStore.Disk.Drive

/-!
# Runs and crashes

A run is a list of effects, and a crash in it leaves the disk after some of them, the last write
perhaps cut short. What a program does is therefore told by three things: what holds of every disk
that a crash may leave, what holds of the outcome, and what holds of the last disk.

The module introduces:

* `Disk.Crashes disk effects left` — a crash while these effects are performed leaves `left`;
* `Drive.Meets program start during after` — from `start`, every disk that a crash of the program
  may leave satisfies `during`, and its result and last disk satisfy `after`;
* `Drive.Achieves operation start during done failed` — the same for an operation that may fail,
  with a condition for its success and one for its failure.

Each way to put programs together has its rule: `Achieves.bind`, `achieves_foldlM` and so on. The
rules serve any history, since no operation looks at what was done before.

What comes of a run on a given disk is decided by carrying it out, also where one run goes on from what
another one has left: `decidableExistsOk` and the instances behind it.
-/

namespace BarrierStore

/-- A crash while these effects are performed on a disk leaves another one: the disk after some of
the effects, or after some of them and a part of a write. -/
inductive Disk.Crashes : (disk : Disk) → (effects : List Effect) → (left : Disk) → Prop
  /-- None of the effects was performed. -/
  | before (disk : Disk) (effects : List Effect) : Crashes disk effects disk
  /-- A write came as far as its first `count` bytes. -/
  | inside (disk : Disk) (id : FileId) (offset : Nat) (data : Bytes) (count : Nat)
      (rest : List Effect) :
      Crashes disk (.write id offset data :: rest) (disk.apply (.write id offset (data.take count)))
  /-- The first effect was performed. -/
  | after {disk : Disk} {effect : Effect} {rest : List Effect} {left : Disk} :
      Crashes (disk.apply effect) rest left → Crashes disk (effect :: rest) left

namespace Disk

/-- Effects may be carried out in two parts. -/
theorem applyAll_append (disk : Disk) (effects more : List Effect) :
    disk.applyAll (effects ++ more) = (disk.applyAll effects).applyAll more :=
  List.foldl_append

/-- A crash during two runs is one during the first or one during the second. -/
theorem Crashes.append {effects more : List Effect} {disk left : Disk}
    (h : disk.Crashes (effects ++ more) left) :
    disk.Crashes effects left ∨ (disk.applyAll effects).Crashes more left := by
  induction effects generalizing disk with
  | nil => exact .inr h
  | cons effect rest ih =>
    rw [List.cons_append] at h
    -- in front of the first effect or in it the second run has not begun
    cases h with
    | before => exact .inl (.before _ _)
    | inside _ id offset data count => exact .inl (.inside _ _ _ _ _ _)
    | after h => exact (ih h).imp .after id

/-- A crash may come after the last effect. -/
theorem crashes_applyAll (disk : Disk) (effects : List Effect) :
    disk.Crashes effects (disk.applyAll effects) := by
  induction effects generalizing disk with
  | nil => exact .before _ _
  | cons effect rest ih => exact .after (ih _)

/-- A crash may come between any two effects. -/
theorem crashes_take (disk : Disk) (effects : List Effect) (n : Nat) :
    disk.Crashes effects (disk.applyAll (effects.take n)) := by
  induction n generalizing disk effects with
  | zero => exact .before _ _
  | succ n ih =>
    cases effects with
    | nil => exact .before _ _
    | cons effect rest => exact .after (ih _ rest)

end Disk

namespace Drive

variable {α β : Type}

/-! ## Programs that cannot fail -/

/-- From `start`, every disk that a crash of the program may leave satisfies `during`, and the
program's result and last disk satisfy `after`. -/
def Meets (program : StateM Drive α) (start : Disk) (during : Disk → Prop)
    (after : α → Disk → Prop) : Prop :=
  ∀ past, ∃ effects, (program.run ⟨start, past⟩).2 = ⟨start.applyAll effects, effects.reverse ++ past⟩ ∧
    (∀ left, start.Crashes effects left → during left) ∧
    after (program.run ⟨start, past⟩).1 (start.applyAll effects)

variable {start : Disk} {during during' : Disk → Prop}

/-- A weaker specification is met, too. -/
theorem Meets.mono {program : StateM Drive α} {after after' : α → Disk → Prop}
    (h : Meets program start during after) (hduring : ∀ disk, during disk → during' disk)
    (hafter : ∀ a disk, during disk → after a disk → after' a disk) :
    Meets program start during' after' := by
  intro past
  obtain ⟨effects, hrun, hcrash, hlast⟩ := h past
  exact ⟨effects, hrun, fun left hleft => hduring left (hcrash left hleft),
    hafter _ _ (hcrash _ (start.crashes_applyAll effects)) hlast⟩

/-- So is one that asks less of the end. -/
theorem Meets.imp {program : StateM Drive α} {after after' : α → Disk → Prop}
    (h : Meets program start during after)
    (hafter : ∀ a disk, during disk → after a disk → after' a disk) :
    Meets program start during after' :=
  h.mono (fun _ hdisk => hdisk) hafter

/-- What does nothing meets what holds in front of it. -/
theorem meets_pure {a : α} {after : α → Disk → Prop} (hduring : during start)
    (hafter : after a start) : Meets (pure a) start during after := by
  intro past
  refine ⟨[], rfl, fun left hleft => ?_, hafter⟩
  cases hleft
  exact hduring

/-- Two programs meet their specifications one behind the other. -/
theorem Meets.bind {program : StateM Drive α} {next : α → StateM Drive β}
    {m : α → Disk → Prop} {after : β → Disk → Prop}
    (h : Meets program start during m)
    (hnext : ∀ a disk, during disk → m a disk → Meets (next a) disk during after) :
    Meets (program >>= next) start during after := by
  intro past
  obtain ⟨effects, hrun, hcrash, hmiddle⟩ := h past
  have hlast := hcrash _ (start.crashes_applyAll effects)
  -- the second program runs on the history that the first one left
  obtain ⟨more, hrun', hcrash', hafter⟩ := hnext _ _ hlast hmiddle (effects.reverse ++ past)
  have hwhole : (program >>= next).run ⟨start, past⟩ =
      (next (program.run ⟨start, past⟩).1).run
        ⟨start.applyAll effects, effects.reverse ++ past⟩ := by
    rw [← hrun]
    rfl
  refine ⟨effects ++ more, ?_, fun left hleft => ?_, ?_⟩
  · rw [hwhole, hrun', Disk.applyAll_append, List.reverse_append, List.append_assoc]
  · exact hleft.append.elim (hcrash left) (hcrash' left)
  · rw [hwhole, Disk.applyAll_append]
    exact hafter

/-- An effect other than a write happens as a whole or not at all. -/
theorem meets_perform {effect : Effect} {after : Unit → Disk → Prop}
    (hwhole : ∀ id offset data, effect ≠ .write id offset data) (hbefore : during start)
    (hduring : during (start.apply effect)) (hafter : after () (start.apply effect)) :
    Meets (perform effect) start during after := by
  intro past
  refine ⟨[effect], rfl, fun left hleft => ?_, hafter⟩
  cases hleft with
  | before => exact hbefore
  | inside _ id offset data => exact absurd rfl (hwhole id offset data)
  | after hleft =>
    cases hleft
    exact hduring

/-- A crash may cut a write short at any byte. -/
theorem meets_write {id : FileId} {offset : Nat} {data : Bytes} {after : Unit → Disk → Prop}
    (hbefore : during start)
    (hduring : ∀ count, during (start.apply (.write id offset (data.take count))))
    (hafter : after () (start.apply (.write id offset data))) :
    Meets (write id offset data) start during after := by
  intro past
  refine ⟨[.write id offset data], rfl, fun left hleft => ?_, hafter⟩
  cases hleft with
  | before => exact hbefore
  | inside _ _ _ _ count => exact hduring count
  | after hleft =>
    cases hleft
    simpa using hduring data.length

/-- A look at the disk changes nothing. -/
theorem meets_current {after : Disk → Disk → Prop} (hduring : during start)
    (hafter : after start start) : Meets current start during after := by
  intro past
  refine ⟨[], rfl, fun left hleft => ?_, hafter⟩
  cases hleft
  exact hduring

/-- A program that takes the disk goes on from the same one. -/
theorem meets_current_bind {next : Disk → StateM Drive β} {after : β → Disk → Prop}
    (hduring : during start) (h : Meets (next start) start during after) :
    Meets (current >>= next) start during after := by
  refine Meets.bind (m := fun disk last => start = disk ∧ start = last)
    (meets_current hduring ⟨rfl, rfl⟩) fun disk last _ hsame => ?_
  obtain ⟨rfl, rfl⟩ := hsame
  exact h

/-- What a program that meets a specification leaves, and what came of it. -/
theorem Meets.after_run {program : StateM Drive α} {after : α → Disk → Prop} {drive : Drive}
    (h : Meets program drive.disk during after) :
    after (program.run drive).1 (program.run drive).2.disk := by
  obtain ⟨effects, hrun, -, hafter⟩ := h drive.effects
  rw [hrun]
  exact hafter

/-- What a program meets holds behind its run. -/
theorem Meets.after_run_ofDisk {program : StateM Drive α} {after : α → Disk → Prop}
    (h : Meets program start during after) :
    after (program.run (ofDisk start)).1 (program.run (ofDisk start)).2.disk :=
  @Meets.after_run _ _ _ _ (ofDisk start) h

/-- A crash while a program runs on a fresh drive leaves a disk that its specification admits. -/
theorem Meets.during_crash {program : StateM Drive α} {after : α → Disk → Prop} {left : Disk}
    (h : Meets program start during after)
    (hleft : start.Crashes (program.run (ofDisk start)).2.effects.reverse left) : during left := by
  obtain ⟨effects, hrun, hcrash, -⟩ := h []
  rw [ofDisk, hrun] at hleft
  exact hcrash left (by simpa using hleft)

/-! ## Operations that may fail -/

/-- From `start`, every disk that a crash of the operation may leave satisfies `during`; its
answer and last disk satisfy `done`, or its fault and last disk satisfy `failed`. -/
def Achieves (operation : DiskM α) (start : Disk) (during : Disk → Prop)
    (done : α → Disk → Prop) (failed : Fault → Disk → Prop) : Prop :=
  Meets operation.run start during fun outcome disk =>
    match outcome with
    | .ok a => done a disk
    | .error fault => failed fault disk

variable {operation : DiskM α} {done done' : α → Disk → Prop} {failed failed' : Fault → Disk → Prop}

/-- A weaker specification is achieved, too. -/
theorem Achieves.mono (h : Achieves operation start during done failed)
    (hduring : ∀ disk, during disk → during' disk)
    (hdone : ∀ a disk, during disk → done a disk → done' a disk)
    (hfailed : ∀ fault disk, during disk → failed fault disk → failed' fault disk) :
    Achieves operation start during' done' failed' := by
  refine Meets.mono h hduring fun outcome disk hdisk => ?_
  cases outcome with
  | ok a => exact hdone a disk hdisk
  | error fault => exact hfailed fault disk hdisk

/-- So is one that asks less of either end. -/
theorem Achieves.imp (h : Achieves operation start during done failed)
    (hdone : ∀ a disk, during disk → done a disk → done' a disk)
    (hfailed : ∀ fault disk, during disk → failed fault disk → failed' fault disk) :
    Achieves operation start during done' failed' :=
  h.mono (fun _ hdisk => hdisk) hdone hfailed

theorem Achieves.imp_done (h : Achieves operation start during done failed)
    (hdone : ∀ a disk, during disk → done a disk → done' a disk) :
    Achieves operation start during done' failed :=
  h.imp hdone fun _ _ _ hfault => hfault

theorem Achieves.imp_failed (h : Achieves operation start during done failed)
    (hfailed : ∀ fault disk, during disk → failed fault disk → failed' fault disk) :
    Achieves operation start during done failed' :=
  h.imp (fun _ _ _ hdone => hdone) hfailed

/-- What does nothing achieves what holds in front of it. -/
theorem achieves_pure {a : α} (hduring : during start) (hdone : done a start) :
    Achieves (pure a) start during done failed :=
  meets_pure hduring hdone

/-- A failure achieves what holds in front of it. -/
theorem achieves_throw {fault : Fault} (hduring : during start) (hfailed : failed fault start) :
    Achieves (throw fault : DiskM α) start during done failed :=
  meets_pure hduring hfailed

/-- Two operations achieve their specifications one behind the other; if the first one fails, that is
all. -/
theorem Achieves.bind {next : α → DiskM β} {m : α → Disk → Prop} {done : β → Disk → Prop}
    (h : Achieves operation start during m failed)
    (hnext : ∀ a disk, during disk → m a disk →
      Achieves (next a) disk during done failed) :
    Achieves (operation >>= next) start during done failed := by
  rw [Achieves, ExceptT.run_bind]
  refine Meets.bind h fun outcome disk hdisk hmiddle => ?_
  cases outcome with
  | ok a => exact hnext a disk hdisk hmiddle
  | error fault => exact meets_pure hdisk hmiddle

/-- A program that cannot fail, as a step of an operation. -/
theorem achieves_lift {program : StateM Drive α} (h : Meets program start during done) :
    Achieves (liftM program : DiskM α) start during done failed := by
  have hrun : (liftM program : DiskM α).run = Except.ok <$> program := rfl
  rw [Achieves, hrun, map_eq_pure_bind]
  exact h.bind fun a disk hdisk hdone => meets_pure hdisk hdone

/-- An outcome that is known without a look at the disk. -/
theorem achieves_outcome {outcome : Except Fault α} (hduring : during start)
    (hdone : ∀ a, outcome = .ok a → done a start)
    (hfailed : ∀ fault, outcome = .error fault → failed fault start) :
    Achieves (liftM outcome : DiskM α) start during done failed := by
  cases outcome with
  | ok a => exact achieves_pure hduring (hdone a rfl)
  | error fault => exact achieves_throw hduring (hfailed fault rfl)

/-- A look at the disk gives the disk. -/
theorem achieves_current_bind {next : Disk → DiskM β} {done : β → Disk → Prop}
    (hduring : during start) (h : Achieves (next start) start during done failed) :
    Achieves ((liftM current : DiskM Disk) >>= next) start during done failed := by
  refine Achieves.bind (m := fun disk last => start = disk ∧ start = last)
    (achieves_lift (meets_current hduring ⟨rfl, rfl⟩)) fun disk last _ hsame => ?_
  obtain ⟨rfl, rfl⟩ := hsame
  exact h

/-- An operation that asks the disk goes on with the answer from the same disk. -/
theorem achieves_look_bind {question : Disk → Except IoFault α} {next : α → DiskM β}
    {done : β → Disk → Prop} (hduring : during start)
    (hfailed : ∀ cause, question start = .error cause → failed (.io cause) start)
    (hnext : ∀ a, question start = .ok a → Achieves (next a) start during done failed) :
    Achieves (look question >>= next) start during done failed := by
  have hlook : Achieves (look question) start during
      (fun a disk => question start = .ok a ∧ start = disk) failed := by
    refine achieves_current_bind hduring ?_
    cases hquestion : question start with
    | ok a => exact achieves_pure hduring ⟨rfl, rfl⟩
    | error cause => exact achieves_throw hduring (hfailed cause hquestion)
  refine hlook.bind fun a disk _ hanswer => ?_
  obtain ⟨hanswer, rfl⟩ := hanswer
  exact hnext a hanswer

/-- An operation whose failure is made a result does not fail. -/
theorem Achieves.attempt {done' : Except Fault α → Disk → Prop}
    (h : Achieves operation start during (fun a disk => done' (.ok a) disk)
      (fun fault disk => done' (.error fault) disk)) :
    Achieves (Drive.attempt operation) start during done' failed := by
  intro past
  obtain ⟨effects, hrun, hcrash, hafter⟩ := h past
  refine ⟨effects, hrun, hcrash, ?_⟩
  revert hafter
  show (match (operation.run.run ⟨start, past⟩).1 with
    | .ok a => done' (.ok a) (start.applyAll effects)
    | .error fault => done' (.error fault) (start.applyAll effects)) → _
  intro hafter
  show done' (operation.run.run ⟨start, past⟩).1 (start.applyAll effects)
  split at hafter <;> rename_i heq <;> rw [heq] <;> exact hafter

/-- A loop keeps an invariant on what was worked off and what came of it. -/
theorem achieves_foldlM {step : β → α → DiskM β} {list : List α} {init : β}
    (inv : List α → β → Disk → Prop) (hduring : during start) (hinit : inv [] init start)
    (hstep : ∀ before a rest, list = before ++ a :: rest → ∀ b disk, during disk →
      inv before b disk → Achieves (step b a) disk during (inv (before ++ [a])) failed) :
    Achieves (list.foldlM step init) start during (inv list) failed := by
  -- by induction on what is left, for any part that was worked off
  suffices hloop : ∀ rest before b disk, list = before ++ rest → during disk →
      inv before b disk → Achieves (rest.foldlM step b) disk during (inv list) failed from
    hloop list [] init start rfl hduring hinit
  intro rest
  induction rest with
  | nil =>
    intro before b disk hlist hdisk hinv
    rw [List.append_nil] at hlist
    exact achieves_pure hdisk (hlist ▸ hinv)
  | cons a rest ih =>
    intro before b disk hlist hdisk hinv
    rw [List.foldlM_cons]
    refine (hstep before a rest hlist b disk hdisk hinv).bind fun b' disk' hdisk' hinv' => ?_
    exact ih (before ++ [a]) b' disk' (by simp [hlist]) hdisk' hinv'

/-- A loop for its effects only keeps an invariant on what was worked off. -/
theorem achieves_forM {step : α → DiskM Unit} {list : List α} (inv : List α → Disk → Prop)
    (hduring : during start) (hinit : inv [] start)
    (hstep : ∀ before a rest, list = before ++ a :: rest → ∀ disk, during disk →
      inv before disk → Achieves (step a) disk during (fun _ => inv (before ++ [a])) failed) :
    Achieves (list.forM step) start during (fun _ => inv list) failed := by
  suffices hloop : ∀ rest before disk, list = before ++ rest → during disk →
      inv before disk → Achieves (rest.forM step) disk during (fun _ => inv list) failed from
    hloop list [] start rfl hduring hinit
  intro rest
  induction rest with
  | nil =>
    intro before disk hlist hdisk hinv
    rw [List.append_nil] at hlist
    exact achieves_pure hdisk (hlist ▸ hinv)
  | cons a rest ih =>
    intro before disk hlist hdisk hinv
    refine (hstep before a rest hlist disk hdisk hinv).bind fun _ disk' hdisk' hinv' => ?_
    exact ih (before ++ [a]) disk' (by simp [hlist]) hdisk' hinv'

/-! ## Runs that go well -/

/-- Behind a step that goes well, the next one goes on. -/
theorem run_bind_of_ok {next : α → DiskM β} {a : α} {drive middle : Drive}
    (h : operation.run.run drive = (.ok a, middle)) :
    (operation >>= next).run.run drive = (next a).run.run middle := by
  rw [ExceptT.run_bind, StateT.run_bind, h]
  rfl

/-- Behind a step that fails, nothing is done. -/
theorem run_bind_error {next : α → DiskM β} {fault : Fault} {drive middle : Drive}
    (h : operation.run.run drive = (.error fault, middle)) :
    (operation >>= next).run.run drive = (.error fault, middle) := by
  rw [ExceptT.run_bind, StateT.run_bind, h]
  rfl

theorem run_lift_bind (program : StateM Drive α) (next : α → DiskM β) (drive : Drive) :
    ((liftM program : DiskM α) >>= next).run.run drive =
      (next (program.run drive).1).run.run (program.run drive).2 := rfl

/-- An operation in two steps that goes well has gone well in each. -/
theorem run_bind_ok {operation : DiskM α} {next : α → DiskM β} {drive last : Drive} {b : β}
    (h : (operation >>= next).run.run drive = (.ok b, last)) :
    ∃ a middle, operation.run.run drive = (.ok a, middle) ∧ (next a).run.run middle = (.ok b, last) := by
  simp only [ExceptT.run_bind, StateT.run_bind] at h
  rcases hrun : operation.run.run drive with ⟨fault | a, middle⟩ <;> rw [hrun] at h
  · cases h
  · exact ⟨a, middle, rfl, h⟩

/-- As an operation, a program that cannot fail gives what it gives on its own. -/
theorem run_of_run_lift {program : StateM Drive α} {drive last : Drive} {a : α}
    (h : (liftM program : DiskM α).run.run drive = (.ok a, last)) : program.run drive = (a, last) := by
  obtain ⟨hresult, hlast⟩ := Prod.mk.inj h
  exact Prod.ext (Except.ok.inj hresult) hlast

/-! ## Runs on a given disk -/

/-- Whether a run goes well, and what it leads to is such, is found out by carrying it out. -/
instance decidableExistsOk {ε σ : Type} {run : Except ε α × σ} {such : α → σ → Prop}
    [∀ a last, Decidable (such a last)] : Decidable (∃ a last, run = (.ok a, last) ∧ such a last) :=
  match run with
  | (.ok a, last) => decidable_of_iff (such a last)
      ⟨fun h => ⟨a, last, rfl, h⟩, fun ⟨_, _, heq, h⟩ => by cases heq; exact h⟩
  | (.error _, _) => .isFalse fun ⟨_, _, heq, _⟩ => nomatch heq

/-- So is whether it fails, and what that leads to. -/
instance decidableExistsError {ε σ : Type} {run : Except ε α × σ} {such : ε → σ → Prop}
    [∀ fault last, Decidable (such fault last)] :
    Decidable (∃ fault last, run = (.error fault, last) ∧ such fault last) :=
  match run with
  | (.ok _, _) => .isFalse fun ⟨_, _, heq, _⟩ => nomatch heq
  | (.error fault, last) => decidable_of_iff (such fault last)
      ⟨fun h => ⟨fault, last, rfl, h⟩, fun ⟨_, _, heq, h⟩ => by cases heq; exact h⟩

/-- So is whether a run has this outcome. -/
instance decidableExistsOutcome {γ σ : Type} {run : (β × γ) × σ} {c : γ} [DecidableEq γ]
    {such : β → σ → Prop} [∀ b last, Decidable (such b last)] :
    Decidable (∃ b last, run = ((b, c), last) ∧ such b last) :=
  match run with
  | ((b, found), last) => decidable_of_iff (found = c ∧ such b last)
      ⟨fun ⟨hfound, h⟩ => ⟨b, last, by rw [hfound], h⟩,
        fun ⟨_, _, heq, h⟩ => by cases heq; exact ⟨rfl, h⟩⟩

/-- And whether what a program leads to is such. -/
instance decidableExistsRun {σ : Type} {run : α × σ} {such : α → σ → Prop}
    [∀ a last, Decidable (such a last)] : Decidable (∃ a last, run = (a, last) ∧ such a last) :=
  match run with
  | (a, last) => decidable_of_iff (such a last)
      ⟨fun h => ⟨a, last, rfl, h⟩, fun ⟨_, _, heq, h⟩ => by cases heq; exact h⟩

/-- Whether a run goes well at all is found out in the same way. -/
instance decidableOk {ε σ : Type} {run : Except ε α × σ} : Decidable (∃ a last, run = (.ok a, last)) :=
  match run with
  | (.ok a, last) => .isTrue ⟨a, last, rfl⟩
  | (.error _, _) => .isFalse fun ⟨_, _, heq⟩ => nomatch heq

/-- So is whether it has this outcome, whatever it leads to. -/
instance decidableOutcome {γ σ : Type} {run : (β × γ) × σ} {c : γ} [DecidableEq γ] :
    Decidable (∃ b last, run = ((b, c), last)) :=
  match run with
  | ((b, found), last) => decidable_of_iff (found = c)
      ⟨fun hfound => ⟨b, last, by rw [hfound]⟩, fun ⟨_, _, heq⟩ => by cases heq; rfl⟩

end Drive

end BarrierStore
