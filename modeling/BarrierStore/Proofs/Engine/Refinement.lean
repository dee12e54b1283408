import BarrierStore.Proofs.Engine.Session

/-!
# An engine is two maps

To its user a store is a map of values and a map of numbers, each with the writes that wait for a
barrier. Where the records lie, how often the store was closed or lost its process, and what recovery
had to move cannot be seen.

The module introduces:

* `Layers` and `Maps` — a map with what is to be laid over it, and two of them: the model of a store;
* `Call`, `Report` — what a user may do, and what the user sees then;
* `Maps.reports`, `Engine.run` — the reports of the model and of the engine on a list of calls;
* `Engine.Shows` — an engine with its files shows these maps.

Main statements: `Engine.Shows.call`, on one call, and `Engine.run_eq`, on all of them.
-/

namespace BarrierStore

open Drive

/-! ## The model -/

/-- A map, and what is to be laid over it at the next barrier. -/
structure Layers (α : Type) where
  /-- What is visible. -/
  applied : Std.ExtTreeMap Bytes α
  /-- What waits for a barrier. -/
  staged : Std.ExtTreeMap Bytes α

namespace Layers

variable {α : Type}

/-- Nothing is visible, and nothing waits. -/
def empty : Layers α := ⟨∅, ∅⟩

/-- A write waits; it outdates one of the same key that waits. -/
def put (layers : Layers α) (key : Bytes) (value : α) : Layers α :=
  { layers with staged := layers.staged.insert key value }

/-- What waits is laid over what is visible. -/
def barrier (layers : Layers α) : Layers α :=
  ⟨layers.applied ∪ layers.staged, ∅⟩

end Layers

/-- What a store amounts to. -/
structure Maps where
  values : Layers Bytes
  numbers : Layers UInt64

/-- What the user of a store may do. A crash and a close are followed by another opening. -/
inductive Call where
  | put (key value : Bytes)
  | putNumber (key : Bytes) (number : UInt64)
  | sync
  | get (key : Bytes)
  | getNumber (key : Bytes)
  | execute (command : Command)
  | crash
  | close

/-- What the user gets from a call. -/
inductive Answer where
  /-- The call is done. -/
  | done
  /-- The answer to a lookup of a value. -/
  | value (outcome : Except Fault (Option Bytes))
  /-- The answer to a lookup of a number. -/
  | number (number : Option UInt64)
  /-- The answer to a command. -/
  | outcome (outcome : Except Fault Outcome)

/-- What the user sees after a call: the answer, and how many keys there are. -/
structure Report where
  answer : Answer
  keyCount : Nat
  pendingCount : Nat
  numberCount : Nat

/-- A written record has lengths that fit their eight bytes, as the lengths of all byte strings in
memory do. -/
def Call.Small : Call → Prop
  | .put key value => Record.Small ⟨key, value⟩
  | .execute (.put key value) => Record.Small ⟨key, value⟩
  | _ => True

instance : (call : Call) → Decidable call.Small
  | .put key value => inferInstanceAs (Decidable (Record.Small ⟨key, value⟩))
  | .execute (.put key value) => inferInstanceAs (Decidable (Record.Small ⟨key, value⟩))
  | .execute (.get _) | .execute .ping | .execute (.putNumber _ _) | .execute (.getNumber _) =>
    .isTrue trivial
  | .putNumber _ _ | .sync | .get _ | .getNumber _ | .crash | .close => .isTrue trivial

namespace Maps

/-- The maps of a new store. -/
def empty : Maps := ⟨.empty, .empty⟩

/-- A value waits. -/
def put (maps : Maps) (key value : Bytes) : Maps :=
  { maps with values := maps.values.put key value }

/-- A number waits. -/
def putNumber (maps : Maps) (key : Bytes) (number : UInt64) : Maps :=
  { maps with numbers := maps.numbers.put key number }

/-- One barrier covers both maps. -/
def barrier (maps : Maps) : Maps :=
  ⟨maps.values.barrier, maps.numbers.barrier⟩

/-- Carry out a command. -/
def execute (maps : Maps) : Command → Maps × Outcome
  | .get key => (maps, .value maps.values.applied[key]?)
  | .put key value => (maps.put key value, .staged)
  | .ping => (maps, .pong)
  | .putNumber key number => (maps.putNumber key number, .staged)
  | .getNumber key => (maps, .number maps.numbers.applied[key]?)

/-- Carry out a call. What was written before a crash or a close is visible after it. -/
def call (maps : Maps) : Call → Maps × Answer
  | .put key value => (maps.put key value, .done)
  | .putNumber key number => (maps.putNumber key number, .done)
  | .sync | .crash | .close => (maps.barrier, .done)
  | .get key => (maps, .value (.ok maps.values.applied[key]?))
  | .getNumber key => (maps, .number maps.numbers.applied[key]?)
  | .execute command => ((maps.execute command).1, .outcome (.ok (maps.execute command).2))

/-- A barrier makes nothing of nothing. -/
theorem barrier_empty : empty.barrier = empty := rfl

/-- What the user sees of the maps. -/
def report (maps : Maps) (answer : Answer) : Report :=
  ⟨answer, maps.values.applied.size, maps.values.staged.size, maps.numbers.applied.size⟩

/-- The reports on a list of calls. -/
def reports : (maps : Maps) → (calls : List Call) → List Report
  | _, [] => []
  | maps, call :: rest =>
    (maps.call call).1.report (maps.call call).2 :: reports (maps.call call).1 rest

end Maps

namespace Engine

/-- What the user sees of an engine. -/
def report (engine : Engine) (answer : Answer) : Report :=
  ⟨answer, engine.keyCount, engine.pendingCount, engine.numberCount⟩

/-- Carry out a call. The faults of lookups are answers; any other fault ends the run. -/
def call (config : Config) (engine : Engine) : Call → DiskM (Engine × Answer)
  | .put key value => do
    let (engine, outcome) ← engine.put key value
    match outcome with
    | .ok () => return (engine, .done)
    | .error fault => throw fault
  | .putNumber key number => do
    let engine ← engine.putNumber key number
    return (engine, .done)
  | .sync => do
    let engine ← engine.sync
    return (engine, .done)
  | .get key => do
    let disk ← Drive.current
    return (engine, .value (engine.get disk key))
  | .getNumber key => return (engine, .number (engine.getNumber key))
  | .execute command => do
    let (engine, outcome) ← engine.execute command
    match command, outcome with
    | .put .., .error fault => throw fault
    | _, _ => return (engine, .outcome outcome)
  | .crash => do
    let engine ← Engine.openWith config
    return (engine, .done)
  | .close => do
    engine.close
    let engine ← Engine.openWith config
    return (engine, .done)

/-- The reports on a list of calls. -/
def reports (config : Config) : (engine : Engine) → (calls : List Call) → DiskM (List Report)
  | _, [] => return []
  | engine, call :: rest => do
    let (engine, answer) ← engine.call config call
    let later ← reports config engine rest
    return engine.report answer :: later

/-- Open a store, and carry out a list of calls. -/
def run (config : Config) (calls : List Call) : DiskM (List Report) := do
  let engine ← Engine.openWith config
  engine.reports config calls

end Engine

/-! ## Bindings and layers -/

/-- The layers bind what these lists do, those that a barrier has covered in front. -/
structure Layers.Shows {α : Type} (layers : Layers α) (applied staged : List (Bytes × α)) : Prop where
  applied_eq (key : Bytes) : latest applied key = layers.applied[key]?
  staged_eq (key : Bytes) : latest staged key = layers.staged[key]?

namespace Layers.Shows

variable {α : Type} {layers : Layers α} {applied staged : List (Bytes × α)}

/-- A binding is put into the upper layer. -/
theorem put (h : layers.Shows applied staged) (key : Bytes) (value : α) :
    (layers.put key value).Shows applied (staged ++ [(key, value)]) where
  applied_eq := h.applied_eq
  staged_eq other := by
    rw [latest_concat, h.staged_eq, Layers.put, Std.ExtTreeMap.getElem?_insert]
    exact if_congr (eq_comm.trans Std.compare_eq_iff_eq.symm) rfl rfl

/-- Whatever binds the same as both lists is shown after a barrier. -/
theorem barrier (h : layers.Shows applied staged) {all : List (Bytes × α)}
    (hall : ∀ key, latest all key = latest (applied ++ staged) key) : layers.barrier.Shows all [] where
  applied_eq key := by
    rw [hall, latest_append, h.applied_eq, h.staged_eq, Layers.barrier,
      Std.ExtTreeMap.getElem?_union]
  staged_eq key := by
    rw [latest_nil, Layers.barrier, Std.ExtTreeMap.getElem?_empty]

end Layers.Shows

theorem Layers.shows_empty {α : Type} : (Layers.empty : Layers α).Shows [] [] where
  applied_eq _ := Std.ExtTreeMap.getElem?_empty.symm
  staged_eq _ := Std.ExtTreeMap.getElem?_empty.symm

/-! ## The engine -/

namespace Engine

/-- The engine and its files show these maps. -/
def Shows (config : Config) (engine : Engine) (disk : Disk) (maps : Maps) : Prop :=
  ∃ origin base applied staged counted pending,
    Holds config engine disk origin base applied staged counted pending ∧
      maps.values.Shows (Found.bindings applied) (Found.bindings staged) ∧
      maps.numbers.Shows counted pending

variable {config : Config} {engine : Engine} {start disk : Disk} {maps : Maps}

namespace Shows

/-- The engine counts the keys of the maps. -/
theorem report_eq (h : Shows config engine disk maps) (answer : Answer) :
    engine.report answer = maps.report answer := by
  obtain ⟨origin, base, applied, staged, counted, pending, hholds, hvalues, hnumbers⟩ := h
  have hkeys : engine.keyCount = maps.values.applied.size := by
    refine size_eq_of_isSome fun key => ?_
    rw [hholds.log.applied_eq, getElem?_ofEntries, Found.isSome_latest_lines, hvalues.applied_eq]
  have hpending : engine.pendingCount = maps.values.staged.size := by
    refine size_eq_of_isSome fun key => ?_
    rw [hholds.log.staged_eq, getElem?_ofEntries, Found.isSome_latest_lines, hvalues.staged_eq]
  have hcounted : engine.numberCount = maps.numbers.applied.size := by
    refine size_eq_of_isSome fun key => ?_
    rw [hholds.numbers.applied_eq, getElem?_ofEntries, hnumbers.applied_eq]
  rw [report, Maps.report, hkeys, hpending, hcounted]

/-- Values are looked up as in the map. -/
theorem get_eq (h : Shows config engine disk maps) (key : Bytes) :
    engine.get disk key = .ok maps.values.applied[key]? := by
  obtain ⟨origin, base, applied, staged, counted, pending, hholds, hvalues, -⟩ := h
  rw [hholds.get_eq, hvalues.applied_eq]

/-- So are numbers. -/
theorem getNumber_eq (h : Shows config engine disk maps) (key : Bytes) :
    engine.getNumber key = maps.numbers.applied[key]? := by
  obtain ⟨origin, base, applied, staged, counted, pending, hholds, -, hnumbers⟩ := h
  rw [hholds.getNumber_eq, hnumbers.applied_eq]

section Calls

variable (hseparate : config.Separate) (hapart : config.Apart) (hvalid : config.validate = .ok ())

include hseparate hapart hvalid

/-- A value is put as into the map, unless there is no address for it. -/
theorem put (h : Shows config engine start maps) {key value : Bytes}
    (hsmall : Record.Small ⟨key, value⟩) :
    Meets (engine.put key value) start (fun _ => True) fun (engine', outcome) disk =>
      outcome = .error .arithmetic ∨
        outcome = .ok () ∧ Shows config engine' disk (maps.put key value) := by
  obtain ⟨origin, base, applied, staged, counted, pending, hholds, hvalues, hnumbers⟩ := h
  refine (hholds.put hseparate hapart hvalid hsmall).imp ?_
  rintro ⟨engine', outcome⟩ disk - (hfault | ⟨hdone, address, -, hholds'⟩)
  · exact .inl hfault
  refine .inr ⟨hdone, _, _, _, _, _, _, hholds', ?_, hnumbers⟩
  rw [Found.bindings_append]
  exact hvalues.put key value

omit hseparate hvalid in
/-- A number is put as into the map. -/
theorem putNumber (h : Shows config engine start maps) (key : Bytes) (number : UInt64) :
    Meets (engine.putNumber key number) start (fun _ => True) fun engine' disk =>
      Shows config engine' disk (maps.putNumber key number) := by
  obtain ⟨origin, base, applied, staged, counted, pending, hholds, hvalues, hnumbers⟩ := h
  refine (hholds.putNumber hapart key number).imp ?_
  rintro engine' disk - ⟨-, hholds'⟩
  exact ⟨_, _, _, _, _, _, hholds', hvalues, hnumbers.put key number⟩

omit hseparate hapart hvalid in
/-- A barrier shows what is staged, as in the maps. -/
theorem sync (h : Shows config engine start maps) :
    Meets engine.sync start (fun _ => True) fun engine' disk =>
      Shows config engine' disk maps.barrier := by
  obtain ⟨origin, base, applied, staged, counted, pending, hholds, hvalues, hnumbers⟩ := h
  refine hholds.sync.imp ?_
  rintro engine' disk - hholds'
  refine ⟨_, _, _, _, _, _, hholds', hvalues.barrier fun key => ?_, hnumbers.barrier fun _ => rfl⟩
  rw [Found.bindings_append]

/-- A command is carried out, unless there is no address for it. -/
theorem execute (h : Shows config engine start maps) {command : Command}
    (hsmall : (Call.execute command).Small) :
    Meets (engine.execute command) start (fun _ => True) fun (engine', outcome) disk =>
      (∃ key value, command = .put key value) ∧ outcome = .error .arithmetic ∨
        outcome = .ok (maps.execute command).2 ∧ Shows config engine' disk (maps.execute command).1 := by
  cases command with
  | get key =>
    refine meets_current_bind trivial ?_
    rw [h.get_eq]
    exact meets_pure trivial (.inr ⟨rfl, h⟩)
  | put key value =>
    refine Meets.bind (h.put hseparate hapart hvalid hsmall) ?_
    rintro ⟨engine', outcome⟩ disk - (rfl | ⟨rfl, hshows⟩)
    · exact meets_pure trivial (.inl ⟨⟨key, value, rfl⟩, rfl⟩)
    · exact meets_pure trivial (.inr ⟨rfl, hshows⟩)
  | ping => exact meets_pure trivial (.inr ⟨rfl, h⟩)
  | putNumber key number =>
    refine Meets.bind (h.putNumber hapart key number) ?_
    rintro engine' disk - hshows
    exact meets_pure trivial (.inr ⟨rfl, hshows⟩)
  | getNumber key =>
    rw [Engine.execute, h.getNumber_eq]
    exact meets_pure trivial (.inr ⟨rfl, h⟩)

/-- Files that say what the maps hold, visible or not, show it after an opening. -/
theorem of_stored {values waiting : List (Bytes × Bytes)} {counted pending : List (Bytes × UInt64)}
    (h : config.Stored start (latest (values ++ waiting)) (latest (counted ++ pending)))
    (hvalues : maps.values.Shows values waiting) (hnumbers : maps.numbers.Shows counted pending) :
    Achieves (Engine.openWith config) start (fun _ => True)
      (fun engine disk => Shows config engine disk maps.barrier)
      (fun fault _ => fault = .arithmetic) := by
  refine (achieves_openWith h hseparate hapart hvalid).imp_done ?_
  rintro engine disk - ⟨origin, base, applied, counted', hholds, hvalue, hnumber⟩
  exact ⟨_, _, _, _, _, _, hholds, hvalues.barrier hvalue, hnumbers.barrier hnumber⟩

/-- A call does to the engine what it does to the maps, and answers the same. -/
theorem call (h : Shows config engine start maps) {call : Call} (hsmall : call.Small) :
    Achieves (engine.call config call) start (fun _ => True)
      (fun state disk => state.2 = (maps.call call).2 ∧
        Shows config state.1 disk (maps.call call).1)
      (fun fault _ => fault = .arithmetic) := by
  cases call with
  | put key value =>
    refine Achieves.bind (achieves_lift (h.put hseparate hapart hvalid hsmall)) ?_
    rintro ⟨engine', outcome⟩ disk - (rfl | ⟨rfl, hshows⟩)
    · exact achieves_throw trivial rfl
    · exact achieves_pure trivial ⟨rfl, hshows⟩
  | putNumber key number =>
    refine Achieves.bind (achieves_lift (h.putNumber hapart key number)) ?_
    rintro engine' disk - hshows
    exact achieves_pure trivial ⟨rfl, hshows⟩
  | sync =>
    refine Achieves.bind (achieves_lift h.sync) ?_
    rintro engine' disk - hshows
    exact achieves_pure trivial ⟨rfl, hshows⟩
  | get key =>
    refine achieves_current_bind trivial ?_
    exact achieves_pure trivial ⟨congrArg _ (h.get_eq key), h⟩
  | getNumber key => exact achieves_pure trivial ⟨congrArg _ (h.getNumber_eq key), h⟩
  | execute command =>
    refine Achieves.bind (achieves_lift (h.execute hseparate hapart hvalid hsmall)) ?_
    rintro ⟨engine', outcome⟩ disk - (⟨⟨key, value, rfl⟩, rfl⟩ | ⟨rfl, hshows⟩)
    · exact achieves_throw trivial rfl
    · -- only a value that is put may fail
      cases command <;> exact achieves_pure trivial ⟨rfl, hshows⟩
  | crash =>
    obtain ⟨origin, base, applied, staged, counted, pending, hholds, hvalues, hnumbers⟩ := h
    have hstored := hholds.stored
    rw [Found.bindings_append] at hstored
    refine Achieves.bind (of_stored hseparate hapart hvalid hstored hvalues hnumbers) ?_
    rintro engine' disk - hshows
    exact achieves_pure trivial ⟨rfl, hshows⟩
  | close =>
    obtain ⟨origin, base, applied, staged, counted, pending, hholds, hvalues, hnumbers⟩ := h
    refine Achieves.bind ((hholds.close hseparate hapart).imp_failed fun _ _ _ => False.elim) ?_
    rintro _ disk - hstored
    rw [Found.bindings_append] at hstored
    refine Achieves.bind (of_stored hseparate hapart hvalid hstored hvalues hnumbers) ?_
    rintro engine' last - hshows
    exact achieves_pure trivial ⟨rfl, hshows⟩

/-- So does a list of calls. -/
theorem reports (h : Shows config engine start maps) {calls : List Call}
    (hsmall : ∀ call ∈ calls, call.Small) :
    Achieves (engine.reports config calls) start (fun _ => True)
      (fun reports _ => reports = maps.reports calls) (fun fault _ => fault = .arithmetic) := by
  -- on the calls, for the maps that the engine shows then
  induction calls generalizing engine start maps with
  | nil => exact achieves_pure trivial rfl
  | cons call rest ih =>
    refine Achieves.bind (h.call hseparate hapart hvalid (hsmall call List.mem_cons_self)) ?_
    rintro ⟨engine', answer⟩ disk - ⟨hanswer, hshows⟩
    refine Achieves.bind (ih hshows fun other hother =>
      hsmall other (List.mem_cons_of_mem _ hother)) ?_
    rintro later last - rfl
    refine achieves_pure trivial ?_
    rw [Maps.reports, ← hanswer, hshows.report_eq]

end Calls

end Shows

/-- A store in an empty directory is two maps to its user, whatever is done to it: a run reports what
the maps say, unless it runs out of addresses. -/
theorem run_eq {base : Config} {directory : Path} (hwell : start.WellFormed)
    (hempty : start.EmptyDirectory directory) (hcapacity : base.capacity ≠ 0)
    (hinterval : base.syncInterval ≠ 0) {calls : List Call} (hsmall : ∀ call ∈ calls, call.Small) :
    ((run (base.withDirectory directory) calls).run.run (ofDisk start)).1 =
        .ok (Maps.empty.reports calls) ∨
      ((run (base.withDirectory directory) calls).run.run (ofDisk start)).1 = .error .arithmetic := by
  have hseparate := Config.separate_withDirectory base directory
  have hapart := Config.apart_withDirectory base directory
  have hvalid := Config.validate_withDirectory directory hcapacity hinterval
  -- in an empty directory there is a store in which no key has anything
  have hopened : Achieves (Engine.openWith (base.withDirectory directory)) start (fun _ => True)
      (fun engine disk => Shows (base.withDirectory directory) engine disk Maps.empty)
      (fun fault _ => fault = .arithmetic) := by
    rw [← Maps.barrier_empty]
    exact Shows.of_stored hseparate hapart hvalid (stored_of_empty hwell hempty) Layers.shows_empty
      Layers.shows_empty
  have hrun : Achieves (run (base.withDirectory directory) calls) start (fun _ => True)
      (fun reports _ => reports = Maps.empty.reports calls) (fun fault _ => fault = .arithmetic) :=
    hopened.bind fun engine disk _ hshows => hshows.reports hseparate hapart hvalid hsmall
  have hafter := hrun.after_run_ofDisk
  rcases hresult : ((run (base.withDirectory directory) calls).run.run (ofDisk start)).1 with
    fault | reports
  · rw [hresult] at hafter
    exact .inr (congrArg _ hafter)
  · rw [hresult] at hafter
    exact .inl (congrArg _ hafter)

/-- Three sessions: the first ends in a crash, the second is closed. The keys of both stores are the
same. -/
def sessions : List Call :=
  [.put [1] [10], .putNumber [1] 5, .put [2] [20], .get [1], .crash, .get [1],
    .put [1] (List.replicate 40 7), .put [3] [30], .sync, .execute (.put [1] [11]),
    .execute (.putNumber [2] 6), .close, .get [1], .getNumber [2], .execute (.get [3])]

/-- The sessions go well, and every answer in them is the one of the maps. -/
theorem run_eq_sessions :
    ((run Config.narrow sessions).run.run (ofDisk Disk.fresh)).1 = .ok (Maps.empty.reports sessions) := by
  have hsome : ((run Config.narrow sessions).run.run (ofDisk Disk.fresh)).1.toOption.isSome = true := by
    decide +kernel
  have hsmall : ∀ call ∈ sessions, call.Small := by decide
  have heither : ((run Config.narrow sessions).run.run (ofDisk Disk.fresh)).1 =
        .ok (Maps.empty.reports sessions) ∨
      ((run Config.narrow sessions).run.run (ofDisk Disk.fresh)).1 = .error .arithmetic :=
    run_eq Disk.wellFormed_fresh Disk.emptyDirectory_fresh (by decide) (by decide) hsmall
  refine heither.resolve_right fun hfault => ?_
  rw [hfault] at hsome
  cases hsome

end Engine

end BarrierStore
