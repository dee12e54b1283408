import BarrierStore.Proofs.Service.Release
import BarrierStore.Proofs.Service.Visibility

/-!
# Reading what was acknowledged

A client that has its acknowledgement finds what it has written, or what was written under the same key
since. The index shows the write by then, and the record that it names stands in its segment for good: the
value log adds to its files behind an opening, and nothing but the value log writes to them.

The module introduces:

* `Machine.Stored` — all records that were written stand in the segments;
* `Machine.Reads` — a reader of the key finds the write, or a later one of the key;
* `Machine.Acknowledges` — what an acknowledgement promises, on every run.

Main statement: `Machine.acknowledges_of_openWith`.
-/

namespace BarrierStore

open Drive

/-- Behind an opening the logs of an engine end where it writes on. -/
theorem Engine.anchored_openWith {config : Config} {start : Disk} (h : start.WellFormed)
    (hseparate : config.Separate) (hapart : config.Apart) :
    Achieves (Engine.openWith config) start (fun _ => True)
      (fun engine disk => (∃ lines, engine.log.Anchored config disk lines) ∧
        ∃ bytes, disk.leaf config.numberLog.place = some (engine.numbers.log, bytes))
      (fun _ _ => True) := by
  cases hvalid : config.validate with
  | error cause =>
    unfold Engine.openWith
    rw [hvalid]
    exact achieves_throw trivial trivial
  | ok =>
    rw [openWith_eq_openAt hvalid]
    refine Achieves.bind (achieves_makeParents h) ?_
    rintro _ grown - ⟨hgrows, -⟩
    refine Achieves.bind (ValueLog.anchored_openAt hgrows.wellFormed hseparate) ?_
    intro state disk _ hopened
    obtain ⟨log, report⟩ := state
    obtain ⟨lines, hanchored, -⟩ := hopened
    refine Achieves.bind ((Index.achieves_openAt hanchored.wellFormed hapart.beside
      fun _ _ _ => trivial).imp_failed fun _ _ _ _ => trivial) ?_
    intro numbers last _ hopened
    obtain ⟨-, -, hchanges, hpath, -, -, hleaf⟩ := hopened
    exact achieves_pure trivial ⟨⟨lines, hanchored.of_changes hchanges (hapart.file .index)
      (hapart.file (.segment _))⟩, _, hleaf⟩

namespace Service

namespace Machine

/-- All records that were written stand in the segments, and the logs end where the engine writes on. -/
structure Stored (config : Config) (machine : Machine) : Prop where
  exists_lines : ∃ lines, machine.engine.log.Anchored config machine.drive.disk lines
  exists_bytes : ∃ bytes, machine.drive.disk.leaf config.numberLog.place =
    some (machine.engine.numbers.log, bytes)
  backed {address : UInt64} {record : Record} : (address, record) ∈ machine.values →
    config.Backed machine.engine.log.active.id machine.drive.disk address record

/-- A reader finds the write, or a later one of its key. -/
def Reads (machine : Machine) : Write → Prop
  | .value key count => ∃ address value, (address, ⟨key, value⟩) ∈ machine.values.drop count ∧
      machine.engine.get machine.drive.disk key = .ok (some value)
  | .number key count => ∃ number, (key, number) ∈ machine.numbers.drop count ∧
      machine.engine.getNumber key = some number

variable {config : Config} {machine machine' : Machine} {event : Event} {write : Write}
  {lines : List (Bytes × UInt64)}

namespace Stored

/-- The value log may move on, and the driver with it. -/
theorem move (h : machine.Stored config) (hapart : config.Apart) {log : ValueLog} {drive : Drive}
    {driver : Driver} (hanchored : log.Anchored config drive.disk lines)
    (hcarries : config.Carries machine.engine.log.active.id machine.drive.disk log.active.id drive.disk) :
    Stored config { machine with engine := { machine.engine with log }, drive, driver } where
  exists_lines := ⟨lines, hanchored⟩
  exists_bytes := by
    obtain ⟨bytes, hleaf⟩ := h.exists_bytes
    exact ⟨bytes, (hcarries.changes.leaf_eq hapart.numberLog).trans hleaf⟩
  backed hmem := hcarries.backed (h.backed hmem)

/-- The number log may be written on, and the driver may move on with it. -/
theorem moveNumbers (h : machine.Stored config) {places : Set Location} {numbers : Index}
    {drive : Drive} {driver : Driver} {bytes : Bytes}
    (hspares : machine.drive.disk.Spares places drive.disk)
    (hfile : ∀ file, config.place file ∉ places)
    (hleaf : drive.disk.leaf config.numberLog.place = some (numbers.log, bytes)) :
    Stored config { machine with engine := { machine.engine with numbers }, drive, driver } where
  exists_lines := by
    obtain ⟨lines, hanchored⟩ := h.exists_lines
    exact ⟨lines, hanchored.of_changes hspares.toChanges (hfile _) (hfile _)⟩
  exists_bytes := ⟨bytes, hleaf⟩
  backed hmem := (h.backed hmem).of_prolongs hspares.prolongs fun _ _ => hfile _

/-- A command keeps what is stored, and a value that it stages is stored too. -/
theorem execute (h : machine.Stored config) (hseparate : config.Separate) (hapart : config.Apart)
    {command : Command} {engine : Engine} {outcome : Except Fault Outcome} {drive : Drive}
    (hrun : (machine.engine.execute command).run machine.drive = ((engine, outcome), drive))
    (hsmall : (Call.execute command).Small) :
    Stored config { machine with engine, drive } ∧ ∀ key value, command = .put key value →
      outcome = .ok .staged → ∃ address, engine.log.index.staged[key]? = some address ∧
        config.Backed engine.log.active.id drive.disk address ⟨key, value⟩ := by
  cases command with
  | put key value =>
    obtain ⟨lines, hanchored⟩ := h.exists_lines
    have hput := (hanchored.put hseparate hsmall).after_run
    rw [Engine.run_execute_put] at hrun
    -- a write that fails leaves the log at the ends of its files, too
    rcases hcase : (machine.engine.log.put key value).run machine.drive with ⟨⟨log, fault | _⟩, last⟩ <;>
      rw [hcase] at hput hrun <;> cases hrun <;> obtain ⟨⟨lines', hanchored'⟩, hcarries, hindex⟩ := hput
    · exact ⟨h.move hapart hanchored' hcarries, fun _ _ _ hstaged => nomatch hstaged⟩
    · refine ⟨h.move hapart hanchored' hcarries, fun _ _ hsame _ => ?_⟩
      cases hsame
      obtain ⟨address, hindex, hbacked⟩ := hindex
      refine ⟨address, ?_, hbacked⟩
      dsimp only at hindex ⊢
      rw [hindex]
      exact Std.ExtTreeMap.getElem?_insert_self
  | putNumber key number =>
    obtain ⟨bytes, hleaf⟩ := h.exists_bytes
    obtain ⟨lines, hanchored⟩ := h.exists_lines
    obtain ⟨-, hspares, hleaf'⟩ := (prolongs_append hanchored.wellFormed hleaf
      (Line.encode key number)).after_run
    cases hrun
    exact ⟨h.moveNumbers hspares (fun file hplace => hapart.file file (.inr hplace)) hleaf', nofun⟩
  | get key =>
    rw [Engine.run_execute_get] at hrun
    cases hrun
    exact ⟨h, nofun⟩
  | ping | getNumber =>
    cases hrun
    exact ⟨h, nofun⟩

/-- Every step keeps what is stored. -/
theorem step (h : machine.Stored config) (hseparate : config.Separate) (hapart : config.Apart)
    (hstep : Step machine event machine') : machine'.Stored config := by
  obtain ⟨lines, hanchored⟩ := h.exists_lines
  cases hstep with
  | registered | unregistered | staged | received | collected | delivered => exact { h with }
  | @put id request key value engine drive address hcommand hsmall hrun haddress =>
    rw [hcommand] at hrun
    obtain ⟨hstored, hvalue⟩ := h.execute hseparate hapart hrun hsmall
    obtain ⟨found, hfound, hbacked⟩ := hvalue key value rfl rfl
    obtain rfl : found = address := Option.some.inj (hfound.symm.trans haddress)
    -- earlier records stand where they stood, and the new one is where its address says
    exact { hstored with
      backed := fun hmem => by
        rcases List.mem_append.mp hmem with hmem | hmem
        · exact hstored.backed hmem
        · cases List.mem_singleton.mp hmem
          exact hbacked }
  | putNumber hcommand hrun =>
    rw [hcommand] at hrun
    exact { (h.execute hseparate hapart hrun trivial).1 with }
  | answered hsmall hrun | stopped hsmall hrun =>
    exact { (h.execute hseparate hapart hrun hsmall).1 with }
  | valuesTaken => exact { h with exists_lines := ⟨lines, hanchored.congr⟩ }
  | valuesWaited =>
    obtain ⟨hanchored, hcarries, -⟩ := hanchored.syncActive.after_run
    exact h.move hapart hanchored hcarries
  | valuesShown =>
    obtain ⟨hanchored, hcarries, -⟩ := hanchored.syncIndex.after_run
    exact h.move hapart hanchored.congr hcarries
  | numbersTaken => exact { h with }
  | numbersShown =>
    obtain ⟨bytes, hleaf⟩ := h.exists_bytes
    obtain ⟨hspares, -⟩ := (spares_sync hanchored.wellFormed machine.engine.numbers.log
      fun _ _ => trivial).after_run
    exact h.moveNumbers hspares (fun _ => Set.notMem_empty _)
      ((hspares.leaf_eq (Set.notMem_empty _)).trans hleaf)

/-- A visible write is found by a reader. -/
theorem reads (h : machine.Stored config) (hshows : machine.Shows write) : machine.Reads write := by
  cases write with
  | value key count =>
    obtain ⟨lines, hanchored⟩ := h.exists_lines
    obtain ⟨address, value, hmem, happlied⟩ := hshows
    exact ⟨address, value, hmem, hanchored.get_eq happlied (h.backed (List.mem_of_mem_drop hmem))⟩
  | number => exact hshows

end Stored

/-! ## What an acknowledgement promises -/

/-- What acknowledgements promise on every run from a machine. -/
structure Acknowledges (config : Config) (start : Machine) : Prop where
  /-- A delivery puts the acknowledgements of the tickets that it releases into the outbound queues, and
  nothing else. Their writes are visible by then, or later ones of their keys. -/
  delivers {machine machine' : Machine} : Runs (fun _ => True) start machine →
    Step machine .deliver machine' → ∃ tickets, machine'.released = machine.released ++ tickets ∧
      (∀ ticket ∈ tickets, machine.Made ticket.write ∧ machine.Shows ticket.write) ∧
      ∀ id, machine'.acks.waitingFor id = machine.acks.waitingFor id ++ responses id tickets
  /-- From then on the write, or a later one of its key, stays visible. -/
  shows {machine : Machine} {ticket : Ticket} : Runs (fun _ => True) start machine →
    ticket ∈ machine.released → machine.Shows ticket.write
  /-- A reader finds it, where no file of the store has the place of another one. -/
  reads {machine : Machine} {ticket : Ticket} : config.Separate → config.Apart →
    Runs (fun _ => True) start machine → ticket ∈ machine.released → machine.Reads ticket.write
  /-- What a registered connection stages is released by the first barrier that collects behind the staging,
  if the connection stays. -/
  releases {machine staged : Machine} {id : ConnectionId} : Runs (fun _ => True) start machine →
    Step machine (.stage id) staged → machine.acks.isRegistered id →
      ∃ ticket ∈ machine.pending, ticket.id = id ∧ ∀ waited collected synced delivered,
        Runs (fun event => event ≠ .collect ∧ event.Keeps id) staged waited →
        Step waited .collect collected →
        Runs (fun event => event ≠ .deliver ∧ event.Keeps id) collected synced →
        Step synced .deliver delivered →
          ∃ tickets, delivered.released = synced.released ++ tickets ∧ ticket ∈ tickets
  /-- A barrier that has begun comes to its delivery by steps of the driver alone. -/
  finishes {machine : Machine} : Runs (fun _ => True) start machine → machine.driver ≠ .idle →
    ∃ machine' machine'', Runs (· = .sync) machine machine' ∧ Step machine' .deliver machine''

/-- Behind an opening an acknowledgement promises that its write is visible, in whatever order the steps of
connections and of the driver come. -/
theorem acknowledges_of_openWith {start last : Drive} {engine : Engine} (hwell : start.disk.WellFormed)
    (hopen : (Engine.openWith config).run.run start = (.ok engine, last)) :
    Acknowledges config (.start engine last) := by
  -- both invariants hold from the opening on, and are kept by every step
  have haccounted {machine : Machine} (hruns : Runs (fun _ => True) (.start engine last) machine) :
      ∃ base base' shown held shown' held', Accounted base base' shown held shown' held' machine := by
    refine hruns.keep (P := fun machine => ∃ base base' shown held shown' held',
      Accounted base base' shown held shown' held' machine)
      ⟨_, _, _, _, _, _, .start engine last⟩ ?_
    intro _ _ _ _ hstep hbefore
    obtain ⟨base, base', _, _, _, _, hbefore⟩ := hbefore
    exact ⟨base, base', hbefore.step hstep⟩
  have hrouted {machine : Machine} (hruns : Runs (fun _ => True) (.start engine last) machine) :
      machine.Routed :=
    hruns.keep (routed_start engine last) fun _ hstep hbefore => hbefore.step hstep
  have hshows {machine : Machine} {ticket : Ticket}
      (hruns : Runs (fun _ => True) (.start engine last) machine)
      (hticket : ticket ∈ machine.released) : machine.Made ticket.write ∧ machine.Shows ticket.write := by
    obtain ⟨_, _, _, _, _, _, h⟩ := haccounted hruns
    exact ⟨h.made (.inr (.inr (.inr hticket))), h.shows hticket⟩
  refine ⟨?delivers, fun hruns hticket => (hshows hruns hticket).2, ?reads, ?releases,
    fun _ hbusy => exists_deliver _ hbusy⟩
  case delivers =>
    intro machine machine' hruns hstep
    obtain ⟨tickets, hreleased, -, -, hwaiting⟩ := (hrouted hruns).waitingFor_deliver hstep
    refine ⟨tickets, hreleased, fun ticket hticket => ?_, hwaiting⟩
    have hafter := hshows (hruns.tail hstep trivial) (hreleased ▸ List.mem_append_right _ hticket)
    -- a delivery changes nothing that is visible
    cases hstep
    exact hafter
  case reads =>
    intro machine ticket hseparate hapart hruns hticket
    have hstart : Stored config (.start engine last) := by
      have hopened := (Engine.anchored_openWith hwell hseparate hapart).after_run
      rw [hopen] at hopened
      exact ⟨hopened.1, hopened.2, nofun⟩
    have hstored : machine.Stored config :=
      hruns.keep hstart fun _ hstep hbefore => hbefore.step hseparate hapart hstep
    exact hstored.reads (hshows hruns hticket).2
  case releases =>
    intro machine staged id hruns hstep hregistered
    have hafter := hrouted (hruns.tail hstep trivial)
    cases hstep with
    | @staged front rest ticket hpending =>
      refine ⟨ticket, by simp [hpending], rfl, fun _ _ _ _ hwait hcollect hsync hdeliver => ?_⟩
      refine hafter.released ?_ hwait hcollect hsync hdeliver
      rw [if_pos hregistered]
      exact List.mem_append_right _ (List.mem_singleton_self ticket)

/-- A connection writes a value, and its acknowledgement is collected. Before the barrier takes the staged
values, another connection overwrites that one. Behind the delivery only the first of them has its
acknowledgement, and a reader finds the second value. -/
theorem acknowledges_overwritten : ∃ engine last machine,
    (Engine.openWith Config.narrow).run.run (ofDisk Disk.fresh) = (.ok engine, last) ∧
      Takes (.start engine last) [.register 1, .register 2, .execute 1, .stage 1, .collect, .execute 2,
        .stage 2, .sync, .sync, .sync, .sync, .sync, .deliver] machine ∧
      machine.released = [⟨1, .ok 7 none, .value [107] 0⟩] ∧
      machine.staged = [⟨2, .ok 8 none, .value [107] 1⟩] ∧ machine.Reads (.value [107] 0) ∧
      machine.engine.get machine.drive.disk [107] = .ok (some [119]) ∧
      Acknowledges Config.narrow (.start engine last) := by
  have hruns : ∃ engine last,
      (Engine.openWith Config.narrow).run.run (ofDisk Disk.fresh) = (.ok engine, last) ∧
      ∃ (engine₁ : Engine) (drive₁ : Drive),
        (engine.execute (.put [107] [118])).run last = ((engine₁, .ok .staged), drive₁) ∧
        engine₁.log.index.staged[([107] : Bytes)]? = some 0 ∧
      ∃ (engine₂ : Engine) (drive₂ : Drive),
        (engine₁.execute (.put [107] [119])).run drive₁ = ((engine₂, .ok .staged), drive₂) ∧
        engine₂.log.index.staged[([107] : Bytes)]? = some 18 ∧
        (engine₂.sync.run drive₂).1.get (engine₂.sync.run drive₂).2.disk [107] = .ok (some [119]) := by
    decide +kernel
  obtain ⟨engine, last, hopen, engine₁, drive₁, hfirst, haddress₁, engine₂, drive₂, hsecond, haddress₂,
    hget⟩ := hruns
  have hall : Acknowledges Config.narrow (.start engine last) :=
    acknowledges_of_openWith Disk.wellFormed_fresh hopen
  let first : Request := ⟨7, .put [107] [118]⟩
  let second : Request := ⟨8, .put [107] [119]⟩
  obtain ⟨machine, htaken, hreleased, hstaged, hget⟩ : ∃ machine,
      Takes (.start engine last) [.register 1, .register 2, .execute 1, .stage 1, .collect, .execute 2,
        .stage 2, .sync, .sync, .sync, .sync, .sync, .deliver] machine ∧
      machine.released = [⟨1, .ok 7 none, .value [107] 0⟩] ∧
      machine.staged = [⟨2, .ok 8 none, .value [107] 1⟩] ∧
      machine.engine.get machine.drive.disk [107] = .ok (some [119]) :=
    ⟨_, .cons .registered <| .cons .registered <|
      .cons (@Step.put _ 1 first _ _ _ _ _ rfl (by decide) hfirst haddress₁) <|
      .cons (@Step.staged _ [] [] ⟨1, .ok 7 none, _⟩ rfl) <| .cons (.collected rfl) <|
      -- the second write comes before the barrier takes what is staged
      .cons (@Step.put _ 2 second _ _ _ _ _ rfl (by decide) hsecond haddress₂) <|
      .cons (@Step.staged _ [] [] ⟨2, .ok 8 none, _⟩ rfl) <| .cons (.valuesTaken rfl) <|
      .cons (.valuesWaited rfl) <| .cons (.valuesShown rfl) <| .cons (.numbersTaken rfl) <|
      .cons (.numbersShown rfl) <| .cons (.delivered rfl) .nil, rfl, rfl, hget⟩
  have hmem : ⟨1, .ok 7 none, .value [107] 0⟩ ∈ machine.released := by
    rw [hreleased]
    exact .head _
  exact ⟨engine, last, machine, hopen, htaken, hreleased, hstaged, hall.reads
    (Config.separate_withDirectory _ _) (Config.apart_withDirectory _ _)
    (htaken.runs fun _ _ => trivial) hmem, hget, hall⟩

end Machine

end Service

end BarrierStore
