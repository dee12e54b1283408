import BarrierStore.Proofs.Engine.Refinement
import BarrierStore.Proofs.Service.Calls

/-!
# A server answers like its engine

A client calls, its connection carries out the request, a barrier follows a write, and the response
travels back. The client gets what it would get from the engine itself if each write that goes well was
followed by a barrier; only a fault arrives as a refusal by the server, with the text of the fault.

The module introduces:

* `Engine.perform`, `Engine.performAll` — commands with a barrier behind each write that goes well;
* `Connection.respond` — the bytes that a connection sends back;
* `Dialogue`, `Dialogue.perform`, `Dialogue.performAll` — a client and its server, and calls;
* `AckQueue.Quiet` — nothing is on its way to a connection;
* `Maps.Fits`, `Engine.ShowsFitting` — no value in the maps that an engine shows is too large for a
  frame.

Main statements: `Connection.run_respond` on one request, and `Dialogue.performAll_relays` on any calls.
-/

namespace BarrierStore

open Drive

/-! ## Direct and by way of a connection -/

namespace Engine

/-- Carry out a command, with a barrier behind a write that goes well. -/
def perform (engine : Engine) (command : Command) : StateM Drive (Engine × Except Fault Outcome) := do
  let (engine, outcome) ← engine.execute command
  if outcome = .ok .staged then
    let engine ← engine.sync
    return (engine, outcome)
  else return (engine, outcome)

/-- Carry out commands in order, with their barriers. -/
def performAll (engine : Engine) (commands : List Command) :
    StateM Drive (Engine × List (Except Fault Outcome)) :=
  inTurn perform engine commands

/-- What comes of a command with its barrier, from what comes of the command. -/
theorem run_perform {engine middle : Engine} {command : Command} {outcome : Except Fault Outcome}
    {drive halfway : Drive}
    (h : (engine.execute command).run drive = ((middle, outcome), halfway)) :
    (engine.perform command).run drive =
      if outcome = .ok .staged then (((middle.sync.run halfway).1, outcome), (middle.sync.run halfway).2)
      else ((middle, outcome), halfway) := by
  rw [perform, StateT.run_bind, h]
  by_cases hstaged : outcome = .ok .staged
  · subst hstaged
    rfl
  · rw [if_neg hstaged]
    show ((if outcome = .ok .staged then _ else _ : StateM Drive _)).run halfway = _
    rw [if_neg hstaged]
    rfl

theorem exists_execute_of_perform {engine engine' : Engine} {command : Command}
    {outcome : Except Fault Outcome} {drive drive' : Drive}
    (h : (engine.perform command).run drive = ((engine', outcome), drive')) :
    ∃ middle halfway, (engine.execute command).run drive = ((middle, outcome), halfway) := by
  rcases hexecute : (engine.execute command).run drive with ⟨⟨middle, found⟩, halfway⟩
  have hperform := h.symm.trans (run_perform hexecute)
  obtain rfl : outcome = found := by
    split at hperform <;> cases hperform <;> rfl
  exact ⟨middle, halfway, rfl⟩

end Engine

/-- The bytes that a connection sends back for these, with a barrier behind a write. -/
def Connection.respond (service : Service) (id : ConnectionId) (bytes : Bytes) :
    DiskM (Service × Bytes) := do
  let (service, ended) ← handle service id bytes
  -- a connection that has ended sends nothing more
  if let .error fault := ended then throw fault
  let service ←
    if service.acks.stagedFor id = [] then pure service else Prod.snd <$> service.runBarrier
  let (response, service) := drain service id
  return (service, response)

/-- A client, and the server at the other end of its connection. -/
structure Dialogue where
  client : Client
  service : Service

namespace Dialogue

/-- One call. -/
def perform (dialogue : Dialogue) (id : ConnectionId) (command : Command) :
    DiskM (Dialogue × Except Fault Outcome) := do
  -- what the client sends does not depend on what it will read
  let request := (dialogue.client.send command).2.sent.drop dialogue.client.sent.length
  let (service, response) ← Connection.respond dialogue.service id request
  let client := { dialogue.client with incoming := dialogue.client.incoming ++ response }
  let (outcome, client) := client.perform command
  return ({ client, service }, outcome)

/-- Calls in order. -/
def performAll (dialogue : Dialogue) (id : ConnectionId) (commands : List Command) :
    DiskM (Dialogue × List (Except Fault Outcome)) :=
  inTurn (fun dialogue command => dialogue.perform id command) dialogue commands

end Dialogue

/-! ## One request -/

/-- Nothing is on its way to a connection that is there. -/
structure AckQueue.Quiet (queue : AckQueue) (id : ConnectionId) : Prop where
  isRegistered : queue.isRegistered id
  isOpen : queue.isOpen id
  stagedFor_eq : queue.stagedFor id = []
  waitingFor_eq : queue.waitingFor id = []

namespace AckQueue.Quiet

variable {queue after : AckQueue} {id : ConnectionId} {request : Request} {outcome : Except Fault Outcome}
  (h : queue.Quiet id) (hanswered : Connection.Answered id [(request, outcome)] [] queue after)

include h hanswered

/-- The acknowledgement of a single write is all that is there behind it. -/
theorem held (hheld : Request.Held (request, outcome)) :
    after.stagedFor id = [.ok request.id none] ∧ after.waitingFor id = [] := by
  rw [hanswered.stagedFor_eq, hanswered.waitingFor_eq, h.stagedFor_eq, h.waitingFor_eq]
  simp [hheld]

/-- So is the response to any other single request. -/
theorem answered (hheld : ¬Request.Held (request, outcome)) :
    after.stagedFor id = [] ∧ after.waitingFor id = [request.answer outcome] := by
  rw [hanswered.stagedFor_eq, hanswered.waitingFor_eq, h.stagedFor_eq, h.waitingFor_eq]
  simp [hheld]

end AckQueue.Quiet

namespace Connection

variable {service : Service} {id : ConnectionId} {engine : Engine} {drive drive' : Drive}

/-- What is sent when these responses wait for the client, and nothing is staged. -/
theorem drain_eq {queue : AckQueue} (engine : Engine) (hregistered : queue.isRegistered id)
    (hopen : queue.isOpen id) (hstaged : queue.stagedFor id = []) : ∃ acks, acks.Quiet id ∧
      drain ⟨engine, queue⟩ id = ((queue.waitingFor id).flatMap Response.encode, ⟨engine, acks⟩) := by
  refine ⟨(queue.receive id).2, ⟨?_, ?_, ?_, ?_⟩, ?_⟩
  · exact (AckQueue.isRegistered_receive _ _ _).trans hregistered
  · exact (AckQueue.isOpen_receive _ _ _).trans hopen
  · exact (AckQueue.stagedFor_receive _ _ _).trans hstaged
  · rw [AckQueue.waitingFor_receive, if_pos ⟨rfl, hopen⟩]
  · have hreceived : (queue.receive id).1 = some (queue.waitingFor id) := by
      rw [AckQueue.receive_fst, if_pos hopen]
    show (((queue.receive id).1.getD []).flatMap Response.encode, _) = _
    rw [hreceived]
    rfl

/-- Where nothing is staged there is no barrier. -/
theorem run_respond_quiet {bytes : Bytes} {after : Service}
    (hhandle : (handle service id bytes).run drive = ((after, .ok ()), drive'))
    (hstaged : after.acks.stagedFor id = []) : (respond service id bytes).run.run drive =
      (.ok ((drain after id).2, (drain after id).1), drive') := by
  rw [respond, run_lift_bind, hhandle]
  dsimp only
  rw [if_pos hstaged]
  rfl

/-- Where something is staged the barrier comes before the response. -/
theorem run_respond_staged {bytes : Bytes} {after : Service}
    (hhandle : (handle service id bytes).run drive = ((after, .ok ()), drive'))
    (hstaged : after.acks.stagedFor id ≠ []) : (respond service id bytes).run.run drive =
      (.ok ((drain (after.runBarrier.run drive').1.2 id).2, (drain (after.runBarrier.run drive').1.2 id).1),
        (after.runBarrier.run drive').2) := by
  rw [respond, run_lift_bind, hhandle]
  dsimp only
  rw [if_neg hstaged]
  rfl

/-- A connection sends the response to a request back, with what became of the command. -/
theorem run_respond (request : Request) (hquiet : service.acks.Quiet id) {outcome : Except Fault Outcome}
    (hsmall : request.command.payload.length ≤ maxPayload)
    (hrun : (service.engine.perform request.command).run drive = ((engine, outcome), drive'))
    (hwords : outcome ≠ .error .arithmetic) : ∃ acks, acks.Quiet id ∧
      (respond service id request.encode).run.run drive =
        (.ok (⟨engine, acks⟩, (request.answer outcome).encode), drive') := by
  obtain ⟨middle, halfway, hexecute⟩ := Engine.exists_execute_of_perform hrun
  have hperform := hrun.symm.trans (Engine.run_perform hexecute)
  have hheld := Engine.staged_iff hexecute
  have hexecuted : (service.engine.executeAll [request]).run drive =
      ((middle, [(request, outcome)]), halfway) := Engine.run_executeAll_cons hexecute rfl
  obtain ⟨acks, hanswered, hhandle, -⟩ := run_handle_append hquiet.isRegistered hquiet.isOpen
    (fun _ hmem => List.mem_singleton.mp hmem ▸ hsmall) hexecuted
    (fun _ hmem => List.mem_singleton.mp hmem ▸ hwords)
  rw [List.flatMap_singleton] at hhandle
  have hregistered := (hanswered.isRegistered_eq id).trans hquiet.isRegistered
  have hopen := (hanswered.isOpen_eq id).trans hquiet.isOpen
  by_cases hstaged : outcome = .ok .staged
  · rw [if_pos hstaged] at hperform
    cases hperform
    obtain ⟨hstagedFor, hwaitingFor⟩ := hquiet.held hanswered (hheld.mp hstaged)
    -- the barrier moves the acknowledgement behind what waits, which is nothing
    obtain ⟨hregistered', hopen', hstagedFor', hwaitingFor'⟩ := AckQueue.released hregistered hopen
    rw [hwaitingFor, hstagedFor] at hwaitingFor'
    obtain ⟨last, hlast, hdrain⟩ := drain_eq (middle.sync.run halfway).1 hregistered' hopen' hstagedFor'
    refine ⟨last, hlast, ?_⟩
    have hne : acks.stagedFor id ≠ [] := by
      rw [hstagedFor]
      exact List.cons_ne_nil _ _
    have hbarrier : (Service.runBarrier ⟨middle, acks⟩).run halfway =
        (((acks.collect.2.deliver acks.collect.1).1, ⟨(middle.sync.run halfway).1,
          (acks.collect.2.deliver acks.collect.1).2⟩), (middle.sync.run halfway).2) := rfl
    rw [run_respond_staged hhandle hne, hbarrier]
    dsimp only
    rw [hdrain, hwaitingFor', hstaged, List.nil_append, List.flatMap_singleton]
    rfl
  · rw [if_neg hstaged] at hperform
    cases hperform
    obtain ⟨hstagedFor, hwaitingFor⟩ := hquiet.answered hanswered (mt hheld.mpr hstaged)
    obtain ⟨last, hlast, hdrain⟩ := drain_eq engine hregistered hopen hstagedFor
    refine ⟨last, hlast, ?_⟩
    rw [run_respond_quiet hhandle hstagedFor, hdrain, hwaitingFor, List.flatMap_singleton]

end Connection

/-! ## Values that fit -/

/-- No value is too large for a frame, be it visible or not. -/
def Maps.Fits (maps : Maps) : Prop :=
  ∀ key value : Bytes, maps.values.applied[key]? = some value ∨ maps.values.staged[key]? = some value →
    value.length ≤ maxPayload

namespace Maps.Fits

variable {maps : Maps} (h : maps.Fits)
include h

theorem execute {command : Command} (hsmall : command.payload.length ≤ maxPayload) :
    (maps.execute command).1.Fits := by
  cases command with
  | put key value =>
    intro other found hfound
    rcases hfound with happlied | hstaged
    · exact h _ _ (.inl happlied)
    · have hstaged : (maps.values.staged.insert key value)[other]? = some found := hstaged
      rw [Std.ExtTreeMap.getElem?_insert] at hstaged
      split at hstaged
      · cases hstaged
        exact (List.length_append ▸ Nat.le_add_left _ _ :
          value.length ≤ (Command.encodeKey key ++ value).length).trans hsmall
      · exact h _ _ (.inr hstaged)
  | get | ping | putNumber | getNumber => exact h

theorem barrier : maps.barrier.Fits := by
  intro key value hfound
  have hunion : (maps.values.applied ∪ maps.values.staged)[key]? = some value := by
    rcases hfound with happlied | hstaged
    · exact happlied
    · exact absurd hstaged (by simp [Maps.barrier, Layers.barrier])
  rw [Std.ExtTreeMap.getElem?_union, Option.or_eq_some_iff] at hunion
  rcases hunion with hstaged | ⟨-, happlied⟩
  · exact h _ _ (.inr hstaged)
  · exact h _ _ (.inl happlied)

/-- What is read is stored, so it fits. -/
theorem fits_execute (command : Command) : Outcome.Fits (.ok (maps.execute command).2) := by
  intro value hvalue
  cases command with
  | get key => exact h _ _ (.inl (Outcome.value.inj (Except.ok.inj hvalue)))
  | put | ping | putNumber | getNumber => cases hvalue

end Maps.Fits

namespace Engine

/-- A command that fits a frame has a record with lengths of eight bytes. -/
theorem small_of_payload {command : Command} (h : command.payload.length ≤ maxPayload) :
    (Call.execute command).Small := by
  cases command with
  | put key value =>
    have hlength : (Command.encodeKey key ++ value).length ≤ maxPayload := h
    have hword : maxPayload < UInt64.size := by decide
    rw [List.length_append, Command.length_encodeKey] at hlength
    exact ⟨show key.length < _ by omega, show value.length < _ by omega⟩
  | get | ping | putNumber | getNumber => trivial

/-- The engine shows maps in which no value is too large for a frame. -/
def ShowsFitting (engine : Engine) (disk : Disk) : Prop :=
  ∃ config maps, config.Separate ∧ config.Apart ∧ config.validate = .ok () ∧
    Shows config engine disk maps ∧ maps.Fits

/-- A new store holds no value at all. -/
theorem showsFitting_of_openWith {base : Config} {directory : Path} {start : Disk} {engine : Engine}
    {drive : Drive} (hwell : start.WellFormed) (hempty : start.EmptyDirectory directory)
    (hcapacity : base.capacity ≠ 0) (hinterval : base.syncInterval ≠ 0)
    (hopen : (openWith (base.withDirectory directory)).run.run (ofDisk start) = (.ok engine, drive)) :
    engine.ShowsFitting drive.disk := by
  have hseparate := Config.separate_withDirectory base directory
  have hapart := Config.apart_withDirectory base directory
  have hvalid := Config.validate_withDirectory directory hcapacity hinterval
  have hopened : Achieves (openWith (base.withDirectory directory)) start (fun _ => True)
      (fun engine disk => Shows (base.withDirectory directory) engine disk Maps.empty.barrier)
      (fun fault _ => fault = .arithmetic) :=
    Shows.of_stored hseparate hapart hvalid (stored_of_empty hwell hempty) Layers.shows_empty
      Layers.shows_empty
  have hafter := hopened.after_run_ofDisk
  rw [hopen] at hafter
  refine ⟨_, _, hseparate, hapart, hvalid, hafter, Maps.Fits.barrier fun key value hfound => ?_⟩
  rcases hfound with hfound | hfound
  · exact absurd hfound (by simp [Maps.empty, Layers.empty])
  · exact absurd hfound (by simp [Maps.empty, Layers.empty])

/-- Commands that fit frames themselves store what fits. -/
theorem ShowsFitting.perform {engine engine' : Engine} {command : Command}
    {outcome : Except Fault Outcome} {drive drive' : Drive} (h : engine.ShowsFitting drive.disk)
    (hsmall : command.payload.length ≤ maxPayload)
    (hrun : (engine.perform command).run drive = ((engine', outcome), drive'))
    (hwords : outcome ≠ .error .arithmetic) :
    Outcome.Fits outcome ∧ engine'.ShowsFitting drive'.disk := by
  obtain ⟨config, maps, hseparate, hapart, hvalid, hshows, hfits⟩ := h
  obtain ⟨middle, halfway, hexecute⟩ := exists_execute_of_perform hrun
  have hperform := hrun.symm.trans (run_perform hexecute)
  have hafter := (hshows.execute hseparate hapart hvalid (small_of_payload hsmall)).after_run
  rw [hexecute] at hafter
  rcases hafter with ⟨-, hfault⟩ | ⟨rfl, hmiddle⟩
  · exact absurd hfault hwords
  refine ⟨hfits.fits_execute command, ?_⟩
  have hcarried := hfits.execute hsmall
  split at hperform <;> cases hperform
  · exact ⟨config, _, hseparate, hapart, hvalid, hmiddle.sync.after_run, hcarried.barrier⟩
  · exact ⟨config, _, hseparate, hapart, hvalid, hmiddle, hcarried⟩

end Engine

/-! ## All calls -/

namespace Dialogue

variable {dialogue : Dialogue} {id : ConnectionId} {engine : Engine} {drive drive' : Drive}

/-- One call gives what the engine gives. -/
theorem perform_relays (hquiet : dialogue.service.acks.Quiet id)
    (hincoming : dialogue.client.incoming = []) {command : Command} {outcome : Except Fault Outcome}
    (hsmall : command.payload.length ≤ maxPayload)
    (hrun : (dialogue.service.engine.perform command).run drive = ((engine, outcome), drive'))
    (hwords : outcome ≠ .error .arithmetic) (hfits : Outcome.Fits outcome) :
    ∃ client acks, client.incoming = [] ∧ acks.Quiet id ∧
      (dialogue.perform id command).run.run drive =
        (.ok (⟨client, ⟨engine, acks⟩⟩, Client.relayed outcome), drive') := by
  obtain ⟨middle, halfway, hexecute⟩ := Engine.exists_execute_of_perform hrun
  let request : Request := ⟨dialogue.client.nextId, command⟩
  -- the client has sent the request, and nothing else
  have hsent : (dialogue.client.send command).2.sent.drop dialogue.client.sent.length = request.encode :=
    List.drop_left' rfl
  obtain ⟨acks, hacks, hrespond⟩ := Connection.run_respond request hquiet hsmall hrun hwords
  let reader : Client :=
    { dialogue.client with incoming := dialogue.client.incoming ++ (request.answer outcome).encode }
  have hreader : reader.incoming = (Request.answer ⟨reader.nextId, command⟩ outcome).encode := by
    show dialogue.client.incoming ++ _ = _
    rw [hincoming]
    rfl
  have hperform := Client.perform_answer (fun answer hok => Engine.expects_of_execute (hok ▸ hexecute))
    (fun fault herror => Engine.ofCommand_of_execute (herror ▸ hexecute)) hfits hreader
  refine ⟨{ (reader.send command).2 with incoming := [] }, acks, rfl, hacks, ?_⟩
  rw [perform, hsent, run_bind_of_ok hrespond]
  show (Except.ok ((⟨(reader.perform command).2, ⟨engine, acks⟩⟩ : Dialogue),
    (reader.perform command).1), drive') = _
  rw [hperform]

/-- A server answers like its engine, where no value is too large for a frame: the client gets what it
would get from the engine itself, a fault as a refusal by the server, and the engine ends as it would. -/
theorem performAll_relays (hquiet : dialogue.service.acks.Quiet id)
    (hincoming : dialogue.client.incoming = []) {commands : List Command}
    {outcomes : List (Except Fault Outcome)}
    (hsmall : ∀ command ∈ commands, command.payload.length ≤ maxPayload)
    (hrun : (dialogue.service.engine.performAll commands).run drive = ((engine, outcomes), drive'))
    (hwords : ∀ outcome ∈ outcomes, outcome ≠ .error .arithmetic)
    (hfits : dialogue.service.engine.ShowsFitting drive.disk ∨
      ∀ outcome ∈ outcomes, Outcome.Fits outcome) :
    ∃ client acks, client.incoming = [] ∧ acks.Quiet id ∧
      (dialogue.performAll id commands).run.run drive =
        (.ok (⟨client, ⟨engine, acks⟩⟩, outcomes.map Client.relayed), drive') := by
  induction commands generalizing dialogue drive outcomes with
  | nil =>
    cases hrun
    exact ⟨dialogue.client, dialogue.service.acks, hincoming, hquiet, rfl⟩
  | cons command rest ih =>
    rcases hfirst : (dialogue.service.engine.perform command).run drive with
      ⟨⟨middle, outcome⟩, halfway⟩
    rcases hrest : (middle.performAll rest).run halfway with ⟨⟨last, outcomes'⟩, final⟩
    cases (run_inTurn_cons hfirst hrest).symm.trans hrun
    have hfirstSmall := hsmall command List.mem_cons_self
    have hfirstWords := hwords outcome List.mem_cons_self
    -- either the maps tell what fits, for this command and behind it, or the outcomes do
    have hboth : Outcome.Fits outcome ∧
        (middle.ShowsFitting halfway.disk ∨ ∀ other ∈ outcomes', Outcome.Fits other) := by
      rcases hfits with hshows | hall
      · have hnext := hshows.perform hfirstSmall hfirst hfirstWords
        exact ⟨hnext.1, .inl hnext.2⟩
      · exact ⟨hall outcome List.mem_cons_self, .inr fun other hmem => hall other (.tail _ hmem)⟩
    obtain ⟨client, acks, hclient, hacks, hcall⟩ :=
      perform_relays hquiet hincoming hfirstSmall hfirst hfirstWords hboth.1
    let next : Dialogue := ⟨client, ⟨middle, acks⟩⟩
    have hnext : next.service.acks.Quiet id := hacks
    obtain ⟨client', acks', hclient', hacks', hcalls⟩ := ih hnext hclient
      (fun other hmem => hsmall other (.tail _ hmem)) hrest
      (fun other hmem => hwords other (.tail _ hmem)) hboth.2
    refine ⟨client', acks', hclient', hacks', ?_⟩
    rw [performAll] at hcalls ⊢
    rw [inTurn, run_bind_of_ok hcall]
    dsimp only
    rw [run_bind_of_ok hcalls]
    rfl

/-- An empty value and a number are written and read, and a key is missing, on a new connection to a new
store. -/
theorem performAll_relays_fresh : ∃ engine drive client engine' acks last,
    (Engine.openWith (Config.default.withDirectory Path.fresh)).run.run (ofDisk Disk.fresh) =
        (.ok engine, drive) ∧
      (Dialogue.performAll ⟨.ofStream [], ⟨engine, AckQueue.empty.register.2⟩⟩ 1
        [.put [107] [], .get [107], .putNumber [107] 5, .getNumber [107], .get [108], .ping]).run.run drive =
        (.ok (⟨client, ⟨engine', acks⟩⟩, [.ok .staged, .ok (.value (some [])), .ok .staged,
          .ok (.number (some 5)), .ok (.value none), .ok .pong]), last) := by
  let config := Config.default.withDirectory Path.fresh
  let commands : List Command :=
    [.put [107] [], .get [107], .putNumber [107] 5, .getNumber [107], .get [108], .ping]
  let expected : List (Except Fault Outcome) := [.ok .staged, .ok (.value (some [])), .ok .staged,
    .ok (.number (some 5)), .ok (.value none), .ok .pong]
  have hruns : ∃ engine drive, (Engine.openWith config).run.run (ofDisk Disk.fresh) = (.ok engine, drive) ∧
      ∃ engine' last, (engine.performAll commands).run drive = ((engine', expected), last) := by
    decide +kernel
  obtain ⟨engine, drive, hopen, engine', last, hrun⟩ := hruns
  let dialogue : Dialogue := ⟨.ofStream [], ⟨engine, AckQueue.empty.register.2⟩⟩
  -- nothing is on its way to a connection that is new
  have hquiet : dialogue.service.acks.Quiet 1 :=
    ⟨(AckQueue.isRegistered_register _ _).mpr (.inl rfl), (AckQueue.isOpen_register _ _).mpr (.inl rfl),
      (AckQueue.stagedFor_register _ _).trans (if_pos rfl),
      (AckQueue.waitingFor_register _ _).trans (if_pos rfl)⟩
  have hshows : engine.ShowsFitting drive.disk := Engine.showsFitting_of_openWith Disk.wellFormed_fresh
    Disk.emptyDirectory_fresh (by decide) (by decide) hopen
  obtain ⟨client, acks, -, -, hcalls⟩ := performAll_relays hquiet rfl (show ∀ command ∈ commands,
    command.payload.length ≤ maxPayload by decide) hrun (by decide) (.inl hshows)
  exact ⟨engine, drive, client, engine', acks, last, hopen, hcalls⟩

end Dialogue

end BarrierStore
