import BarrierStore.Proofs.Service.Steps
import BarrierStore.Proofs.Wire.Stream

/-!
# A connection answers each request once

A connection carries out the requests that it reads, in order, up to the end of the stream or to the
first frame that is refused. A write that goes well has its acknowledgement staged; any other request is
answered at once. A refused frame is answered too, with id 0, and ends the connection; the end of the
stream is not.

The module introduces:

* `inTurn` — a step for each item of a list;
* `Engine.executeAll` — requests carried out in order, with what came of each;
* `Request.answer` — the response to a request by what came of it, and `Request.Held`, whether it waits
  for a barrier;
* `Connection.closing` — what is said at the end, and how the connection ends;
* `Connection.Answered` — what a connection has done to the queue.

Main statements: `Connection.run_handle_append`, that requests may be handled as they come in, and
`Connection.handle_answers` on any stream.
-/

namespace BarrierStore

/-- Take a step for each item in turn, with what comes of each. -/
def inTurn {m : Type → Type} [Monad m] {σ α β : Type} (step : σ → α → m (σ × β)) :
    (state : σ) → (items : List α) → m (σ × List β)
  | state, [] => return (state, [])
  | state, item :: rest => do
    let (state, result) ← step state item
    let (state, results) ← inTurn step state rest
    return (state, result :: results)

theorem run_inTurn_cons {σ α β : Type} {step : σ → α → StateM Drive (σ × β)}
    {state middle last : σ} {item : α} {rest : List α} {result : β} {results : List β}
    {drive halfway drive' : Drive}
    (hfirst : (step state item).run drive = ((middle, result), halfway))
    (hrest : (inTurn step middle rest).run halfway = ((last, results), drive')) :
    (inTurn step state (item :: rest)).run drive = ((last, result :: results), drive') := by
  rw [inTurn, StateT.run_bind, hfirst]
  exact congrArg (fun last => ((last.1.1, result :: last.1.2), last.2)) hrest

namespace Engine

/-- Carry out a request, with what comes of it. -/
def carryOut (engine : Engine) (request : Request) :
    StateM Drive (Engine × (Request × Except Fault Outcome)) := do
  let (engine, outcome) ← engine.execute request.command
  return (engine, (request, outcome))

/-- Carry out requests in order. -/
def executeAll (engine : Engine) (requests : List Request) :
    StateM Drive (Engine × List (Request × Except Fault Outcome)) :=
  inTurn carryOut engine requests

theorem run_executeAll_cons {engine middle engine' : Engine} {request : Request} {rest : List Request}
    {outcome : Except Fault Outcome} {executed : List (Request × Except Fault Outcome)}
    {drive halfway drive' : Drive}
    (hfirst : (engine.execute request.command).run drive = ((middle, outcome), halfway))
    (hrest : (middle.executeAll rest).run halfway = ((engine', executed), drive')) :
    (engine.executeAll (request :: rest)).run drive =
      ((engine', (request, outcome) :: executed), drive') := by
  have hrequest : (engine.carryOut request).run drive = ((middle, (request, outcome)), halfway) := by
    rw [carryOut, StateT.run_bind, hfirst]
    rfl
  exact run_inTurn_cons hrequest hrest

/-- A command is staged if it is a write and goes well. -/
theorem staged_iff {engine engine' : Engine} {command : Command} {outcome : Except Fault Outcome}
    {drive drive' : Drive} (h : (engine.execute command).run drive = ((engine', outcome), drive')) :
    outcome = .ok .staged ↔ command.isWrite ∧ outcome.isOk := by
  cases command with
  | put key value =>
    rw [run_execute_put] at h
    rcases hput : ((engine.log.put key value).run drive).1.2 with fault | _ <;> rw [hput] at h <;> cases h
    · exact ⟨nofun, fun hboth => nomatch hboth.2⟩
    · exact ⟨fun _ => ⟨rfl, rfl⟩, fun _ => rfl⟩
  | putNumber key number =>
    cases h
    exact ⟨fun _ => ⟨rfl, rfl⟩, fun _ => rfl⟩
  | get key =>
    rw [run_execute_get] at h
    cases h
    refine ⟨fun hstaged => ?_, fun hboth => nomatch hboth.1⟩
    cases hget : engine.get drive.disk key <;> rw [hget] at hstaged <;> cases hstaged
  | ping | getNumber =>
    cases h
    exact ⟨nofun, fun hboth => nomatch hboth.1⟩

end Engine

namespace Request

/-- The response to a request, by what came of it. -/
def answer (request : Request) : Except Fault Outcome → Response
  | .ok (.value (some value)) => .ok request.id (some value)
  | .ok (.value none) | .ok (.number none) => .notFound request.id
  | .ok (.number (some number)) => .ok request.id (some (Bytes.bigEndian 8 number.toNat))
  | .ok .pong => .ok request.id (some pongPayload)
  | .ok .staged => .ok request.id none
  | .error fault => .error request.id fault.message

/-- A response carries the id of its request. -/
theorem id_answer (request : Request) (outcome : Except Fault Outcome) :
    (request.answer outcome).id = request.id := by
  unfold answer
  split <;> rfl

/-- The response waits for a barrier: the request is a write that went well. -/
def Held (executed : Request × Except Fault Outcome) : Prop :=
  executed.1.command.isWrite ∧ executed.2.isOk

instance (executed : Request × Except Fault Outcome) : Decidable (Held executed) :=
  inferInstanceAs (Decidable (_ ∧ _))

end Request

namespace Service

/-- To route an answer leaves the engine as it is. -/
theorem engine_route (service : Service) (id : ConnectionId) (request : UInt64)
    (outcome : Except Fault Outcome) : (service.route id request outcome).engine = service.engine := by
  unfold route
  split <;> rfl

/-- A request is answered as its outcome says: by the next barrier, or at once. -/
theorem route_eq_answer (service : Service) (id : ConnectionId) (request : Request)
    (outcome : Except Fault Outcome) : service.route id request.id outcome =
      if outcome = .ok .staged then
        { service with acks := service.acks.stage id (request.answer outcome) }
      else service.send id (request.answer outcome) := by
  split
  · rename_i hstaged
    rw [hstaged]
    rfl
  · rename_i hanswered
    unfold route
    split
    case h_6 => exact absurd rfl hanswered
    all_goals rfl

end Service

namespace Connection

/-- What is said to the client at the end, and how the connection ends. A failure of the stream is the end
of the stream, and nothing is said to it. -/
def closing : Fault → List Response × Except Fault Unit
  | .io _ => ([], .ok ())
  | fault => ([.error 0 fault.message], .error fault)

/-- What a connection has done to the queue when these requests were carried out and these responses said at
the end. -/
structure Answered (id : ConnectionId) (executed : List (Request × Except Fault Outcome))
    (said : List Response) (before after : AckQueue) : Prop where
  /-- Each write that went well has its acknowledgement staged. -/
  stagedFor_eq : after.stagedFor id = before.stagedFor id ++
    (executed.filter (Request.Held ·)).map fun (request, _) => .ok request.id none
  /-- Each other request is answered at once. -/
  waitingFor_eq : after.waitingFor id = before.waitingFor id ++
    ((executed.filter (¬ Request.Held ·)).map fun (request, outcome) => request.answer outcome) ++ said
  /-- For other connections nothing is staged, and nothing is said to them. -/
  stagedFor_other {other : ConnectionId} : other ≠ id → after.stagedFor other = before.stagedFor other
  waitingFor_other {other : ConnectionId} : other ≠ id →
    after.waitingFor other = before.waitingFor other
  isRegistered_eq (other : ConnectionId) : after.isRegistered other = before.isRegistered other
  isOpen_eq (other : ConnectionId) : after.isOpen other = before.isOpen other

namespace Answered

variable {id : ConnectionId} {executed more : List (Request × Except Fault Outcome)}
  {request : Request} {outcome : Except Fault Outcome} {said : List Response}
  {before middle after queue : AckQueue}

theorem refl : Answered id [] [] queue queue where
  stagedFor_eq := (List.append_nil _).symm
  waitingFor_eq := by simp
  stagedFor_other _ := rfl
  waitingFor_other _ := rfl
  isRegistered_eq _ := rfl
  isOpen_eq _ := rfl

/-- As long as nothing is said at the end, more requests may follow. -/
theorem trans (h : Answered id executed [] before middle) (h' : Answered id more said middle after) :
    Answered id (executed ++ more) said before after where
  stagedFor_eq := by
    rw [h'.stagedFor_eq, h.stagedFor_eq, List.filter_append, List.map_append, List.append_assoc]
  waitingFor_eq := by
    rw [h'.waitingFor_eq, h.waitingFor_eq, List.filter_append, List.map_append]
    simp only [List.append_assoc, List.nil_append]
  stagedFor_other hne := (h'.stagedFor_other hne).trans (h.stagedFor_other hne)
  waitingFor_other hne := (h'.waitingFor_other hne).trans (h.waitingFor_other hne)
  isRegistered_eq other := (h'.isRegistered_eq other).trans (h.isRegistered_eq other)
  isOpen_eq other := (h'.isOpen_eq other).trans (h.isOpen_eq other)

/-- A response that is sent at once. -/
theorem send (hopen : queue.isOpen id) (responses : List Response) :
    Answered id [] responses queue (queue.send id responses).2 where
  stagedFor_eq := (AckQueue.stagedFor_send _ _ _ _).trans (List.append_nil _).symm
  waitingFor_eq := by
    rw [AckQueue.waitingFor_send, if_pos ⟨rfl, hopen⟩]
    simp
  stagedFor_other _ := AckQueue.stagedFor_send _ _ _ _
  waitingFor_other hne := by
    rw [AckQueue.waitingFor_send, if_neg fun hboth => hne hboth.1.symm, List.append_nil]
  isRegistered_eq other := AckQueue.isRegistered_send _ _ _ _
  isOpen_eq other := AckQueue.isOpen_send _ _ _ _

/-- An acknowledgement that is held back. -/
theorem stage (hregistered : queue.isRegistered id) (hheld : Request.Held (request, outcome)) :
    Answered id [(request, outcome)] [] queue (queue.stage id (.ok request.id none)) where
  stagedFor_eq := by simp [AckQueue.stagedFor_stage, hregistered, hheld]
  waitingFor_eq := by
    show queue.waitingFor id = _
    simp [hheld]
  stagedFor_other hne := by
    rw [AckQueue.stagedFor_stage, if_neg fun hboth => hne hboth.1.symm, List.append_nil]
  waitingFor_other _ := rfl
  isRegistered_eq other := AckQueue.isRegistered_stage _ _ _ _
  isOpen_eq _ := rfl

/-- What is said last may be the answer to a request that needs no barrier. -/
theorem concat (h : Answered id executed [request.answer outcome] before after)
    (hheld : ¬Request.Held (request, outcome)) :
    Answered id (executed ++ [(request, outcome)]) [] before after where
  stagedFor_eq := by
    rw [h.stagedFor_eq]
    simp [hheld]
  waitingFor_eq := by
    rw [h.waitingFor_eq]
    simp [hheld]
  stagedFor_other := h.stagedFor_other
  waitingFor_other := h.waitingFor_other
  isRegistered_eq := h.isRegistered_eq
  isOpen_eq := h.isOpen_eq

/-- A request is answered, at once or by the next barrier. -/
theorem route (service : Service) (hregistered : service.acks.isRegistered id)
    (hopen : service.acks.isOpen id)
    (hstaged : outcome = .ok .staged ↔ Request.Held (request, outcome)) :
    Answered id [(request, outcome)] [] service.acks (service.route id request.id outcome).acks := by
  rw [Service.route_eq_answer]
  split
  · rename_i hwrite
    subst hwrite
    exact stage hregistered (hstaged.mp rfl)
  · rename_i hanswered
    exact (send hopen [request.answer outcome]).concat (mt hstaged.mpr hanswered)

end Answered

/-! ## Handling a stream -/

section Handle

variable {service : Service} {id : ConnectionId} {engine : Engine} {drive drive' : Drive}
  {executed : List (Request × Except Fault Outcome)}

/-- The requests in front are carried out in order, and the connection goes on with what was found behind
them. -/
theorem run_process (hregistered : service.acks.isRegistered id) (hopen : service.acks.isOpen id)
    {requests : List Request}
    (hexecuted : (service.engine.executeAll requests).run drive = ((engine, executed), drive'))
    (hwords : ∀ entry ∈ executed, entry.2 ≠ .error .arithmetic) :
    ∃ acks, Answered id executed [] service.acks acks ∧
      ∀ found, (process id (requests.map .ok ++ found) service).run drive =
        (process id found ⟨engine, acks⟩).run drive' := by
  induction requests generalizing service drive executed with
  | nil =>
    cases hexecuted
    exact ⟨service.acks, .refl, fun _ => rfl⟩
  | cons request rest ih =>
    rcases hfirst : (service.engine.execute request.command).run drive with
      ⟨⟨middle, outcome⟩, halfway⟩
    rcases hrest : (middle.executeAll rest).run halfway with ⟨⟨last, executed'⟩, final⟩
    cases (Engine.run_executeAll_cons hfirst hrest).symm.trans hexecuted
    -- the queue has changed by the answer to the first request
    let routed := Service.route ⟨middle, service.acks⟩ id request.id outcome
    have hanswered : Answered id [(request, outcome)] [] service.acks routed.acks :=
      .route ⟨middle, service.acks⟩ hregistered hopen (Engine.staged_iff hfirst)
    have hengine : routed.engine = middle := Service.engine_route _ _ _ _
    have hregistered' : routed.acks.isRegistered id := (hanswered.isRegistered_eq id).trans hregistered
    obtain ⟨acks, hmore, hprocess⟩ := ih hregistered' ((hanswered.isOpen_eq id).trans hopen)
      (hengine ▸ hrest) fun entry hmem => hwords entry (.tail _ hmem)
    refine ⟨acks, hanswered.trans hmore, fun found => ?_⟩
    rw [← hprocess found, List.map_cons, List.cons_append, process, StateT.run_bind,
      Service.Machine.run_dispatch hfirst, if_neg (hwords _ (.head _))]
    rfl

/-- At the end of the stream nothing is said, and a refused frame is answered. -/
theorem run_process_error (service : Service) (hopen : service.acks.isOpen id) (fault : Fault)
    (drive : Drive) :
    ∃ acks, Answered id [] (closing fault).1 service.acks acks ∧
      (process id [.error fault] service).run drive =
        ((⟨service.engine, acks⟩, (closing fault).2), drive) := by
  cases fault with
  | io cause => exact ⟨service.acks, .refl, rfl⟩
  | _ => exact ⟨_, .send hopen _, rfl⟩

/-- A stream that is split in this way is handled in this way. -/
theorem run_handle (hregistered : service.acks.isRegistered id) (hopen : service.acks.isOpen id)
    {stream tail : Bytes} {requests : List Request} {fault : Fault}
    (hsplits : Request.Splits stream requests tail fault)
    (hexecuted : (service.engine.executeAll requests).run drive = ((engine, executed), drive'))
    (hwords : ∀ entry ∈ executed, entry.2 ≠ .error .arithmetic) :
    ∃ acks, Answered id executed (closing fault).1 service.acks acks ∧
      (handle service id stream).run drive = ((⟨engine, acks⟩, (closing fault).2), drive') := by
  obtain ⟨middle, hanswered, hprocess⟩ := run_process hregistered hopen hexecuted hwords
  obtain ⟨acks, hclosed, hend⟩ := run_process_error ⟨engine, middle⟩
    ((hanswered.isOpen_eq id).trans hopen) fault drive'
  refine ⟨acks, ?_, ?_⟩
  · exact executed.append_nil ▸ hanswered.trans hclosed
  · rw [handle, hsplits.readAll_eq, hprocess]
    exact hend

/-- Requests may be handled as they come in: those in front first, and then what comes behind them. -/
theorem run_handle_append (hregistered : service.acks.isRegistered id) (hopen : service.acks.isOpen id)
    {requests : List Request}
    (hsmall : ∀ request ∈ requests, request.command.payload.length ≤ maxPayload)
    (hexecuted : (service.engine.executeAll requests).run drive = ((engine, executed), drive'))
    (hwords : ∀ entry ∈ executed, entry.2 ≠ .error .arithmetic) :
    ∃ acks, Answered id executed [] service.acks acks ∧
      (handle service id (requests.flatMap Request.encode)).run drive =
          ((⟨engine, acks⟩, .ok ()), drive') ∧
      ∀ rest, (handle service id (requests.flatMap Request.encode ++ rest)).run drive =
        (handle ⟨engine, acks⟩ id rest).run drive' := by
  obtain ⟨acks, hanswered, hprocess⟩ := run_process hregistered hopen hexecuted hwords
  -- however the stream behind them is split, the requests stand in front of it as they are
  have hrest (rest : Bytes) :
      (handle service id (requests.flatMap Request.encode ++ rest)).run drive =
        (handle ⟨engine, acks⟩ id rest).run drive' := by
    obtain ⟨more, tail, fault, hsplits⟩ := Request.exists_splits rest
    have hwhole : Request.Splits (requests.flatMap Request.encode ++ rest) (requests ++ more) tail
        fault := by
      refine ⟨?_, fun {request} hmem => ?_, hsplits.ends⟩
      · rw [List.flatMap_append, List.append_assoc, ← hsplits.stream_eq]
      · rcases List.mem_append.mp hmem with hmem | hmem
        · exact hsmall request hmem
        · exact hsplits.small hmem
    rw [handle, handle, hwhole.readAll_eq, hsplits.readAll_eq, List.map_append, List.append_assoc,
      hprocess]
  refine ⟨acks, hanswered, ?_, hrest⟩
  have hnone := hrest []
  rw [List.append_nil] at hnone
  exact hnone

/-- Whatever a client sends, the requests up to the end of the stream, or up to the first frame that is
refused, are carried out and answered, each once; nothing behind them is carried out. -/
theorem handle_answers (hregistered : service.acks.isRegistered id) (hopen : service.acks.isOpen id)
    (stream : Bytes) (drive : Drive) : ∃ requests tail fault,
      Request.Splits stream requests tail fault ∧
        (∀ {request : Request} {rest : Bytes}, request.command.payload.length ≤ maxPayload →
          tail ≠ request.encode ++ rest) ∧
        ∀ {engine executed drive'},
          (service.engine.executeAll requests).run drive = ((engine, executed), drive') →
            (∀ entry ∈ executed, entry.2 ≠ .error .arithmetic) →
              ∃ acks, Answered id executed (closing fault).1 service.acks acks ∧
                (handle service id stream).run drive = ((⟨engine, acks⟩, (closing fault).2), drive') := by
  obtain ⟨requests, tail, fault, hsplits⟩ := Request.exists_splits stream
  exact ⟨requests, tail, fault, hsplits, fun hsmall => hsplits.ends.ne_encode_append hsmall _,
    fun hexecuted hwords => run_handle hregistered hopen hsplits hexecuted hwords⟩

/-- A write and a read, a frame of no known kind, and another write, on a new connection. -/
theorem handle_answers_malformed : ∃ engine drive engine' last acks,
    (Engine.openWith (Config.default.withDirectory Path.fresh)).run.run (Drive.ofDisk Disk.fresh) =
        (.ok engine, drive) ∧
      Answered 1 [(⟨7, .put [107] [118]⟩, .ok .staged), (⟨8, .get [107]⟩, .ok (.value none))]
        [.error 0 "Protocol error: Unknown command type: 0xff"] AckQueue.empty.register.2 acks ∧
      (handle ⟨engine, AckQueue.empty.register.2⟩ 1
        (Request.encode ⟨7, .put [107] [118]⟩ ++ Request.encode ⟨8, .get [107]⟩ ++
          255 :: List.replicate 12 0 ++ Request.encode ⟨9, .putNumber [107] 5⟩)).run drive =
        ((⟨engine', acks⟩, .error (.protocol (.unknownCommand 255))), last) := by
  let config := Config.default.withDirectory Path.fresh
  let requests : List Request := [⟨7, .put [107] [118]⟩, ⟨8, .get [107]⟩]
  let executed : List (Request × Except Fault Outcome) :=
    [(⟨7, .put [107] [118]⟩, .ok .staged), (⟨8, .get [107]⟩, .ok (.value none))]
  let tail : Bytes := 255 :: List.replicate 12 0 ++ Request.encode ⟨9, .putNumber [107] 5⟩
  have hends : Request.Ends tail (.protocol (.unknownCommand 255)) :=
    .malformed (by decide) (by decide) (by rfl)
  have hruns : ∃ engine drive,
      (Engine.openWith config).run.run (Drive.ofDisk Disk.fresh) = (.ok engine, drive) ∧
      ∃ engine' last, (engine.executeAll requests).run drive = ((engine', executed), last) := by
    decide +kernel
  obtain ⟨engine, drive, hopened, engine', last, hexecuted⟩ := hruns
  let service : Service := ⟨engine, AckQueue.empty.register.2⟩
  have hregistered : service.acks.isRegistered 1 := (AckQueue.isRegistered_register _ _).mpr (.inl rfl)
  have hopen : service.acks.isOpen 1 := (AckQueue.isOpen_register _ _).mpr (.inl rfl)
  obtain ⟨requests', tail', fault', hsplits', -, hanswers⟩ :=
    handle_answers hregistered hopen (requests.flatMap Request.encode ++ tail) drive
  have hsplits : Request.Splits (requests.flatMap Request.encode ++ tail) requests tail
      (.protocol (.unknownCommand 255)) := ⟨rfl, by decide, hends⟩
  -- a stream is split in one way only
  obtain ⟨rfl, rfl, rfl⟩ := hsplits.eq hsplits'
  obtain ⟨acks, hanswered, hrun⟩ := hanswers hexecuted (by decide)
  exact ⟨engine, drive, engine', last, acks, hopened, hanswered, hrun⟩

end Handle

end Connection

end BarrierStore
