import BarrierStore.Connection
import BarrierStore.Proofs.Engine.Refinement
import BarrierStore.Proofs.Service.Queue
import BarrierStore.Proofs.ValueLog.Steps
import Mathlib.Logic.Relation

/-!
# Connections and the driver at the same time

Connections come and go and carry out the requests of their clients, while a driver runs one barrier after
the other. A connection that has carried out a write stages its acknowledgement afterwards, so other
connections and the driver may take steps between the two. The driver collects what is staged, brings the
values and then the numbers to the medium and makes them visible, and delivers what it has collected.

A ticket says which write an acknowledgement belongs to. The queue does not know it: the tickets are
recorded beside the queue, from the write that they belong to up to the outbound queue.

The module introduces:

* `Service.Write`, `Service.Ticket` — a write among all writes of its kind, and its acknowledgement;
* `Service.Driver` — how far the barrier has come;
* `Service.Machine` — an engine in service, all writes to it, and the tickets of each stage;
* `Machine.Step` — a step of a connection or of the driver, with its `Event`;
* `Machine.Runs` — steps whose events are of some kind; `Machine.Takes`, steps of these events.

Main statements: `Engine.execute_cases`, and which steps a request and a barrier take that are carried out
at a stretch, `Machine.takes_dispatch` and `Machine.takes_runBarrier`.
-/

namespace BarrierStore

/-! ## What comes of a command -/

namespace ValueLog

variable {log log' : ValueLog} {drive drive' : Drive}

/-- To open the next segment leaves the index. -/
theorem index_openNext {range : SegmentRange}
    (h : (log.openNext range).run.run drive = (.ok log', drive')) : log'.index = log.index := by
  obtain ⟨file, middle, -, hlast⟩ := Drive.run_bind_ok h
  cases hlast
  rfl

/-- So does making room for a record. -/
theorem index_makeRoom {length : Nat}
    (h : (log.makeRoom length).run.run drive = (.ok log', drive')) : log'.index = log.index := by
  unfold makeRoom at h
  split at h
  · -- of the three steps the last one makes the log
    rw [rollOver_eq] at h
    obtain ⟨_, sealed, -, hrest⟩ := Drive.run_bind_ok h
    obtain ⟨range, extended, -, hopened⟩ := Drive.run_bind_ok hrest
    exact index_openNext hopened
  · cases h
    rfl

/-- A record that is appended is staged. -/
theorem index_append {record : Record}
    (h : (log.append record).run.run drive = (.ok log', drive')) :
    ∃ address, log'.index = (log.stage record.key address).index := by
  unfold append at h
  dsimp only at h
  -- without an address nothing comes of it
  split at h
  · rename_i address haddress
    obtain ⟨_, written, -, hrest⟩ := Drive.run_bind_ok h
    cases hrest
    exact ⟨_, rfl⟩
  · cases h

/-- A write that goes well stages the address of its record, and one that fails stages nothing. -/
theorem index_put {key value : Bytes} {outcome : Except Fault Unit}
    (h : (log.put key value).run drive = ((log', outcome), drive')) :
    (∃ address, outcome = .ok () ∧ log'.index = (log.stage key address).index) ∨
      ∃ fault, outcome = .error fault ∧ log'.index = log.index := by
  rw [run_put] at h
  rcases hroom : (log.makeRoom (Record.length ⟨key, value⟩)).run.run drive with
    ⟨fault | sealed, middle⟩ <;> rw [hroom] at h
  · cases h
    exact .inr ⟨fault, rfl, rfl⟩
  have hindex := index_makeRoom hroom
  dsimp only at h
  rcases happend : (sealed.append ⟨key, value⟩).run.run middle with ⟨fault | appended, last⟩ <;>
    rw [happend] at h <;> cases h
  · exact .inr ⟨fault, rfl, hindex⟩
  · obtain ⟨address, hstaged⟩ := index_append happend
    refine .inl ⟨address, rfl, hstaged.trans ?_⟩
    rw [stage, stage, hindex]

end ValueLog

namespace Engine

/-- What a command does to the two indices. -/
theorem execute_cases {engine engine' : Engine} {command : Command} {outcome : Except Fault Outcome}
    {drive drive' : Drive} (h : (engine.execute command).run drive = ((engine', outcome), drive')) :
    (∃ key value address, command = .put key value ∧ outcome = .ok .staged ∧
        engine'.log.index = (engine.log.stage key address).index ∧ engine'.numbers = engine.numbers) ∨
      (∃ key number, command = .putNumber key number ∧ outcome = .ok .staged ∧
        engine'.log = engine.log ∧ engine'.numbers =
          { engine.numbers with staged := engine.numbers.staged.insert key number }) ∨
      outcome ≠ .ok .staged ∧ engine'.log.index = engine.log.index ∧
        engine'.numbers = engine.numbers := by
  cases command with
  | put key value =>
    rw [run_execute_put] at h
    rcases hcase : (engine.log.put key value).run drive with ⟨⟨log', result⟩, last⟩
    rw [hcase] at h
    rcases ValueLog.index_put hcase with ⟨address, rfl, hindex⟩ | ⟨fault, rfl, hindex⟩ <;> cases h
    · exact .inl ⟨key, value, address, rfl, rfl, hindex, rfl⟩
    · exact .inr (.inr ⟨nofun, hindex, rfl⟩)
  | putNumber key number =>
    cases h
    exact .inr (.inl ⟨key, number, rfl, rfl, rfl, rfl⟩)
  | get key =>
    rw [run_execute_get] at h
    cases h
    refine .inr (.inr ⟨?_, rfl, rfl⟩)
    cases engine.get drive.disk key <;> exact nofun
  | ping | getNumber =>
    cases h
    exact .inr (.inr ⟨nofun, rfl, rfl⟩)

section Execute

variable {engine engine' : Engine} {command : Command} {outcome : Except Fault Outcome}
  {drive drive' : Drive}

/-- A staged value has its address in the value index. -/
theorem indices_of_put {key value : Bytes} {address : UInt64}
    (h : (engine.execute (.put key value)).run drive = ((engine', .ok .staged), drive'))
    (haddress : engine'.log.index.staged[key]? = some address) :
    engine'.log.index = (engine.log.stage key address).index ∧ engine'.numbers = engine.numbers := by
  rcases execute_cases h with ⟨_, _, found, hcommand, -, hindex, hnumbers⟩ | ⟨_, _, hcommand, -⟩ |
    ⟨hstaged, -⟩
  · cases hcommand
    rw [hindex] at haddress
    have hfound : found = address :=
      Option.some.inj (Std.ExtTreeMap.getElem?_insert_self.symm.trans haddress)
    exact ⟨hfound ▸ hindex, hnumbers⟩
  · cases hcommand
  · exact absurd rfl hstaged

/-- A command that is not a staged write leaves both indices as they are. -/
theorem indices_of_answered (h : (engine.execute command).run drive = ((engine', outcome), drive'))
    (hstaged : outcome ≠ .ok .staged) :
    engine'.log.index = engine.log.index ∧ engine'.numbers = engine.numbers := by
  rcases execute_cases h with ⟨_, _, _, -, houtcome, -⟩ | ⟨_, _, -, houtcome, -⟩ | ⟨-, hsame⟩
  · exact absurd houtcome hstaged
  · exact absurd houtcome hstaged
  · exact hsame

end Execute

end Engine

namespace Service

/-- An outcome other than a staged write is answered at once. -/
theorem route_eq (service : Service) (id : ConnectionId) (request : UInt64)
    {outcome : Except Fault Outcome} (h : outcome ≠ .ok .staged) :
    ∃ response, service.route id request outcome = service.send id response := by
  unfold route
  split
  case h_6 => exact absurd rfl h
  all_goals exact ⟨_, rfl⟩

/-! ## The steps -/

/-- A write, as one of all writes of its kind: `count` of them were carried out before it. -/
inductive Write where
  | value (key : Bytes) (count : Nat)
  | number (key : Bytes) (count : Nat)
  deriving DecidableEq

/-- An acknowledgement, with the connection that it goes to and the write that it belongs to. -/
structure Ticket where
  id : ConnectionId
  response : Response
  write : Write
  deriving DecidableEq

/-- The acknowledgements of a connection among these tickets. -/
def responses (id : ConnectionId) (tickets : List Ticket) : List Response :=
  (tickets.filter (·.id = id)).map (·.response)

/-- How far the barrier has come. -/
inductive Driver where
  /-- There is no barrier. -/
  | idle
  /-- The acknowledgements are collected. -/
  | collected (batch : AckBatch)
  /-- The staged values are taken. -/
  | valuesTaken (batch : AckBatch) (values : AddressMap)
  /-- The active segment was waited for. -/
  | valuesWaited (batch : AckBatch) (values : AddressMap)
  /-- The values are visible. -/
  | valuesShown (batch : AckBatch)
  /-- The staged numbers are taken. -/
  | numbersTaken (batch : AckBatch) (numbers : AddressMap)
  /-- The numbers are visible. -/
  | numbersShown (batch : AckBatch)

/-- An engine in service. -/
structure Machine where
  engine : Engine
  acks : AckQueue
  drive : Drive
  driver : Driver
  /-- All records that were written, with their addresses, oldest first. -/
  values : List (UInt64 × Record)
  /-- All numbers that were written, with their keys, oldest first. -/
  numbers : List (Bytes × UInt64)
  /-- The tickets of writes that are carried out and whose acknowledgements are not staged yet. -/
  pending : List Ticket
  /-- The tickets of the staged acknowledgements. -/
  staged : List Ticket
  /-- The tickets of the acknowledgements that the barrier has collected. -/
  carried : List Ticket
  /-- The tickets of all acknowledgements that were delivered. -/
  released : List Ticket

/-- What a step is about. -/
inductive Event where
  /-- A connection comes, under this id. -/
  | register (id : ConnectionId)
  /-- A connection goes. -/
  | unregister (id : ConnectionId)
  /-- A connection carries out a request. -/
  | execute (id : ConnectionId)
  /-- A connection stages an acknowledgement. -/
  | stage (id : ConnectionId)
  /-- What waits for a connection is sent to its client. -/
  | receive (id : ConnectionId)
  /-- The driver begins a barrier. -/
  | collect
  /-- The driver takes the next step of the barrier. -/
  | sync
  /-- The driver ends the barrier. -/
  | deliver

/-- Neither does the connection of that id go, nor does another one come under its id. -/
def Event.Keeps (id : ConnectionId) : Event → Prop
  | register other | unregister other => other ≠ id
  | execute _ | stage _ | receive _ | collect | sync | deliver => True

namespace Machine

/-- An engine at the start of its service. -/
def start (engine : Engine) (drive : Drive) : Machine :=
  { engine, drive, acks := .empty, driver := .idle, values := [], numbers := [], pending := [],
    staged := [], carried := [], released := [] }

/-- A step of a connection or of the driver. -/
inductive Step (machine : Machine) : Event → Machine → Prop
  /-- A connection comes. -/
  | registered :
      Step machine (.register machine.acks.register.1) { machine with
        acks := machine.acks.register.2
        staged := machine.staged.filter (·.id ≠ machine.acks.register.1) }
  /-- A connection goes, and what is staged for it is lost. -/
  | unregistered {id : ConnectionId} :
      Step machine (.unregister id) { machine with
        acks := machine.acks.unregister id
        staged := machine.staged.filter (·.id ≠ id) }
  /-- A connection writes a value. -/
  | put {id : ConnectionId} {request : Request} {key value : Bytes} {engine : Engine}
    {drive : Drive} {address : UInt64} :
    request.command = .put key value → Record.Small ⟨key, value⟩ →
    (machine.engine.execute request.command).run machine.drive = ((engine, .ok .staged), drive) →
    engine.log.index.staged[key]? = some address →
      Step machine (.execute id) { machine with
        engine, drive
        values := machine.values ++ [(address, ⟨key, value⟩)]
        pending := machine.pending ++
          [⟨id, .ok request.id none, .value key machine.values.length⟩] }
  /-- A connection writes a number. -/
  | putNumber {id : ConnectionId} {request : Request} {key : Bytes} {number : UInt64}
    {engine : Engine} {drive : Drive} :
    request.command = .putNumber key number →
    (machine.engine.execute request.command).run machine.drive = ((engine, .ok .staged), drive) →
      Step machine (.execute id) { machine with
        engine, drive
        numbers := machine.numbers ++ [(key, number)]
        pending := machine.pending ++
          [⟨id, .ok request.id none, .number key machine.numbers.length⟩] }
  /-- A connection carries out a request that is answered at once: it reads, or it fails. -/
  | answered {id : ConnectionId} {request : Request} {engine : Engine}
    {outcome : Except Fault Outcome} {drive : Drive} :
    (Call.execute request.command).Small →
    (machine.engine.execute request.command).run machine.drive = ((engine, outcome), drive) →
    outcome ≠ .ok .staged → outcome ≠ .error .arithmetic →
      Step machine (.execute id) { machine with
        engine, drive
        acks := (route ⟨engine, machine.acks⟩ id request.id outcome).acks }
  /-- A connection carries out a request for which there is no answer. -/
  | stopped {id : ConnectionId} {request : Request} {engine : Engine} {drive : Drive} :
    (Call.execute request.command).Small →
    (machine.engine.execute request.command).run machine.drive =
        ((engine, .error .arithmetic), drive) →
      Step machine (.execute id) { machine with engine, drive }
  /-- A connection stages the acknowledgement of a write; it is lost if the connection is gone. -/
  | staged {front rest : List Ticket} {ticket : Ticket} : machine.pending = front ++ ticket :: rest →
      Step machine (.stage ticket.id) { machine with
        acks := machine.acks.stage ticket.id ticket.response
        pending := front ++ rest
        staged := if machine.acks.isRegistered ticket.id then machine.staged ++ [ticket]
          else machine.staged }
  /-- What waits for a connection is sent to its client. -/
  | received {id : ConnectionId} :
      Step machine (.receive id) { machine with acks := (machine.acks.receive id).2 }
  /-- The driver collects what is staged. -/
  | collected : machine.driver = .idle →
      Step machine .collect { machine with
        acks := machine.acks.collect.2
        driver := .collected machine.acks.collect.1
        staged := []
        carried := machine.staged }
  /-- The driver takes the staged values. -/
  | valuesTaken {batch : AckBatch} : machine.driver = .collected batch →
      Step machine .sync { machine with
        engine := { machine.engine with log := machine.engine.log.beginSync.2 }
        driver := .valuesTaken batch machine.engine.log.beginSync.1 }
  /-- The driver waits for the active segment. -/
  | valuesWaited {batch : AckBatch} {values : AddressMap} :
    machine.driver = .valuesTaken batch values →
      Step machine .sync { machine with
        drive := (machine.engine.log.syncActive.run machine.drive).2
        driver := .valuesWaited batch values }
  /-- The driver waits for the index log, and makes the values visible. -/
  | valuesShown {batch : AckBatch} {values : AddressMap} :
    machine.driver = .valuesWaited batch values →
      Step machine .sync { machine with
        engine := { machine.engine with
          log := ((machine.engine.log.commitSync values).run machine.drive).1 }
        drive := ((machine.engine.log.commitSync values).run machine.drive).2
        driver := .valuesShown batch }
  /-- The driver takes the staged numbers. -/
  | numbersTaken {batch : AckBatch} : machine.driver = .valuesShown batch →
      Step machine .sync { machine with
        engine := { machine.engine with numbers := machine.engine.numbers.beginSync.2 }
        driver := .numbersTaken batch machine.engine.numbers.beginSync.1 }
  /-- The driver waits for the number log, and makes the numbers visible. -/
  | numbersShown {batch : AckBatch} {numbers : AddressMap} :
    machine.driver = .numbersTaken batch numbers →
      Step machine .sync { machine with
        engine := { machine.engine with
          numbers := ((machine.engine.numbers.commitSync numbers).run machine.drive).1 }
        drive := ((machine.engine.numbers.commitSync numbers).run machine.drive).2
        driver := .numbersShown batch }
  /-- The driver delivers what it has collected to the connections that are still there. -/
  | delivered {batch : AckBatch} : machine.driver = .numbersShown batch →
      Step machine .deliver { machine with
        acks := (machine.acks.deliver batch).2
        driver := .idle
        carried := []
        released := machine.released ++
          machine.carried.filter fun ticket => machine.acks.isRegistered ticket.id }

/-- Steps whose events are such. -/
def Runs (allowed : Event → Prop) : Machine → Machine → Prop :=
  Relation.ReflTransGen fun machine machine' => ∃ event, allowed event ∧ Step machine event machine'

/-- Steps of these events, one behind the other. -/
inductive Takes : Machine → List Event → Machine → Prop
  | nil {machine : Machine} : Takes machine [] machine
  | cons {machine middle last : Machine} {event : Event} {events : List Event} :
    Step machine event middle → Takes middle events last → Takes machine (event :: events) last

variable {machine machine' : Machine} {event : Event} {events : List Event} {allowed : Event → Prop}

theorem Runs.step (h : Step machine event machine') (hevent : allowed event) :
    Runs allowed machine machine' :=
  .single ⟨event, hevent, h⟩

theorem Runs.tail {middle : Machine} (h : Runs allowed machine middle)
    (hstep : Step middle event machine') (hevent : allowed event) : Runs allowed machine machine' :=
  Relation.ReflTransGen.tail h ⟨event, hevent, hstep⟩

theorem Runs.trans {middle : Machine} (h : Runs allowed machine middle)
    (h' : Runs allowed middle machine') : Runs allowed machine machine' :=
  Relation.ReflTransGen.trans h h'

/-- Steps of some kind are steps of a wider kind. -/
theorem Runs.mono {allowed' : Event → Prop} (h : Runs allowed machine machine')
    (himp : ∀ event, allowed event → allowed' event) : Runs allowed' machine machine' :=
  Relation.ReflTransGen.mono (fun _ _ hstep =>
    hstep.imp fun event hboth => ⟨himp event hboth.1, hboth.2⟩) _ _ h

/-- What each of the steps keeps, all of them keep. -/
theorem Runs.keep {P : Machine → Prop} (h : Runs allowed machine machine') (hstart : P machine)
    (hkeep : ∀ {middle next : Machine} {event : Event}, allowed event → Step middle event next →
      P middle → P next) : P machine' := by
  induction h with
  | refl => exact hstart
  | tail _ hlast ih =>
    obtain ⟨event, hevent, hstep⟩ := hlast
    exact hkeep hevent hstep ih

/-- Steps of these events are steps of such, if each of the events is. -/
theorem Takes.runs (h : Takes machine events machine') (hall : ∀ event ∈ events, allowed event) :
    Runs allowed machine machine' := by
  induction h with
  | nil => exact .refl
  | cons hstep _ ih =>
    exact (Runs.step hstep (hall _ (.head _))).trans (ih fun event hevent => hall event (.tail _ hevent))

/-! ## At a stretch -/

/-- What comes of a request, from what comes of its command. -/
theorem run_dispatch {engine engine' : Engine} {acks : AckQueue} {id : ConnectionId} {request : Request}
    {drive drive' : Drive} {outcome : Except Fault Outcome}
    (h : (engine.execute request.command).run drive = ((engine', outcome), drive')) :
    (Connection.dispatch ⟨engine, acks⟩ id request).run drive =
      if outcome = .error .arithmetic then ((⟨engine', acks⟩, .error .arithmetic), drive')
      else ((route ⟨engine', acks⟩ id request.id outcome, .ok ()), drive') := by
  unfold Connection.dispatch
  rw [StateT.run_bind, h]
  rcases outcome with fault | outcome
  · cases fault <;> rfl
  · rfl

/-- A request that is carried out at a stretch takes one step, or two if it is a write that went well. The
engine is then the one that its command has left. -/
theorem takes_dispatch (machine : Machine) (id : ConnectionId) {request : Request} {engine : Engine}
    {outcome : Except Fault Outcome} {drive : Drive} (hsmall : (Call.execute request.command).Small)
    (hrun : (machine.engine.execute request.command).run machine.drive = ((engine, outcome), drive)) :
    ∃ machine' result, machine'.engine = engine ∧ machine'.drive = drive ∧
      Takes machine (if outcome = .ok .staged then [.execute id, .stage id] else [.execute id]) machine' ∧
      (Connection.dispatch ⟨machine.engine, machine.acks⟩ id request).run machine.drive =
        ((⟨machine'.engine, machine'.acks⟩, result), machine'.drive) := by
  rw [run_dispatch hrun]
  rcases Engine.execute_cases hrun with ⟨key, value, address, hcommand, rfl, hindex, -⟩ |
    ⟨key, number, hcommand, rfl, -, -⟩ | ⟨hstaged, -, -⟩
  · -- a write that goes well is staged, and that is a step of its own
    have haddress : engine.log.index.staged[key]? = some address := by
      rw [hindex]
      exact Std.ExtTreeMap.getElem?_insert_self
    rw [hcommand] at hsmall
    have htaken : Takes machine [.execute id, .stage id] _ :=
      .cons (.put hcommand hsmall hrun haddress)
        (.cons (@Step.staged _ machine.pending [] ⟨id, .ok request.id none, _⟩ rfl) .nil)
    exact ⟨_, _, rfl, rfl, htaken, rfl⟩
  · have htaken : Takes machine [.execute id, .stage id] _ :=
      .cons (.putNumber hcommand hrun)
        (.cons (@Step.staged _ machine.pending [] ⟨id, .ok request.id none, _⟩ rfl) .nil)
    exact ⟨_, _, rfl, rfl, htaken, rfl⟩
  · rw [if_neg hstaged]
    split
    · rename_i hstopped
      subst hstopped
      exact ⟨_, _, rfl, rfl, .cons (.stopped hsmall hrun) .nil, rfl⟩
    · rename_i hanswered
      obtain ⟨response, hroute⟩ := route_eq ⟨engine, machine.acks⟩ id request.id hstaged
      refine ⟨_, .ok (), rfl, rfl, .cons (.answered hsmall hrun hstaged hanswered) .nil, ?_⟩
      rw [hroute]
      rfl

/-- A barrier that is carried out at a stretch collects, takes the steps of the two indices, and
delivers. -/
theorem takes_runBarrier (machine : Machine) (hidle : machine.driver = .idle) : ∃ machine' count,
    Takes machine [.collect, .sync, .sync, .sync, .sync, .sync, .deliver] machine' ∧
      (runBarrier ⟨machine.engine, machine.acks⟩).run machine.drive =
        ((count, ⟨machine'.engine, machine'.acks⟩), machine'.drive) :=
  ⟨_, _, .cons (.collected hidle) (.cons (.valuesTaken rfl) (.cons (.valuesWaited rfl)
    (.cons (.valuesShown rfl) (.cons (.numbersTaken rfl) (.cons (.numbersShown rfl)
      (.cons (.delivered rfl) .nil)))))), rfl⟩

/-- A barrier that has begun comes to its end by steps of the driver alone. -/
theorem exists_deliver (machine : Machine) (hbusy : machine.driver ≠ .idle) : ∃ machine' machine'',
    Runs (· = .sync) machine machine' ∧ Step machine' .deliver machine'' := by
  -- the last steps are the same from every phase, so they are told once, from the end
  have hshown {middle : Machine} {batch : AckBatch} (hruns : Runs (· = .sync) machine middle)
      (hphase : middle.driver = .valuesShown batch) : ∃ machine' machine'',
      Runs (· = .sync) machine machine' ∧ Step machine' .deliver machine'' :=
    ⟨_, _, (hruns.tail (.numbersTaken hphase) rfl).tail (.numbersShown rfl) rfl, .delivered rfl⟩
  have hwaited {middle : Machine} {batch : AckBatch} {values : AddressMap}
      (hruns : Runs (· = .sync) machine middle) (hphase : middle.driver = .valuesWaited batch values) :
      ∃ machine' machine'', Runs (· = .sync) machine machine' ∧ Step machine' .deliver machine'' :=
    hshown (hruns.tail (.valuesShown hphase) rfl) rfl
  cases hphase : machine.driver with
  | idle => exact absurd hphase hbusy
  | collected =>
    have htaken : Runs (· = .sync) machine _ := .step (.valuesTaken hphase) rfl
    exact hwaited (htaken.tail (.valuesWaited rfl) rfl) rfl
  | valuesTaken => exact hwaited (.step (.valuesWaited hphase) rfl) rfl
  | valuesWaited => exact hwaited .refl hphase
  | valuesShown => exact hshown .refl hphase
  | numbersTaken => exact ⟨_, _, .step (.numbersShown hphase) rfl, .delivered rfl⟩
  | numbersShown => exact ⟨_, _, .refl, .delivered hphase⟩

end Machine

end Service

end BarrierStore
