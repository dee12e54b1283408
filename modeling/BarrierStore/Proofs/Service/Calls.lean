import BarrierStore.Client
import BarrierStore.Proofs.Engine.Faults
import BarrierStore.Proofs.Service.Handling
import BarrierStore.Proofs.Wire.Response

/-!
# A client reads its answer

The response to a request is read from the front of what comes in, and it says what became of the
command: what was found, that it was written, or the text of a fault.

The module introduces:

* `Command.Expects` — what may become of a command, if it goes well;
* `Outcome.Fits` — the outcome has no value that is too large for a frame;
* `Client.perform`, `Client.reading` — the call for a command, and what it makes of the response;
* `Client.relayed` — an outcome as the client gets it: a fault is a refusal by the server.

Main statements: `Client.await_of_front` on any response, and `Client.perform_answer` on the response to
the call.
-/

namespace BarrierStore

/-! ## Answers -/

/-- What may become of a command, if it goes well. -/
inductive Command.Expects : Command → Outcome → Prop
  | get {key : Bytes} (value : Option Bytes) : Expects (.get key) (.value value)
  | put {key value : Bytes} : Expects (.put key value) .staged
  | ping : Expects .ping .pong
  | putNumber {key : Bytes} {number : UInt64} : Expects (.putNumber key number) .staged
  | getNumber {key : Bytes} (number : Option UInt64) : Expects (.getNumber key) (.number number)

/-- No value is too large for a frame. -/
def Outcome.Fits (outcome : Except Fault Outcome) : Prop :=
  ∀ {value}, outcome = .ok (.value (some value)) → value.length ≤ maxPayload

/-- An outcome is one that its command expects. -/
theorem Engine.expects_of_execute {engine engine' : Engine} {command : Command} {outcome : Outcome}
    {drive drive' : Drive} (h : (engine.execute command).run drive = ((engine', .ok outcome), drive')) :
    command.Expects outcome := by
  cases command with
  | get key =>
    rw [run_execute_get] at h
    rcases hget : engine.get drive.disk key with cause | value <;> rw [hget] at h <;> cases h
    exact .get value
  | put key value =>
    rw [run_execute_put] at h
    rcases hput : (engine.log.put key value).run drive with ⟨⟨log', cause | _⟩, last⟩ <;>
      rw [hput] at h <;> cases h
    exact .put
  | ping =>
    cases h
    exact .ping
  | putNumber key number =>
    cases h
    exact .putNumber
  | getNumber key =>
    cases h
    exact .getNumber _

/-- A command that is carried out is answered in one frame, if no value is too large. -/
theorem Request.length_payload_answer_le (request : Request) {outcome : Except Fault Outcome}
    (hfault : ∀ fault, outcome = .error fault → fault.OfCommand) (hfits : Outcome.Fits outcome) :
    ((request.answer outcome).payload.getD []).length ≤ maxPayload := by
  unfold answer
  split
  · exact hfits rfl
  · exact Nat.zero_le _
  · exact Nat.zero_le _
  · show (Bytes.bigEndian 8 _).length ≤ _
    rw [Bytes.length_bigEndian]
    decide
  · show pongPayload.length ≤ _
    decide
  · exact Nat.zero_le _
  · rename_i fault
    exact (hfault fault rfl).length_encode_le

namespace Client

variable {client : Client} {response : Response}

/-- The call for a command. -/
def perform (client : Client) : Command → Except Fault Outcome × Client
  | .get key => (.value <$> (client.get key).1, (client.get key).2)
  | .put key value => ((fun _ => .staged) <$> (client.put key value).1, (client.put key value).2)
  | .ping => ((fun _ => .pong) <$> client.ping.1, client.ping.2)
  | .putNumber key number =>
    ((fun _ => .staged) <$> (client.putNumber key number).1, (client.putNumber key number).2)
  | .getNumber key => (.number <$> (client.getNumber key).1, (client.getNumber key).2)

/-- What the call for a command makes of the response. -/
def reading : Command → Response → Except Fault Outcome
  | .get _, response => .value <$> found .ok response
  | .getNumber _, response => .number <$> found number response
  | .put _ _, response | .putNumber _ _, response => (fun _ => .staged) <$> done response
  | .ping, response => (fun _ => .pong) <$> done response

/-- To perform a command is to call and to read the answer. -/
theorem perform_eq (client : Client) (command : Command) : client.perform command =
    ((client.call command).1.bind (reading command), (client.call command).2) := by
  have hmap {α β γ : Type} (f : β → γ) (first : Except Fault α) (next : α → Except Fault β) :
      f <$> first.bind next = first.bind fun a => f <$> next a := by
    cases first <;> rfl
  cases command <;> exact congrArg (·, _) (hmap _ _ _)

/-- An outcome as the client gets it: a fault is a refusal by the server. -/
def relayed (outcome : Except Fault Outcome) : Except Fault Outcome :=
  outcome.mapError fun fault => .network (.refused fault.message)

/-! ## Waiting -/

/-- A response with the id of the request is the one that was waited for. -/
theorem await_of_front (hsmall : (response.payload.getD []).length ≤ maxPayload) {rest : Bytes}
    (hincoming : client.incoming = response.encode ++ rest) :
    client.await response.id = (.ok response.received, { client with incoming := rest }) := by
  have hfirst := readSteps_append (Response.read_encode_append hsmall rest) (response.encode ++ rest).length 0
  have hverdict : verdict? response.id (.ok response.received) = some (.ok response.received) :=
    if_pos rfl
  rw [await, readAll, hincoming, hfirst, List.findSome?_cons]
  dsimp only
  rw [hverdict]
  dsimp only [Option.map_some]
  rw [Nat.zero_add, List.drop_left' rfl]

/-- A call ends with the response to it, if nothing else comes in front of it. -/
theorem call_eq (hsmall : (response.payload.getD []).length ≤ maxPayload)
    (hid : response.id = client.nextId) (hincoming : client.incoming = response.encode) (command : Command) :
    client.call command =
      (.ok response.received, { (client.send command).2 with incoming := [] }) := by
  have hfront : (client.send command).2.incoming = response.encode ++ [] :=
    hincoming.trans response.encode.append_nil.symm
  have hawait := await_of_front hsmall hfront
  rw [hid] at hawait
  exact hawait

/-- The text of a fault arrives as it was sent. -/
theorem refusal_error {fault : Fault} (h : fault.OfCommand) (id : UInt64) :
    refusal (.error id fault.message) = .network (.refused fault.message) := by
  show Fault.network (.refused (String.ofList (Utf8.decodeLossy
    (Utf8.encode fault.message.toList)))) = _
  rw [h.decodeLossy_encode]

/-- A number is read back from its eight bytes. -/
theorem number_bigEndian (n : UInt64) : number (Bytes.bigEndian 8 n.toNat) = .ok n := by
  have hword : n.toNat % Bytes.count 8 = n.toNat := Nat.mod_eq_of_lt n.toNat_lt
  rw [number, if_pos (Bytes.length_bigEndian ..), Bytes.ofBigEndian_bigEndian, hword, UInt64.ofNat_toNat]

/-- What was found is read from the response, be it empty. -/
theorem found_ok {α : Type} (read : Bytes → Except Fault α) (id : UInt64) (payload : Option Bytes) :
    found read (Response.ok id payload).received = some <$> read (payload.getD []) := by
  show some <$> read ((Response.ok id payload).received.payload.getD []) = _
  rw [Response.getD_payload_received]
  rfl

/-- The response to a call says what became of the command. -/
theorem reading_answer {command : Command} {outcome : Except Fault Outcome} (id : UInt64)
    (hexpects : ∀ answer, outcome = .ok answer → command.Expects answer)
    (hfault : ∀ fault, outcome = .error fault → fault.OfCommand) :
    reading command (Request.answer ⟨id, command⟩ outcome).received = relayed outcome := by
  rcases outcome with fault | answer
  · -- a fault is told by its text, which is not empty, so the payload is read as it was written
    have hcommand := hfault fault rfl
    have hreceived : (Response.error id fault.message).received = Response.error id fault.message :=
      Response.received_of_ne_nil hcommand.encode_ne_nil
    have hrefusal := refusal_error hcommand id
    show reading command (Response.error id fault.message).received = _
    rw [hreceived]
    cases command <;> exact congrArg Except.error hrefusal
  · cases hexpects answer rfl with
    | get value =>
      rcases value with _ | value
      · rfl
      · exact congrArg (Outcome.value <$> ·) (found_ok .ok id (some value))
    | getNumber number =>
      rcases number with _ | word
      · rfl
      · have hfound := found_ok Client.number id (some (Bytes.bigEndian 8 word.toNat))
        rw [Option.getD_some, number_bigEndian] at hfound
        exact congrArg (Outcome.number <$> ·) hfound
    | put | putNumber | ping => rfl

/-- A call whose response says what became of the command gives just that. -/
theorem perform_answer {command : Command} {outcome : Except Fault Outcome}
    (hexpects : ∀ answer, outcome = .ok answer → command.Expects answer)
    (hfault : ∀ fault, outcome = .error fault → fault.OfCommand) (hfits : Outcome.Fits outcome)
    (hincoming : client.incoming = (Request.answer ⟨client.nextId, command⟩ outcome).encode) :
    client.perform command = (relayed outcome, { (client.send command).2 with incoming := [] }) := by
  have hcall := call_eq (Request.length_payload_answer_le _ hfault hfits)
    (Request.id_answer ⟨client.nextId, command⟩ outcome) hincoming command
  rw [perform_eq, hcall]
  exact congrArg (·, _) (reading_answer client.nextId hexpects hfault)

end Client

end BarrierStore
