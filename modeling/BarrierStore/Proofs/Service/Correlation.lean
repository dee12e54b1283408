import BarrierStore.Proofs.Service.Calls
import BarrierStore.Proofs.Wire.Boundaries

/-!
# Which response a call returns

A client reads the stream of responses frame by frame and never goes back. A call passes over the frames
that are for others and ends with the first one that is for it, that is an error of the connection as a
whole, or that cannot be read; the next call goes on behind that frame. So a response that comes late, or
once more, is passed over by the calls behind the one that it is for.

The module introduces:

* `Client.Foreign` — a response that a call passes over;
* `Client.Concludes` — the frame that ends a call, and what the call ends with, and `Client.Waits`, what
  one call reads of a stream;
* `Client.after` — a client after some calls;
* `Client.Correlates` — what one of the calls on a client sends, reads and returns.

Main statements: `Client.await_eq_iff`, and `Client.correlates_after` on any calls one after the other.
-/

namespace BarrierStore

namespace Client

open BarrierStore.Frame

/-! ## One wait -/

/-- A response that a wait for the response to request `id` passes over. -/
def Foreign (id : UInt64) (response : Response) : Prop :=
  response.id ≠ id ∧ ¬ (response.status = .error ∧ response.id = 0)

/-- The bytes that end a wait, in front of the rest of the stream, and what the wait ends with. -/
inductive Concludes (id : UInt64) : (last rest : Bytes) → Except Fault Response → Prop
  /-- A response to the request. -/
  | answered {frame rest : Bytes} {response : Response} : Whole frame →
      Response.decode frame = .ok response → response.id = id → Concludes id frame rest (.ok response)
  /-- An error of the connection as a whole. -/
  | refused {frame rest : Bytes} {response : Response} : Whole frame →
      Response.decode frame = .ok response → response.id ≠ id → response.status = .error →
      response.id = 0 → Concludes id frame rest (.error (refusal response))
  /-- A frame that is no response. -/
  | malformed {frame rest : Bytes} {cause : ProtocolFault} : Whole frame →
      Response.decode frame = .error cause → Concludes id frame rest (.error (.protocol cause))
  /-- A header that announces too large a payload. -/
  | oversized {header rest : Bytes} : header.length = headerLength → maxPayload < announced header →
      Concludes id header rest (.error (.protocol (.oversizedPayload .response (announced header))))
  /-- The end of the stream, also in the middle of a frame. -/
  | cut {tail : Bytes} : (tail.length < headerLength ∨
      announced tail ≤ maxPayload ∧ tail.length < headerLength + announced tail) →
      Concludes id tail [] (.error (.io .unexpectedEof))

/-- What a wait reads of a stream: responses that are passed over, and the bytes that end it. -/
structure Waits (id : UInt64) (stream : Bytes) (passed : List Bytes) (last rest : Bytes)
    (outcome : Except Fault Response) : Prop where
  stream_eq : stream = passed.flatten ++ (last ++ rest)
  foreign {frame : Bytes} : frame ∈ passed → Whole frame ∧
    ∃ response, Response.decode frame = .ok response ∧ Foreign id response
  concludes : Concludes id last rest outcome

variable {client client' : Client} {id : UInt64} {stream last rest : Bytes} {passed : List Bytes}
  {outcome : Except Fault Response} {response : Response}

/-- A response to another request decides nothing. -/
theorem verdict?_of_foreign (h : Foreign id response) : verdict? id (.ok response) = none := by
  rw [verdict?, if_neg h.1, if_neg h.2]

/-- What ends a wait is read as such, and no byte behind it. -/
theorem Concludes.exists_read (h : Concludes id last rest outcome) :
    ∃ found, Response.read (last ++ rest) = (found, last.length) ∧ verdict? id found = some outcome := by
  cases h with
  | answered hwhole hdecode hid =>
    refine ⟨_, delimits_response.read_append hwhole rest, ?_⟩
    rw [hdecode]
    exact if_pos hid
  | refused hwhole hdecode hid hstatus hzero =>
    refine ⟨_, delimits_response.read_append hwhole rest, ?_⟩
    rw [hdecode]
    exact (if_neg hid).trans (if_pos ⟨hstatus, hzero⟩)
  | malformed hwhole hdecode =>
    refine ⟨_, delimits_response.read_append hwhole rest, ?_⟩
    rw [hdecode]
    rfl
  | oversized hheader hlarge =>
    -- the length is judged when the header was read, and no more than that is used up
    have hannounced := announced_append (Nat.le_of_eq hheader.symm) rest
    have hlong : headerLength ≤ (last ++ rest).length := by
      rw [List.length_append, hheader]
      exact Nat.le_add_right _ _
    have hread := delimits_response.oversized hlong (hannounced ▸ hlarge)
    rw [hannounced] at hread
    rw [hread, hheader]
    exact ⟨_, rfl, rfl⟩
  | cut hcut =>
    refine ⟨.error (.io .unexpectedEof), ?_, rfl⟩
    rw [List.append_nil, Response.read, Frame.read_eq]
    -- the stream ends inside the header, or inside an admissible payload
    by_cases hheader : last.length < headerLength
    · rw [if_pos hheader]
      rfl
    · obtain ⟨hsmall, hpayload⟩ := hcut.resolve_left hheader
      rw [if_neg hheader, if_neg (Nat.not_lt.mpr hsmall), if_pos hpayload]
      rfl

/-- A wait goes past the frames that are for others, one after the other, to the one that ends it. -/
theorem Waits.findSome?_readSteps (h : Waits id stream passed last rest outcome) {steps : Nat}
    (hsteps : passed.length < steps) (position : Nat) :
    (readSteps Response.read steps position stream).findSome?
        (fun (found, position) => (verdict? id found).map (·, position)) =
      some (outcome, position + (passed.flatten ++ last).length) := by
  -- on the frames that are passed over: the reader takes one step for each
  induction passed generalizing stream steps position with
  | nil =>
    obtain ⟨count, rfl⟩ := Nat.exists_eq_add_of_lt hsteps
    obtain ⟨found, hread, hverdict⟩ := h.concludes.exists_read
    rw [h.stream_eq, List.flatten_nil, List.nil_append, List.nil_append, readSteps, hread]
    cases found <;> simp [hverdict]
  | cons frame others ih =>
    obtain ⟨count, rfl⟩ := Nat.exists_eq_add_of_lt hsteps
    obtain ⟨hwhole, response, hdecode, hforeign⟩ := h.foreign List.mem_cons_self
    have hread := delimits_response.read_append hwhole (others.flatten ++ (last ++ rest))
    rw [hdecode] at hread
    have hrest : Waits id (others.flatten ++ (last ++ rest)) others last rest outcome :=
      ⟨rfl, fun hmem => h.foreign (List.mem_cons_of_mem _ hmem), h.concludes⟩
    rw [h.stream_eq, List.flatten_cons, List.append_assoc, readSteps_append hread,
      List.findSome?_cons]
    dsimp only
    rw [verdict?_of_foreign hforeign]
    dsimp only [Option.map_none]
    rw [ih hrest (by rw [List.length_cons]; omega)]
    simp [Nat.add_assoc]

/-- A call passes no more frames than there are bytes. -/
theorem Waits.length_le (h : Waits id stream passed last rest outcome) :
    passed.length ≤ stream.length := by
  have hlengths : ∀ frames : List Bytes, (∀ frame ∈ frames, Whole frame) →
      frames.length ≤ frames.flatten.length := by
    intro frames hframes
    induction frames with
    | nil => exact Nat.le_refl _
    | cons frame others ih =>
      have hframe := (hframes frame List.mem_cons_self).1
      have hothers := ih fun other hother => hframes other (List.mem_cons_of_mem _ hother)
      rw [headerLength] at hframe
      rw [List.flatten_cons, List.length_append, List.length_cons]
      omega
  rw [h.stream_eq, List.length_append]
  exact Nat.le_add_right_of_le (hlengths passed fun frame hframe => (h.foreign hframe).1)

/-- So a wait ends as it does, and leaves what stands behind the frame that ends it. -/
theorem Waits.await_eq (h : Waits id client.incoming passed last rest outcome) :
    client.await id = (outcome, { client with incoming := rest }) := by
  have hfound := h.findSome?_readSteps (Nat.lt_succ_of_le h.length_le) 0
  have hrest : client.incoming.drop (passed.flatten ++ last).length = rest := by
    rw [h.stream_eq, ← List.append_assoc, List.drop_left' rfl]
  rw [await, readAll, hfound, Nat.zero_add]
  dsimp only
  rw [hrest]

/-- A call stops at a frame that decides. -/
theorem concludes_of_verdict {frame : Bytes} {found : Except ProtocolFault Response}
    (hwhole : Whole frame) (hdecode : Response.decode frame = found)
    (hverdict : verdict? id (found.mapError .protocol) = some outcome) :
    Concludes id frame rest outcome := by
  cases found with
  | error cause =>
    cases hverdict
    exact .malformed hwhole hdecode
  | ok response =>
    unfold verdict? at hverdict
    dsimp only [Except.mapError] at hverdict
    -- the id decides first, and behind it an error of the connection
    split at hverdict
    · rename_i hid
      cases hverdict
      exact .answered hwhole hdecode hid
    · rename_i hid
      split at hverdict
      · rename_i herror
        cases hverdict
        exact .refused hwhole hdecode hid herror.1 herror.2
      · cases hverdict

/-- A frame that does not decide is a response to another request. -/
theorem foreign_of_verdict {found : Except ProtocolFault Response}
    (hverdict : verdict? id (found.mapError .protocol) = none) :
    ∃ response, found = .ok response ∧ Foreign id response := by
  cases found with
  | error cause => cases hverdict
  | ok response =>
    unfold verdict? at hverdict
    dsimp only [Except.mapError] at hverdict
    split at hverdict
    · cases hverdict
    · rename_i hid
      split at hverdict
      · cases hverdict
      · exact ⟨response, rfl, hid, ‹_›⟩

/-- Every stream is waited through in some way. -/
theorem exists_waits (id : UInt64) (stream : Bytes) :
    ∃ passed last rest outcome, Waits id stream passed last rest outcome := by
  -- each frame that is passed over makes the rest shorter
  induction hlength : stream.length using Nat.strongRecOn generalizing stream with
  | ind length ih =>
    have hends {last rest : Bytes} {outcome : Except Fault Response} (hstream : stream = last ++ rest)
        (hconcludes : Concludes id last rest outcome) :
        ∃ passed last rest outcome, Waits id stream passed last rest outcome :=
      ⟨[], last, rest, outcome, hstream, fun hmem => absurd hmem List.not_mem_nil, hconcludes⟩
    -- a header, an admissible length, the payload: what is missing first ends the wait
    by_cases hheader : stream.length < headerLength
    · exact hends stream.append_nil.symm (.cut (.inl hheader))
    by_cases hlarge : maxPayload < announced stream
    · refine hends (stream.take_append_drop headerLength).symm (.oversized ?_ ?_)
      · rw [List.length_take, Nat.min_eq_left (Nat.not_lt.mp hheader)]
      · rwa [announced_take (Nat.le_refl _)]
    by_cases hcut : stream.length < headerLength + announced stream
    · exact hends stream.append_nil.symm (.cut (.inr ⟨Nat.not_lt.mp hlarge, hcut⟩))
    have hwhole := whole_front (Nat.not_lt.mp hlarge) (Nat.not_lt.mp hcut)
    have hsplit : stream = front stream ++ stream.drop (headerLength + announced stream) :=
      (stream.take_append_drop _).symm
    cases hverdict : verdict? id ((Response.decode (front stream)).mapError .protocol) with
    | some outcome => exact hends hsplit (concludes_of_verdict hwhole rfl hverdict)
    | none =>
      obtain ⟨response, hdecode, hforeign⟩ := foreign_of_verdict hverdict
      have hshorter : (stream.drop (headerLength + announced stream)).length < length := by
        rw [List.length_drop, ← hlength, headerLength] at *
        omega
      obtain ⟨passed, last, rest, outcome, hwaits⟩ := ih _ hshorter _ rfl
      refine ⟨front stream :: passed, last, rest, outcome, ?_, ?_, hwaits.concludes⟩
      · rw [List.flatten_cons, List.append_assoc, ← hwaits.stream_eq, ← hsplit]
      · intro frame hframe
        rcases List.mem_cons.mp hframe with rfl | hframe
        · exact ⟨hwhole, response, hdecode, hforeign⟩
        · exact hwaits.foreign hframe

/-- A wait ends with what it ends with by the description of it, and leaves what that leaves. -/
theorem await_eq_iff : client.await id = (outcome, client') ↔
    ∃ passed last rest, Waits id client.incoming passed last rest outcome ∧
      client' = { client with incoming := rest } := by
  constructor
  · intro h
    obtain ⟨passed, last, rest, outcome', hwaits⟩ := exists_waits id client.incoming
    rw [hwaits.await_eq] at h
    obtain ⟨rfl, rfl⟩ := Prod.mk.inj h
    exact ⟨passed, last, rest, hwaits, rfl⟩
  · rintro ⟨passed, last, rest, hwaits, rfl⟩
    exact hwaits.await_eq

/-- What is returned is a response to the request. -/
theorem Waits.id_eq (h : Waits id stream passed last rest (.ok response)) : response.id = id := by
  cases h.concludes
  assumption

/-! ## Call after call -/

/-- The client after these calls, whatever became of them. -/
def after (client : Client) (commands : List Command) : Client :=
  commands.foldl (fun client command => (client.call command).2) client

/-- A call sends its request and takes the next id; then it waits. -/
theorem call_fields (client : Client) (command : Command) :
    (client.call command).2.nextId = client.nextId + 1 ∧
      (client.call command).2.sent = client.sent ++ Request.encode ⟨client.nextId, command⟩ := by
  obtain ⟨passed, last, rest, outcome, hwaits⟩ :=
    exists_waits client.nextId (client.send command).2.incoming
  have hcall : client.call command = (outcome, { (client.send command).2 with incoming := rest }) :=
    hwaits.await_eq
  rw [hcall]
  exact ⟨rfl, rfl⟩

theorem after_append_singleton (client : Client) (commands : List Command) (command : Command) :
    client.after (commands ++ [command]) = ((client.after commands).call command).2 := by
  rw [after, List.foldl_append]
  rfl

/-- Ids count the calls. -/
theorem nextId_after (incoming : Bytes) (commands : List Command) :
    ((ofStream incoming).after commands).nextId = UInt64.ofNat (commands.length + 1) := by
  induction commands using List.reverseRecOn with
  | nil => rfl
  | append_singleton commands command ih =>
    rw [after_append_singleton, (call_fields _ command).1, ih, List.length_append,
      List.length_singleton, UInt64.ofNat_add (commands.length + 1) 1]
    rfl

/-- What a call returns depends on the status and the payload of its response only. -/
theorem reading_congr (command : Command) {other : Response} (hstatus : other.status = response.status)
    (hpayload : other.payload = response.payload) :
    reading command other = reading command response := by
  cases command <;> simp only [reading, found, done, refusal, hstatus, hpayload]

/-- Call number `n` on one client: what it sends, what it reads, and what it returns. -/
structure Correlates (n : Nat) (command : Command) (client : Client) (outcome : Except Fault Response)
    (next : Client) : Prop where
  /-- The request has the number of the call for its id. -/
  sent_eq : next.sent = client.sent ++ Request.encode ⟨UInt64.ofNat n, command⟩
  /-- Frames for others are passed over, and nothing is taken behind the one that ends the call. -/
  waits : ∃ passed last,
    Waits (UInt64.ofNat n) client.incoming passed last next.incoming outcome
  /-- The stream can be waited through in no other way. -/
  unique {passed : List Bytes} {last rest : Bytes} {other : Except Fault Response} :
    Waits (UInt64.ofNat n) client.incoming passed last rest other →
      other = outcome ∧ rest = next.incoming
  /-- The answer is read from the response that ended the call. -/
  perform_eq : client.perform command = (outcome.bind (reading command), next)
  /-- Nothing of a response but its status and its payload makes a difference to the answer. -/
  reading_eq {response other : Response} : other.status = response.status →
    other.payload = response.payload → reading command other = reading command response
  /-- What is returned is a response to this call. -/
  id_eq {response : Response} : outcome = .ok response → response.id = UInt64.ofNat n
  /-- A response to an earlier call is not, as long as ids count the calls. -/
  id_ne {response : Response} {earlier : Nat} : outcome = .ok response → earlier < n →
    n < UInt64.size → response.id ≠ UInt64.ofNat earlier

/-- Whatever the stream, and whatever became of the earlier calls, a call sends the request with its
number, goes on where the one in front of it stopped, and ends with what is for it: the first response
with its id, the first error of the connection as a whole, or the first frame that cannot be read. -/
theorem correlates_after (incoming : Bytes) (earlier : List Command) (command : Command) :
    Correlates (earlier.length + 1) command ((ofStream incoming).after earlier)
      (((ofStream incoming).after earlier).call command).1
      ((ofStream incoming).after (earlier ++ [command])) := by
  rw [after_append_singleton]
  have hid := nextId_after incoming earlier
  generalize (ofStream incoming).after earlier = client at hid ⊢
  generalize earlier.length + 1 = n at hid ⊢
  have hcall : client.call command = (client.send command).2.await (UInt64.ofNat n) := by
    rw [← hid]
    rfl
  obtain ⟨passed, last, rest, hwaits, hnext⟩ :=
    await_eq_iff.mp (hcall.symm.trans (Prod.mk.eta (p := client.call command)).symm)
  have hrest : (client.call command).2.incoming = rest := by rw [hnext]
  have hreturned {response : Response} (h : (client.call command).1 = .ok response) :
      response.id = UInt64.ofNat n := by
    rw [h] at hwaits
    exact hwaits.id_eq
  refine ⟨?_, ⟨passed, last, hrest ▸ hwaits⟩, ?_, perform_eq client command,
    reading_congr command, hreturned, ?_⟩
  · rw [← hid]
    exact (call_fields client command).2
  · intro passed' last' rest' other hother
    -- the request that was sent leaves the stream as it was
    have hsent : Waits (UInt64.ofNat n) (client.send command).2.incoming passed' last' rest' other :=
      hother
    rw [hcall, hsent.await_eq]
    exact ⟨rfl, rfl⟩
  · -- so far the ids have not wrapped, so other calls have other ones
    intro response earlier hok hlt hsize heq
    have hsame := congrArg UInt64.toNat ((hreturned hok).symm.trans heq)
    rw [UInt64.toNat_ofNat_of_lt' hsize, UInt64.toNat_ofNat_of_lt' (Nat.lt_trans hlt hsize)] at hsame
    exact absurd hsame.symm (Nat.ne_of_lt hlt)

/-- The answer to the first call comes twice. -/
example :
    let incoming := (Response.ok 1 (some [7])).encode ++ (Response.ok 1 (some [7])).encode ++
      (Response.ok 2 (some [8])).encode
    ((ofStream incoming).get [1]).1 = .ok (some [7]) ∧
      (((ofStream incoming).after [.get [1]]).get [2]).1 = .ok (some [8]) := by
  decide +kernel

end Client

end BarrierStore
