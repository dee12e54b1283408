import BarrierStore.Proofs.Wire.Request
import BarrierStore.Wire.Stream

/-!
# A stream of requests is read in one way

Any byte string is a number of requests and a rest that has none in front. The rest says how the stream
ends: it is cut off, or the frame in front of it is refused. Reading finds these requests, in order, and then
the fault that the rest is told by.

The module introduces:

* `Request.Ends` — the fault of a byte string that has no request in front;
* `Request.Splits` — a stream as requests and such a rest.

Main statements: `Request.exists_splits` and `Request.Splits.eq` — there is exactly one way to split a
stream — and `Request.Splits.readAll_eq`, what is read from it.
-/

namespace BarrierStore

/-! ## Frames -/

/-- What the header in front announces decides what is read as a header. -/
theorem Header.parse_eq (direction : Direction) {bytes : Bytes}
    (h : Bytes.HasAtLeast bytes headerLength) : ∃ kind id, Header.parse direction bytes =
      if maxPayload < Frame.announced bytes then
        .error (.oversizedPayload direction (Frame.announced bytes))
      else .ok ⟨kind, id, Frame.announced bytes⟩ := by
  cases bytes with
  | nil => exact absurd h (by simp [Bytes.HasAtLeast, headerLength])
  | cons kind rest =>
    refine ⟨kind, UInt64.ofNat (Bytes.ofBigEndian (rest.take 8)), ?_⟩
    rw [Header.parse, if_pos h]
    rfl

namespace Frame

/-- A frame is read from a stream if it is there, and if its payload is not too large. -/
theorem read_eq (direction : Direction) (stream : Bytes) : read direction stream =
    if stream.length < headerLength then (.error (.io .unexpectedEof), stream.length)
    else if maxPayload < announced stream then
      (.error (.protocol (.oversizedPayload direction (announced stream))), headerLength)
    else if stream.length < headerLength + announced stream then
      (.error (.io .unexpectedEof), stream.length)
    else (.ok (front stream), headerLength + announced stream) := by
  by_cases hheader : stream.length < headerLength
  · have hshort : ¬ Bytes.HasAtLeast stream headerLength := Nat.not_le.mpr hheader
    rw [read, if_neg hshort, if_pos hheader]
  · have hlong : Bytes.HasAtLeast stream headerLength := Nat.not_lt.mp hheader
    obtain ⟨kind, id, hparse⟩ := Header.parse_eq direction hlong
    rw [read, if_pos hlong, Header.parse_take direction hlong, hparse, if_neg hheader]
    by_cases hlarge : maxPayload < announced stream
    · rw [if_pos hlarge, if_pos hlarge]
    · rw [if_neg hlarge, if_neg hlarge]
      dsimp only
      by_cases hcut : stream.length < headerLength + announced stream
      · rw [if_pos hcut, if_neg (show ¬ Bytes.HasAtLeast _ _ from Nat.not_le.mpr hcut)]
      · rw [if_neg hcut, if_pos (show Bytes.HasAtLeast _ _ from Nat.not_lt.mp hcut)]
        rfl

end Frame

/-! ## Reading item by item -/

section Read

variable {α : Type} {reader : Bytes → Except Fault α × Nat}

/-- An item in front is read, and the reader goes on behind it. -/
theorem readSteps_append {item : α} {front rest : Bytes}
    (h : reader (front ++ rest) = (.ok item, front.length)) (steps position : Nat) :
    readSteps reader (steps + 1) position (front ++ rest) =
      (.ok item, position + front.length) ::
        readSteps reader steps (position + front.length) rest := by
  rw [readSteps, h]
  dsimp only
  rw [List.drop_left' rfl]

/-- The first failure ends the reading. -/
theorem readSteps_error {fault : Fault} {stream : Bytes} (h : (reader stream).1 = .error fault)
    (steps position : Nat) : (readSteps reader (steps + 1) position stream).map (·.1) = [.error fault] := by
  rcases hread : reader stream with ⟨outcome, used⟩
  rw [hread] at h
  obtain rfl : outcome = .error fault := h
  rw [readSteps, hread]
  rfl

end Read

namespace Request

/-! ## Requests -/

/-- A request is taken from a stream whole, and nothing behind it, if its payload is not too large. -/
theorem read_encode_append {request : Request} (h : request.command.payload.length ≤ maxPayload)
    (rest : Bytes) : read (request.encode ++ rest) = (.ok request, request.encode.length) := by
  have hframe : Frame.read .command (request.encode ++ rest) =
      (.ok request.encode, request.encode.length) := Frame.read_encode_append .command h rest
  have hdecode : decode request.encode = .ok request :=
    decode_eq_ok_iff.mpr ⟨h, [], (List.append_nil _).symm⟩
  rw [read, hframe]
  dsimp only [Except.bind]
  rw [hdecode]
  rfl

theorem headerLength_le_length_encode (request : Request) : headerLength ≤ request.encode.length := by
  rw [encode, Frame.length_encode]
  exact Nat.le_add_right _ _

/-- What ends a stream of which this is the rest. -/
inductive Ends (tail : Bytes) : Fault → Prop
  /-- The stream ends, also in the middle of a frame. -/
  | cut : tail.length < headerLength ∨ (Frame.announced tail ≤ maxPayload ∧
      tail.length < headerLength + Frame.announced tail) → Ends tail (.io .unexpectedEof)
  /-- The header announces too large a payload. -/
  | oversized : headerLength ≤ tail.length → maxPayload < Frame.announced tail →
      Ends tail (.protocol (.oversizedPayload .command (Frame.announced tail)))
  /-- The frame is no request. -/
  | malformed {cause : ProtocolFault} : headerLength + Frame.announced tail ≤ tail.length →
      Frame.announced tail ≤ maxPayload → decode (Frame.front tail) = .error cause →
      Ends tail (.protocol cause)

/-- A stream as requests and what is behind them. -/
structure Splits (stream : Bytes) (requests : List Request) (tail : Bytes) (fault : Fault) : Prop where
  stream_eq : stream = requests.flatMap encode ++ tail
  small {request : Request} : request ∈ requests → request.command.payload.length ≤ maxPayload
  ends : Ends tail fault

/-- What ends a stream is the fault that is read from it. -/
theorem Ends.read_eq {tail : Bytes} {fault : Fault} (h : Ends tail fault) :
    (read tail).1 = .error fault := by
  rw [read, Frame.read_eq]
  -- a reader looks at the header, the length, the payload and the contents, in that order
  cases h with
  | cut hcut =>
    rcases hcut with hheader | ⟨hsmall, hcut⟩
    · rw [if_pos hheader]
      rfl
    · by_cases hheader : tail.length < headerLength
      · rw [if_pos hheader]
        rfl
      · rw [if_neg hheader, if_neg (Nat.not_lt.mpr hsmall), if_pos hcut]
        rfl
  | oversized hheader hlarge =>
    rw [if_neg (Nat.not_lt.mpr hheader), if_pos hlarge]
    rfl
  | malformed hlong hsmall hdecode =>
    rw [if_neg (by omega), if_neg (Nat.not_lt.mpr hsmall), if_neg (Nat.not_lt.mpr hlong)]
    dsimp only [Except.bind]
    rw [hdecode]
    rfl

/-- In front of what ends a stream there is no request. -/
theorem Ends.ne_encode_append {tail : Bytes} {fault : Fault} (h : Ends tail fault) {request : Request}
    (hsmall : request.command.payload.length ≤ maxPayload) (rest : Bytes) :
    tail ≠ request.encode ++ rest := by
  rintro rfl
  have hread := h.read_eq
  rw [read_encode_append hsmall] at hread
  cases hread

/-- A byte string has a request in front, or ends the stream. -/
theorem exists_front_or_ends (stream : Bytes) :
    (∃ (request : Request) (rest : Bytes), request.command.payload.length ≤ maxPayload ∧
        stream = request.encode ++ rest) ∨
      ∃ fault, Ends stream fault := by
  by_cases hheader : stream.length < headerLength
  · exact .inr ⟨_, .cut (.inl hheader)⟩
  by_cases hlarge : maxPayload < Frame.announced stream
  · exact .inr ⟨_, .oversized (Nat.not_lt.mp hheader) hlarge⟩
  by_cases hcut : stream.length < headerLength + Frame.announced stream
  · exact .inr ⟨_, .cut (.inr ⟨Nat.not_lt.mp hlarge, hcut⟩)⟩
  -- the frame is there, so its bytes decide
  cases hdecode : decode (Frame.front stream) with
  | error cause => exact .inr ⟨_, .malformed (Nat.not_lt.mp hcut) (Nat.not_lt.mp hlarge) hdecode⟩
  | ok request =>
    obtain ⟨hsmall, rest, hfront⟩ := decode_eq_ok_iff.mp hdecode
    refine .inl ⟨request, rest ++ stream.drop (headerLength + Frame.announced stream), hsmall, ?_⟩
    rw [← List.append_assoc, ← hfront, Frame.front, List.take_append_drop]

/-- Every stream is split in some way. -/
theorem exists_splits (stream : Bytes) : ∃ requests tail fault, Splits stream requests tail fault := by
  -- each request in front makes the rest shorter
  induction hlength : stream.length using Nat.strongRecOn generalizing stream with
  | ind length ih =>
    rcases exists_front_or_ends stream with ⟨request, rest, hsmall, rfl⟩ | ⟨fault, hends⟩
    · have hshorter : rest.length < length := by
        have hheader := request.headerLength_le_length_encode
        rw [List.length_append, headerLength] at *
        omega
      obtain ⟨requests, tail, fault, hsplits⟩ := ih rest.length hshorter rest rfl
      refine ⟨request :: requests, tail, fault, ?_, ?_, hsplits.ends⟩
      · rw [List.flatMap_cons, List.append_assoc, ← hsplits.stream_eq]
      · intro other hother
        rcases List.mem_cons.mp hother with rfl | hother
        · exact hsmall
        · exact hsplits.small hother
    · exact ⟨[], stream, fault, rfl, fun hmem => absurd hmem List.not_mem_nil, hends⟩

namespace Splits

variable {stream tail tail' : Bytes} {requests requests' : List Request} {fault fault' : Fault}

/-- There are no more requests in a stream than bytes. -/
theorem length_le (h : Splits stream requests tail fault) : requests.length ≤ stream.length := by
  have hlengths : ∀ requests : List Request, requests.length ≤ (requests.flatMap encode).length := by
    intro requests
    induction requests with
    | nil => exact Nat.le_refl _
    | cons request rest ih =>
      have hheader := request.headerLength_le_length_encode
      rw [List.flatMap_cons, List.length_append, List.length_cons]
      rw [headerLength] at hheader
      omega
  rw [h.stream_eq, List.length_append]
  exact Nat.le_add_right_of_le (hlengths requests)

/-- From a stream its requests are read, and then the fault that ends it. -/
theorem readSteps_eq (h : Splits stream requests tail fault) {steps : Nat}
    (hsteps : requests.length < steps) (position : Nat) :
    (readSteps read steps position stream).map (·.1) = requests.map .ok ++ [.error fault] := by
  induction requests generalizing stream steps position with
  | nil =>
    obtain ⟨count, rfl⟩ := Nat.exists_eq_add_of_lt hsteps
    rw [h.stream_eq]
    exact readSteps_error h.ends.read_eq _ _
  | cons request rest ih =>
    obtain ⟨count, rfl⟩ := Nat.exists_eq_add_of_lt hsteps
    have hrest : Splits (rest.flatMap encode ++ tail) rest tail fault :=
      ⟨rfl, fun hmem => h.small (List.mem_cons_of_mem _ hmem), h.ends⟩
    have hread := read_encode_append (h.small List.mem_cons_self) (rest.flatMap encode ++ tail)
    rw [h.stream_eq, List.flatMap_cons, List.append_assoc, readSteps_append hread, List.map_cons,
      ih hrest (by rw [List.length_cons]; omega)]
    rfl

/-- All requests of a stream are read, and then the failure. -/
theorem readAll_eq (h : Splits stream requests tail fault) :
    (readAll read stream).map (·.1) = requests.map .ok ++ [.error fault] :=
  h.readSteps_eq (Nat.lt_succ_of_le h.length_le) 0

/-- There is no other way to split the stream. -/
theorem eq (h : Splits stream requests tail fault) (h' : Splits stream requests' tail' fault') :
    requests' = requests ∧ tail' = tail ∧ fault' = fault := by
  have hread := h'.readAll_eq.symm.trans h.readAll_eq
  obtain ⟨hrequests, hfault⟩ := List.append_inj' hread rfl
  obtain rfl : requests' = requests :=
    (List.map_inj_right fun _ _ => Except.ok.inj).mp hrequests
  refine ⟨rfl, ?_, Except.error.inj (List.singleton_inj.mp hfault)⟩
  exact List.append_cancel_left (h'.stream_eq.symm.trans h.stream_eq)

end Splits

end Request

end BarrierStore
