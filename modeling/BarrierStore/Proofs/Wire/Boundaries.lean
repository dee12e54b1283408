import BarrierStore.Proofs.Wire.Stream

/-!
# Reading from a stream keeps the boundaries of frames

A stream is read frame by frame, and each frame by its bytes alone. The length in a header says where
the next frame starts, whatever the kind and the payload of this one are, so a frame that is no
request or no response is refused and the frame behind it is read.

The module introduces:

* `Frame.decodeAs`, `Frame.readAs` — the two ways to read what a frame stands for, from a byte string
  and from a stream;
* `Frame.Delimits` — what a reader of streams has to do with a reader of byte strings;
* `Frame.Whole` — a byte string that is one frame;
* `readTimes` — a reader applied to a stream again and again, also after a fault.

Main statement: `Frame.delimits_read`, of requests and of responses. One step is
`Frame.delimits_readAs`, the run over a list of frames `Frame.Delimits.readTimes_flatten`.
-/

namespace BarrierStore

/-! ## What a frame is read from -/

/-- A header is not changed by what stands behind it. -/
theorem Header.parse_take_of_le (direction : Direction) {bytes : Bytes} {stop : Nat}
    (hbytes : headerLength ≤ bytes.length) (hstop : headerLength ≤ stop) :
    parse direction (bytes.take stop) = parse direction bytes := by
  have hlong : Bytes.HasAtLeast (bytes.take stop) headerLength := by
    rw [Bytes.HasAtLeast, List.length_take]
    exact Nat.le_min.mpr ⟨hstop, hbytes⟩
  rw [← parse_take direction hlong, List.take_take, Nat.min_eq_left hstop,
    parse_take direction (show Bytes.HasAtLeast _ _ from hbytes)]

namespace Frame

variable {bytes : Bytes} {stop : Nat}

/-- A frame is not changed by what stands behind it. -/
theorem parse_take (direction : Direction) (hheader : headerLength ≤ stop)
    (hpayload : announced bytes ≤ maxPayload → headerLength + announced bytes ≤ stop) :
    parse direction (bytes.take stop) = parse direction bytes := by
  rcases Nat.lt_or_ge stop bytes.length with hcut | hall
  case inr => rw [List.take_of_length_le hall]
  -- the header is in front of the cut, so both sides read the same length
  have hbytes : Bytes.HasAtLeast bytes headerLength := Nat.le_trans hheader (Nat.le_of_lt hcut)
  obtain ⟨kind, id, hparse⟩ := Header.parse_eq direction hbytes
  rw [parse, parse, Header.parse_take_of_le direction hbytes hheader, hparse]
  by_cases hlarge : maxPayload < announced bytes
  · rw [if_pos hlarge]
    rfl
  · -- and an admissible payload is in front of it too
    rw [if_neg hlarge]
    have hstop : headerLength + announced bytes ≤ stop := hpayload (Nat.not_lt.mp hlarge)
    have hlong : Bytes.HasAtLeast bytes (headerLength + announced bytes) :=
      Nat.le_trans hstop (Nat.le_of_lt hcut)
    have hlong' : Bytes.HasAtLeast (bytes.take stop) (headerLength + announced bytes) := by
      rw [Bytes.HasAtLeast, List.length_take]
      exact Nat.le_min.mpr ⟨hstop, hlong⟩
    have hpayload : ((bytes.take stop).drop headerLength).take (announced bytes) =
        (bytes.drop headerLength).take (announced bytes) := by
      rw [List.drop_take, List.take_take, Nat.min_eq_left (by omega)]
    simp only [bind, Except.bind, if_pos hlong, if_pos hlong', hpayload]

theorem parse_front (direction : Direction) (bytes : Bytes) :
    parse direction (front bytes) = parse direction bytes :=
  parse_take direction (Nat.le_add_right _ _) fun _ => Nat.le_refl _

/-- No more bytes are looked at than the largest frame has. -/
theorem parse_take_largest (direction : Direction) (bytes : Bytes) :
    parse direction (bytes.take (headerLength + maxPayload)) = parse direction bytes :=
  parse_take direction (Nat.le_add_right _ _) fun hsmall => Nat.add_le_add_left hsmall _

/-! ## One frame -/

section Readers

variable {α : Type}

/-- What the frame at the front of `bytes` stands for. -/
def decodeAs (direction : Direction) (ofFrame : Frame → Except ProtocolFault α) (bytes : Bytes) :
    Except ProtocolFault α := do
  ofFrame (← parse direction bytes)

/-- What the next frame of a stream stands for, and how many bytes of the stream are used up with it. -/
def readAs (direction : Direction) (ofFrame : Frame → Except ProtocolFault α) (stream : Bytes) :
    Except Fault α × Nat :=
  let (bytes, used) := read direction stream
  (bytes.bind fun bytes => (decodeAs direction ofFrame bytes).mapError .protocol, used)

/-- A stream is read as a byte string is: `read` takes one frame from a stream, and `decode` says what
the frame in front of a byte string stands for. -/
structure Delimits (direction : Direction) (decode : Bytes → Except ProtocolFault α)
    (read : Bytes → Except Fault α × Nat) : Prop where
  /-- The stream ends inside the header. -/
  header_cut {stream : Bytes} : stream.length < headerLength →
    (read stream).1 = .error (.io .unexpectedEof)
  /-- The stream ends inside an admissible payload. -/
  payload_cut {stream : Bytes} : headerLength ≤ stream.length → announced stream ≤ maxPayload →
    stream.length < headerLength + announced stream → (read stream).1 = .error (.io .unexpectedEof)
  /-- Too large a payload is refused when its header was read, and nothing of it is read. -/
  oversized {stream : Bytes} : headerLength ≤ stream.length → maxPayload < announced stream →
    read stream = (.error (.protocol (.oversizedPayload direction (announced stream))), headerLength)
  /-- A frame that is there is used up, also if it is refused. -/
  whole {stream : Bytes} : announced stream ≤ maxPayload →
    headerLength + announced stream ≤ stream.length →
    read stream = ((decode stream).mapError .protocol, headerLength + announced stream)
  /-- What stands behind a frame is not looked at. -/
  decode_front (bytes : Bytes) : decode (front bytes) = decode bytes

/-- A reader takes one frame from the front, and decodes it. -/
theorem delimits_readAs (direction : Direction) (ofFrame : Frame → Except ProtocolFault α) :
    Delimits direction (decodeAs direction ofFrame) (readAs direction ofFrame) := by
  have hfront (bytes : Bytes) : decodeAs direction ofFrame (front bytes) =
      decodeAs direction ofFrame bytes := by
    rw [decodeAs, parse_front, decodeAs]
  refine ⟨fun hheader => ?_, fun hheader hsmall hcut => ?_, fun hheader hlarge => ?_,
    fun hsmall hlong => ?_, hfront⟩
  · rw [readAs, read_eq, if_pos hheader]
    rfl
  · rw [readAs, read_eq, if_neg (Nat.not_lt.mpr hheader), if_neg (Nat.not_lt.mpr hsmall), if_pos hcut]
    rfl
  · rw [readAs, read_eq, if_neg (Nat.not_lt.mpr hheader), if_pos hlarge]
    rfl
  · have hheader := Nat.le_of_add_right_le hlong
    rw [readAs, read_eq, if_neg (Nat.not_lt.mpr hheader), if_neg (Nat.not_lt.mpr hsmall),
      if_neg (Nat.not_lt.mpr hlong)]
    dsimp only [Except.bind]
    rw [hfront]

/-- So does the reader of requests. -/
theorem delimits_request : Delimits .command Request.decode Request.read :=
  delimits_readAs .command Request.ofFrame

/-- So does the reader of responses. -/
theorem delimits_response : Delimits .response Response.decode Response.read :=
  delimits_readAs .response Response.ofFrame

end Readers

end Frame

/-! ## Frame after frame -/

/-- What a reader gives when it is applied to a stream `times` times, each time behind what it has
used up and whatever it gave before. -/
def readTimes {α : Type} (reader : Bytes → Except Fault α × Nat) :
    (times : Nat) → (stream : Bytes) → List (Except Fault α)
  | 0, _ => []
  | times + 1, stream =>
    (reader stream).1 :: readTimes reader times (stream.drop (reader stream).2)

namespace Frame

/-- All of a frame and nothing else. The payload is admissible, but it may be of any kind. -/
def Whole (bytes : Bytes) : Prop :=
  bytes.length = headerLength + announced bytes ∧ announced bytes ≤ maxPayload

instance (bytes : Bytes) : Decidable (Whole bytes) :=
  inferInstanceAs (Decidable (_ ∧ _))

/-- What a frame announces stands in its header. -/
theorem announced_take {bytes : Bytes} {stop : Nat} (h : headerLength ≤ stop) :
    announced (bytes.take stop) = announced bytes := by
  rw [headerLength] at h
  rw [announced, announced, List.drop_take, List.take_take, Nat.min_eq_left (by omega)]

theorem announced_append {front : Bytes} (h : headerLength ≤ front.length) (rest : Bytes) :
    announced (front ++ rest) = announced front := by
  rw [← announced_take h, List.take_left' rfl]

/-- The front of a stream that is long enough is a frame. -/
theorem whole_front {stream : Bytes} (hsmall : announced stream ≤ maxPayload)
    (hlong : headerLength + announced stream ≤ stream.length) : Whole (front stream) := by
  have hannounced : announced (front stream) = announced stream :=
    announced_take (Nat.le_add_right _ _)
  rw [Whole, hannounced, front, List.length_take, Nat.min_eq_left hlong]
  exact ⟨rfl, hsmall⟩

namespace Delimits

variable {α : Type} {direction : Direction} {decode : Bytes → Except ProtocolFault α}
  {read : Bytes → Except Fault α × Nat}

/-- A frame is read as what it is, and the reader goes on with what stands behind it. -/
theorem read_append (h : Delimits direction decode read) {frame : Bytes} (hframe : Whole frame)
    (rest : Bytes) :
    read (frame ++ rest) = ((decode frame).mapError .protocol, frame.length) := by
  have hannounced : announced (frame ++ rest) = announced frame :=
    announced_append (Nat.le.intro hframe.1.symm) rest
  have hfront : front (frame ++ rest) = frame := by
    rw [front, hannounced, ← hframe.1, List.take_left' rfl]
  have hlong : headerLength + announced (frame ++ rest) ≤ (frame ++ rest).length := by
    rw [hannounced, ← hframe.1, List.length_append]
    exact Nat.le_add_right _ _
  rw [h.whole (hannounced ▸ hframe.2) hlong, ← h.decode_front, hfront, hannounced, ← hframe.1]

/-- At the end of a stream every reading fails. -/
theorem readTimes_nil (h : Delimits direction decode read) (times : Nat) :
    readTimes read times [] = List.replicate times (.error (.io .unexpectedEof)) := by
  induction times with
  | zero => rfl
  | succ times ih =>
    rw [readTimes, h.header_cut (by decide), List.drop_nil, ih, List.replicate_succ]

/-- From frames that stand one behind the other each is read as what it is, also behind one that is
refused. Then the stream is at its end. -/
theorem readTimes_flatten (h : Delimits direction decode read) {frames : List Bytes}
    (hframes : ∀ frame ∈ frames, Whole frame) (more : Nat) :
    readTimes read (frames.length + more) frames.flatten =
      frames.map (fun frame => (decode frame).mapError Fault.protocol) ++
        List.replicate more (.error (.io .unexpectedEof)) := by
  -- by induction on the frames: the first one is used up as a whole, whatever it stands for, and the others
  -- are left
  induction frames with
  | nil => rw [List.length_nil, Nat.zero_add]; exact h.readTimes_nil more
  | cons frame rest ih =>
    have hread := h.read_append (hframes frame List.mem_cons_self) rest.flatten
    rw [List.length_cons, Nat.add_right_comm, readTimes, List.flatten_cons, hread]
    dsimp only
    rw [List.drop_left' rfl, ih fun other hother => hframes other (List.mem_cons_of_mem _ hother)]
    rfl

end Delimits

/-- Requests and responses are read from a stream as they are from byte strings, and where a frame ends
does not depend on whether it is accepted: the frames of a stream are read one by one, and then its end
is found. -/
theorem delimits_read :
    (Delimits .command Request.decode Request.read ∧
      ∀ frames : List Bytes, (∀ frame ∈ frames, Whole frame) → ∀ more : Nat,
        readTimes Request.read (frames.length + more) frames.flatten =
          frames.map (fun frame => (Request.decode frame).mapError Fault.protocol) ++
            List.replicate more (.error (.io .unexpectedEof))) ∧
    (Delimits .response Response.decode Response.read ∧
      ∀ frames : List Bytes, (∀ frame ∈ frames, Whole frame) → ∀ more : Nat,
        readTimes Response.read (frames.length + more) frames.flatten =
          frames.map (fun frame => (Response.decode frame).mapError Fault.protocol) ++
            List.replicate more (.error (.io .unexpectedEof))) :=
  ⟨⟨delimits_request, fun _ hframes more => delimits_request.readTimes_flatten hframes more⟩,
    delimits_response, fun _ hframes more => delimits_response.readTimes_flatten hframes more⟩

/-- Two pings with a frame of no known kind between them, and then the end of the stream. -/
theorem delimits_read_refused :
    (∀ frame ∈ [(⟨3, 1, []⟩ : Frame).encode, (⟨9, 2, [7]⟩ : Frame).encode,
      (⟨3, 4, []⟩ : Frame).encode], Whole frame) ∧
    readTimes Request.read 4 [(⟨3, 1, []⟩ : Frame).encode, (⟨9, 2, [7]⟩ : Frame).encode,
        (⟨3, 4, []⟩ : Frame).encode].flatten =
      [.ok ⟨1, .ping⟩, .error (.protocol (.unknownCommand 9)), .ok ⟨4, .ping⟩,
        .error (.io .unexpectedEof)] := by
  have hwhole : ∀ frame ∈ [(⟨3, 1, []⟩ : Frame).encode, (⟨9, 2, [7]⟩ : Frame).encode,
      (⟨3, 4, []⟩ : Frame).encode], Whole frame := by decide
  exact ⟨hwhole, delimits_read.1.2 _ hwhole 1⟩

end Frame

end BarrierStore
