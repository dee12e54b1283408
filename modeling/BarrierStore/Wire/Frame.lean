import BarrierStore.Bytes
import BarrierStore.Fault

/-!
# Frames

A frame is a header of thirteen bytes and a payload. The header holds a kind, a request id and
the length of the payload, all with the most significant byte first.

The module introduces:

* `Frame` — a kind, an id and a payload; `Frame.encode` — its bytes;
* `Header.parse`, `Frame.parse` — a header and a frame at the front of a byte string, refused if
  it is cut short or announces too large a payload;
* `Frame.read` — the next frame of a stream, and how much of the stream is used up with it.

A frame with an admissible payload is read back whatever follows it, from a byte string
(`Frame.parse_encode_append`) and from a stream (`Frame.read_encode_append`), and what is read is
what stands in front (`Frame.eq_encode_append_of_parse`), so a frame has one spelling.
-/

namespace BarrierStore

/-- What a header says. -/
structure Header where
  /-- A command or a response status. -/
  kind : UInt8
  /-- The id of the request. -/
  id : UInt64
  /-- The length of the payload. -/
  length : Nat
  deriving DecidableEq

/-- A frame. -/
structure Frame where
  /-- A command or a response status. -/
  kind : UInt8
  /-- The id of the request. -/
  id : UInt64
  /-- What the kind calls for. -/
  payload : Bytes
  deriving DecidableEq

namespace Header

/-- The header at the front of `bytes`. -/
def parse (direction : Direction) (bytes : Bytes) : Except ProtocolFault Header :=
  match bytes with
  | kind :: rest =>
    if Bytes.HasAtLeast bytes headerLength then
      let id := UInt64.ofNat (Bytes.ofBigEndian (rest.take 8))
      let length := Bytes.ofBigEndian ((rest.drop 8).take 4)
      if maxPayload < length then .error (.oversizedPayload direction length)
      else .ok { kind, id, length }
    else .error (.shortHeader direction bytes.length)
  | [] => .error (.shortHeader direction 0)

end Header

namespace Frame

/-- The bytes of a frame. A length of more than four bytes loses its high bytes. -/
def encode (frame : Frame) : Bytes :=
  frame.kind :: (Bytes.bigEndian 8 frame.id.toNat ++ Bytes.bigEndian 4 frame.payload.length
    ++ frame.payload)

/-- The frame at the front of `bytes`. -/
def parse (direction : Direction) (bytes : Bytes) : Except ProtocolFault Frame := do
  let header ← Header.parse direction bytes
  let total := headerLength + header.length
  if Bytes.HasAtLeast bytes total then
    return { kind := header.kind, id := header.id, payload := (bytes.drop headerLength).take header.length }
  else throw (.shortPayload direction total bytes.length)

/-- The bytes of the next frame of a stream, and how many bytes of the stream are used up. A stream
that ends inside the frame is used up; of a refused frame the header is used up and nothing behind
it. -/
def read (direction : Direction) (stream : Bytes) : Except Fault Bytes × Nat :=
  if Bytes.HasAtLeast stream headerLength then
    -- the length is judged before the payload is waited for
    match Header.parse direction (stream.take headerLength) with
    | .error cause => (.error (.protocol cause), headerLength)
    | .ok header =>
      let total := headerLength + header.length
      if Bytes.HasAtLeast stream total then (.ok (stream.take total), total)
      else (.error (.io .unexpectedEof), stream.length)
  else (.error (.io .unexpectedEof), stream.length)

end Frame

/-! ## Reading undoes writing -/

namespace Frame

/-- The bytes of a frame's header. -/
theorem encode_eq (frame : Frame) : frame.encode =
    (frame.kind :: (Bytes.bigEndian 8 frame.id.toNat ++ Bytes.bigEndian 4 frame.payload.length))
      ++ frame.payload := by
  simp [encode]

@[simp]
theorem length_encode (frame : Frame) : frame.encode.length = headerLength + frame.payload.length := by
  simp [encode, headerLength]
  omega

end Frame

namespace Header

/-- The header of a frame is read back, if its payload is not too large. -/
theorem parse_encode_append (direction : Direction) {frame : Frame}
    (h : frame.payload.length ≤ maxPayload) (rest : Bytes) :
    parse direction (frame.encode ++ rest) = .ok ⟨frame.kind, frame.id, frame.payload.length⟩ := by
  have long : Bytes.HasAtLeast (frame.encode ++ rest) headerLength := by
    rw [Bytes.HasAtLeast, List.length_append, Frame.length_encode]
    omega
  have fits : frame.payload.length % Bytes.count 4 = frame.payload.length :=
    Nat.mod_eq_of_lt (Nat.lt_of_le_of_lt h (by decide))
  have word : frame.id.toNat % Bytes.count 8 = frame.id.toNat :=
    Nat.mod_eq_of_lt frame.id.toNat_lt
  simp only [Frame.encode, List.cons_append, List.append_assoc] at long ⊢
  rw [parse, if_pos long]
  simp [Bytes.ofBigEndian_bigEndian, fits, word, Nat.not_lt.mpr h]

/-- What is read as a header stands in front as these bytes, and its length is not too large. -/
theorem eq_append_of_parse {direction : Direction} {bytes : Bytes} {header : Header}
    (h : parse direction bytes = .ok header) :
    bytes = (header.kind :: (Bytes.bigEndian 8 header.id.toNat ++ Bytes.bigEndian 4 header.length))
        ++ bytes.drop headerLength ∧ header.length ≤ maxPayload := by
  unfold parse at h
  split at h
  · rename_i kind rest
    split at h
    case isFalse => cases h
    rename_i long
    dsimp only at h
    split at h
    · cases h
    rename_i small
    cases h
    have twelve : 12 ≤ rest.length := by
      simp only [Bytes.HasAtLeast, headerLength, List.length_cons] at long
      omega
    -- each field is as wide as the number that was read from it
    have id_width : (rest.take 8).length = 8 := by simp; omega
    have length_width : ((rest.drop 8).take 4).length = 4 := by simp; omega
    have id_lt := Bytes.ofBigEndian_lt (rest.take 8)
    have id_bytes := Bytes.bigEndian_ofBigEndian (rest.take 8)
    have length_bytes := Bytes.bigEndian_ofBigEndian ((rest.drop 8).take 4)
    rw [id_width] at id_lt id_bytes
    rw [length_width] at length_bytes
    refine ⟨?_, Nat.not_lt.mp small⟩
    rw [UInt64.toNat_ofNat_of_lt' id_lt, id_bytes, length_bytes]
    simp only [headerLength, List.cons_append, List.drop_succ_cons, List.append_assoc]
    rw [← List.drop_drop (i := 4) (j := 8), List.take_append_drop, List.take_append_drop]
  · cases h

/-- A header is read from its own bytes alone. -/
theorem parse_take (direction : Direction) {bytes : Bytes}
    (h : Bytes.HasAtLeast bytes headerLength) :
    parse direction (bytes.take headerLength) = parse direction bytes := by
  match bytes, h with
  | kind :: rest, h =>
    have first : (rest.take 12).take 8 = rest.take 8 := by rw [List.take_take]; rfl
    have second : ((rest.take 12).drop 8).take 4 = (rest.drop 8).take 4 := by
      rw [List.drop_take, List.take_take]; rfl
    have width : ((kind :: rest).take headerLength).length = headerLength := by
      rw [List.length_take, Nat.min_eq_left h]
    have long : Bytes.HasAtLeast ((kind :: rest).take headerLength) headerLength :=
      Nat.le_of_eq width.symm
    change parse direction (kind :: rest.take 12) = parse direction (kind :: rest)
    simp only [parse, first, second]
    exact (if_pos long).trans (if_pos h).symm

end Header

namespace Frame

/-- A frame is read back whatever follows it, if its payload is not too large. -/
theorem parse_encode_append (direction : Direction) {frame : Frame}
    (h : frame.payload.length ≤ maxPayload) (rest : Bytes) :
    parse direction (frame.encode ++ rest) = .ok frame := by
  have long : Bytes.HasAtLeast (frame.encode ++ rest) (headerLength + frame.payload.length) := by
    rw [Bytes.HasAtLeast, List.length_append, length_encode]
    omega
  have payload : ((frame.encode ++ rest).drop headerLength).take frame.payload.length =
      frame.payload := by
    rw [encode_eq, List.append_assoc, List.drop_left' (by simp [headerLength]), List.take_left' rfl]
  simp only [parse, Header.parse_encode_append direction h rest, bind, Except.bind, if_pos long,
    pure, Except.pure, payload]

/-- What is read as a frame stands in front as that frame, and its payload is not too large. -/
theorem eq_encode_append_of_parse {direction : Direction} {bytes : Bytes} {frame : Frame}
    (h : parse direction bytes = .ok frame) :
    bytes = frame.encode ++ bytes.drop frame.encode.length ∧ frame.payload.length ≤ maxPayload := by
  unfold parse at h
  cases e : Header.parse direction bytes with
  | error cause => simp [e, bind, Except.bind] at h
  | ok header =>
    obtain ⟨front, small⟩ := Header.eq_append_of_parse e
    simp only [e, bind, Except.bind, pure, Except.pure] at h
    split at h
    case isFalse => cases h
    rename_i long
    cases h
    unfold Bytes.HasAtLeast at long
    -- the whole payload is there, so the written length is its length
    have width : ((bytes.drop headerLength).take header.length).length = header.length := by
      simp
      omega
    refine ⟨?_, by rw [width]; exact small⟩
    rw [length_encode, encode_eq]
    simp only [width]
    rw [← List.drop_drop, List.append_assoc, List.take_append_drop]
    exact front

/-- A frame is taken from a stream whole, and nothing behind it, if its payload is not too large. -/
theorem read_encode_append (direction : Direction) {frame : Frame}
    (h : frame.payload.length ≤ maxPayload) (rest : Bytes) :
    read direction (frame.encode ++ rest) = (.ok frame.encode, frame.encode.length) := by
  have long : Bytes.HasAtLeast (frame.encode ++ rest) (headerLength + frame.payload.length) := by
    rw [Bytes.HasAtLeast, List.length_append, length_encode]
    omega
  have header : Bytes.HasAtLeast (frame.encode ++ rest) headerLength :=
    Nat.le_trans (Nat.le_add_right _ _) long
  rw [read, if_pos header, Header.parse_take direction header,
    Header.parse_encode_append direction h rest]
  simp only [if_pos long]
  rw [List.take_left' (length_encode frame), length_encode]

end Frame

end BarrierStore
