import BarrierStore.Proofs.Wire.Stream
import BarrierStore.Proofs.Wire.Response

/-!
# Messages that are too large

Nobody looks at the length of a message before it is written, and of the length of its payload four
bytes are written. The reader refuses a length above the largest one, but it sees the written bytes
only: of a payload of 4 GiB or more it sees the length without its high bytes, and it takes as much of
the payload as that says.

The module introduces:

* `Frame.writtenLength` — the length that the header of a frame tells;
* `Frame.cut` — a frame with as much of its payload as its header tells;
* `Command.key` — the key of a command.

`Frame.parse_encode` is what is read from any frame, `Command.exists_payload_eq_take_iff` tells which
commands are commands also if their payload is cut.

Main statements: `Frame.decode_oversized` — which messages that are too large are refused, and as what
the others are read — and `Frame.mistakes_oversized`, a response that is read as another one.
-/

namespace BarrierStore

/-- Of a number that does not fit, the low-order bytes are written. -/
theorem Bytes.bigEndian_mod (width n : Nat) : bigEndian width (n % count width) = bigEndian width n := by
  have hspelled := bigEndian_ofBigEndian (bigEndian width n)
  rwa [length_bigEndian, ofBigEndian_bigEndian] at hspelled

namespace Frame

/-! ## Any frame -/

/-- The payload length that a header tells: four bytes of it are written. -/
def writtenLength (frame : Frame) : Nat :=
  frame.payload.length % Bytes.count 4

/-- A frame with as much of its payload as its header tells. -/
def cut (frame : Frame) : Frame :=
  { frame with payload := frame.payload.take frame.writtenLength }

theorem writtenLength_lt (frame : Frame) : frame.writtenLength < Bytes.count 4 :=
  Nat.mod_lt _ (by decide)

theorem writtenLength_eq {frame : Frame} (h : frame.payload.length < Bytes.count 4) :
    frame.writtenLength = frame.payload.length :=
  Nat.mod_eq_of_lt h

@[simp]
theorem length_payload_cut (frame : Frame) : frame.cut.payload.length = frame.writtenLength := by
  rw [cut, List.length_take]
  exact Nat.min_eq_left (Nat.mod_le _ _)

/-- A frame has the header of the cut frame, and behind its payload what was cut off. -/
theorem encode_eq_cut_append (frame : Frame) :
    frame.encode = frame.cut.encode ++ frame.payload.drop frame.writtenLength := by
  have hlength : Bytes.bigEndian 4 frame.cut.payload.length = Bytes.bigEndian 4 frame.payload.length := by
    rw [length_payload_cut, writtenLength, Bytes.bigEndian_mod]
  rw [encode_eq, encode_eq, hlength, List.append_assoc, cut, List.take_append_drop]

/-- What is read from a frame, whatever its length. -/
theorem parse_encode (direction : Direction) (frame : Frame) : parse direction frame.encode =
    if maxPayload < frame.writtenLength then .error (.oversizedPayload direction frame.writtenLength)
    else .ok frame.cut := by
  -- the cut frame is in front, and its length is the one that the header tells
  rw [encode_eq_cut_append]
  by_cases hlarge : maxPayload < frame.writtenLength
  · have hfits : frame.cut.payload.length < Bytes.count 4 := by
      rw [length_payload_cut]
      exact frame.writtenLength_lt
    have hannounced := announced_encode_append hfits (frame.payload.drop frame.writtenLength)
    have hheader : Bytes.HasAtLeast (frame.cut.encode ++ frame.payload.drop frame.writtenLength)
        headerLength := by
      rw [Bytes.HasAtLeast, List.length_append, length_encode, Nat.add_assoc]
      exact Nat.le_add_right _ _
    obtain ⟨kind, id, hparse⟩ := Header.parse_eq direction hheader
    rw [length_payload_cut] at hannounced
    rw [parse, hparse, hannounced, if_pos hlarge, if_pos hlarge]
    rfl
  · rw [if_neg hlarge]
    exact parse_encode_append direction (by rw [length_payload_cut]; exact Nat.not_lt.mp hlarge) _

end Frame

/-! ## Commands -/

namespace Command

/-- The key of a command; a ping has none. -/
def key : Command → Bytes
  | get key => key
  | put key _ => key
  | ping => []
  | putNumber key _ => key
  | getNumber key => key

theorem payload_of_ping {command : Command} (h : command.verb = .ping) : command.payload = [] := by
  cases command with
  | ping => rfl
  | _ => cases h

/-- The payload of every command but a ping starts with the key. -/
theorem exists_payload_eq {command : Command} (h : command.verb ≠ .ping) :
    ∃ rest, command.payload = encodeKey command.key ++ rest := by
  cases command with
  | get key => exact ⟨[], (List.append_nil _).symm⟩
  | put key value => exact ⟨value, rfl⟩
  | ping => exact absurd rfl h
  | putNumber key number => exact ⟨Bytes.bigEndian 8 number.toNat, rfl⟩
  | getNumber key => exact ⟨[], (List.append_nil _).symm⟩

theorem take_encodeKey_append (key rest : Bytes) :
    (encodeKey key ++ rest).take 4 = Bytes.bigEndian 4 key.length := by
  rw [encodeKey, List.append_assoc, List.take_left' (Bytes.length_bigEndian 4 key.length)]

/-- How much of a key the length in front of it tells. -/
def writtenKeyLength (command : Command) : Nat :=
  command.key.length % Bytes.count 4

theorem length_take_key (command : Command) :
    (command.key.take command.writtenKeyLength).length = command.writtenKeyLength := by
  rw [List.length_take]
  exact Nat.min_eq_left (Nat.mod_le _ _)

/-- A key and what follows it, cut behind what the length in front of the key tells, or later. -/
theorem take_encodeKey (command : Command) (rest : Bytes) (more : Nat) :
    (encodeKey command.key ++ rest).take (4 + command.writtenKeyLength + more) =
      encodeKey (command.key.take command.writtenKeyLength) ++
        (command.key.drop command.writtenKeyLength ++ rest).take more := by
  have hsplit : encodeKey command.key ++ rest =
      encodeKey (command.key.take command.writtenKeyLength) ++
        (command.key.drop command.writtenKeyLength ++ rest) := by
    rw [encodeKey, encodeKey, length_take_key, writtenKeyLength, Bytes.bigEndian_mod,
      List.append_assoc, List.append_assoc, ← List.append_assoc (command.key.take _),
      List.take_append_drop]
  have hlength : (encodeKey (command.key.take command.writtenKeyLength)).length =
      4 + command.writtenKeyLength := by
    rw [length_encodeKey, length_take_key]
  rw [hsplit, ← hlength, List.take_length_add_append]

theorem take_encodeKey_self (command : Command) :
    (encodeKey command.key).take (4 + command.writtenKeyLength) =
      encodeKey (command.key.take command.writtenKeyLength) := by
  have htake := take_encodeKey command [] 0
  rwa [List.append_nil, List.take_zero, List.append_nil, Nat.add_zero] at htake

/-- Eight bytes spell a word. -/
theorem exists_word_of_length {bytes : Bytes} (h : bytes.length = 8) :
    ∃ word : UInt64, Bytes.bigEndian 8 word.toNat = bytes := by
  have hlt := Bytes.ofBigEndian_lt bytes
  have hspelled := Bytes.bigEndian_ofBigEndian bytes
  rw [h] at hlt hspelled
  exact ⟨UInt64.ofNat (Bytes.ofBigEndian bytes), by rwa [UInt64.toNat_ofNat_of_lt' hlt]⟩

/-- If a payload is cut to the written length and the written part of the key is there, the rest is that
of a command of the same kind. -/
theorem exists_payload_eq_take {command : Command} (h : command.verb ≠ .ping)
    (hroom : 4 + command.writtenKeyLength ≤ command.payload.length % Bytes.count 4) :
    ∃ other : Command, other.verb = command.verb ∧
      other.payload = command.payload.take (command.payload.length % Bytes.count 4) := by
  obtain ⟨more, hmore⟩ := Nat.exists_eq_add_of_le hroom
  have hcount : Bytes.count 4 = 4294967296 := rfl
  rw [hmore]
  -- behind the written part of the key is a value, a number or nothing, as the kind has it
  cases command with
  | get key =>
    obtain rfl : more = 0 := by
      simp only [writtenKeyLength, payload, Command.key, length_encodeKey, hcount] at hmore
      omega
    exact ⟨get (key.take _), rfl, (take_encodeKey_self (get key)).symm⟩
  | put key value =>
    exact ⟨put (key.take _) ((key.drop _ ++ value).take more), rfl,
      (take_encodeKey (put key value) value more).symm⟩
  | ping => exact absurd rfl h
  | putNumber key number =>
    obtain rfl : more = 8 := by
      simp only [writtenKeyLength, payload, Command.key, List.length_append, length_encodeKey,
        Bytes.length_bigEndian, hcount] at hmore
      omega
    have htake := take_encodeKey (putNumber key number) (Bytes.bigEndian 8 number.toNat) 8
    have hlength : ((key.drop (writtenKeyLength (putNumber key number)) ++
        Bytes.bigEndian 8 number.toNat).take 8).length = 8 := by simp
    obtain ⟨found, hfound⟩ := exists_word_of_length hlength
    exact ⟨putNumber (key.take _) found, rfl, (congrArg (encodeKey _ ++ ·) hfound).trans htake.symm⟩
  | getNumber key =>
    obtain rfl : more = 0 := by
      simp only [writtenKeyLength, payload, Command.key, length_encodeKey, hcount] at hmore
      omega
    exact ⟨getNumber (key.take _), rfl, (take_encodeKey_self (getNumber key)).symm⟩

/-- A payload that is cut to the written length is that of a command of the same kind exactly if the
written part of the key is there. -/
theorem exists_payload_eq_take_iff {command : Command} (h : command.verb ≠ .ping) :
    (∃ other : Command, other.verb = command.verb ∧
        other.payload = command.payload.take (command.payload.length % Bytes.count 4)) ↔
      4 + command.writtenKeyLength ≤ command.payload.length % Bytes.count 4 := by
  refine ⟨?_, exists_payload_eq_take h⟩
  rintro ⟨other, hverb, hpayload⟩
  have hcut : command.payload.length % Bytes.count 4 ≤ command.payload.length := Nat.mod_le _ _
  obtain ⟨rest, hrest⟩ := exists_payload_eq h
  obtain ⟨rest', hrest'⟩ := exists_payload_eq (hverb ▸ h)
  -- the other command has its whole key within the cut
  have hroom : 4 + other.key.length ≤ command.payload.length % Bytes.count 4 := by
    have hlength := congrArg List.length hpayload
    rw [hrest', List.length_append, length_encodeKey, List.length_take, Nat.min_eq_left hcut]
      at hlength
    omega
  -- the two keys have the same length in front of them
  have hfront : Bytes.bigEndian 4 other.key.length = Bytes.bigEndian 4 command.key.length := by
    have hfour := congrArg (List.take 4) hpayload
    rwa [hrest', take_encodeKey_append, List.take_take, Nat.min_eq_left (by omega), hrest,
      take_encodeKey_append] at hfour
  have hsame : command.writtenKeyLength = other.key.length % Bytes.count 4 := by
    rw [writtenKeyLength, ← Bytes.ofBigEndian_bigEndian, ← hfront, Bytes.ofBigEndian_bigEndian]
  have hle : other.key.length % Bytes.count 4 ≤ other.key.length := Nat.mod_le _ _
  omega

end Command

/-! ## Messages -/

/-- What is not done is refused. -/
theorem exists_error_iff {ε α : Type} (outcome : Except ε α) :
    (∃ cause, outcome = .error cause) ↔ ¬ ∃ a, outcome = .ok a := by
  cases outcome with
  | error cause => simp
  | ok a => simp

namespace Request

/-- What is read from the frame of any request. -/
theorem decode_encode_eq_ok_iff {request other : Request} : decode request.encode = .ok other ↔
    request.frame.writtenLength ≤ maxPayload ∧ other.frame = request.frame.cut := by
  rw [decode, encode, Frame.parse_encode]
  by_cases hlarge : maxPayload < request.frame.writtenLength
  · rw [if_pos hlarge]
    exact ⟨fun h => (by cases h), fun h => absurd h.1 (Nat.not_le.mpr hlarge)⟩
  · rw [if_neg hlarge]
    refine ⟨fun h => ⟨Nat.not_lt.mp hlarge, frame_of_ofFrame h⟩, ?_⟩
    rintro ⟨hsmall, hframe⟩
    have hpayload : other.command.payload.length ≤ maxPayload := by
      have hlength := congrArg (fun frame => frame.payload.length) hframe
      rw [Frame.length_payload_cut] at hlength
      exact Nat.le_trans (Nat.le_of_eq hlength) hsmall
    exact (congrArg ofFrame hframe).symm.trans (ofFrame_frame hpayload)

/-- There is a request of that frame if there is a command of its kind with that payload. -/
theorem exists_frame_eq_cut_iff (request : Request) :
    (∃ other : Request, other.frame = request.frame.cut) ↔
      ∃ other : Command, other.verb = request.command.verb ∧
        other.payload = request.command.payload.take request.frame.writtenLength := by
  constructor
  · rintro ⟨other, hframe⟩
    have hkind : other.command.verb.toByte = request.command.verb.toByte :=
      congrArg Frame.kind hframe
    refine ⟨other.command, ?_, congrArg Frame.payload hframe⟩
    exact Option.some.inj ((Verb.ofByte?_eq_some_iff.mpr rfl).symm.trans
      (Verb.ofByte?_eq_some_iff.mpr hkind))
  · rintro ⟨other, hverb, hpayload⟩
    refine ⟨⟨request.id, other⟩, ?_⟩
    rw [Request.frame, hverb, hpayload]
    rfl

/-- Which requests are refused, of those that are not pings. -/
theorem exists_error_decode_encode_iff {request : Request} (h : request.command.verb ≠ .ping) :
    (∃ cause, decode request.encode = .error cause) ↔ maxPayload < request.frame.writtenLength ∨
      request.frame.writtenLength < 4 + request.command.writtenKeyLength := by
  have hroom := (exists_frame_eq_cut_iff request).trans (Command.exists_payload_eq_take_iff h)
  rw [exists_error_iff]
  simp only [decode_encode_eq_ok_iff, exists_and_left]
  rw [hroom, Decidable.not_and_iff_or_not, Nat.not_le, Nat.not_le]
  rfl

end Request

namespace Response

/-- What is read from the frame of any response. -/
theorem decode_encode_eq_ok_iff {response other : Response} : decode response.encode = .ok other ↔
    response.frame.writtenLength ≤ maxPayload ∧
      other.frame = response.frame.cut ∧ other.payload ≠ some [] := by
  rw [decode, encode, Frame.parse_encode]
  by_cases hlarge : maxPayload < response.frame.writtenLength
  · rw [if_pos hlarge]
    exact ⟨fun h => (by cases h), fun h => absurd h.1 (Nat.not_le.mpr hlarge)⟩
  · rw [if_neg hlarge]
    exact ofFrame_eq_ok_iff.trans (iff_and_self.mpr fun _ => Nat.not_lt.mp hlarge)

/-- Of a response the payload is not looked at. -/
theorem exists_frame_eq_cut (response : Response) :
    ∃ other : Response, other.frame = response.frame.cut ∧ other.payload ≠ some [] :=
  ⟨_, ofFrame_eq_ok_iff.mp (ofFrame_frame { response with payload := some response.frame.cut.payload })⟩

/-- Which responses are refused. -/
theorem exists_error_decode_encode_iff {response : Response} :
    (∃ cause, decode response.encode = .error cause) ↔
      maxPayload < response.frame.writtenLength := by
  rw [exists_error_iff]
  simp only [decode_encode_eq_ok_iff, exists_and_left, exists_frame_eq_cut, and_true]
  exact Nat.not_le

end Response

namespace Frame

/-- A message that is too large is refused as that if the length of its payload fits four bytes. Of a
longer one the reader sees as much as the low-order bytes of the length say: a request is refused if
that is too much, or less than as much of its key as is told in the same way, and a response is refused
if it is too much. Else it is taken for the message with that part of the payload. -/
theorem decode_oversized (request : Request) (response : Response) :
    (maxPayload < request.frame.payload.length →
      (request.frame.payload.length < Bytes.count 4 → Request.decode request.encode =
        .error (.oversizedPayload .command request.frame.payload.length)) ∧
      ((∃ cause, Request.decode request.encode = .error cause) ↔
        maxPayload < request.frame.writtenLength ∨
          request.frame.writtenLength < 4 + request.command.writtenKeyLength) ∧
      ∀ other, Request.decode request.encode = .ok other → other.frame = request.frame.cut) ∧
    (maxPayload < response.frame.payload.length →
      (response.frame.payload.length < Bytes.count 4 → Response.decode response.encode =
        .error (.oversizedPayload .response response.frame.payload.length)) ∧
      ((∃ cause, Response.decode response.encode = .error cause) ↔
        maxPayload < response.frame.writtenLength) ∧
      ∀ other, Response.decode response.encode = .ok other → other.frame = response.frame.cut) := by
  refine ⟨fun hlarge => ⟨fun hfits => ?_, ?_, fun other hread => ?_⟩,
    fun hlarge => ⟨fun hfits => ?_, ?_, fun other hread => ?_⟩⟩
  · rw [Request.decode, Request.encode, parse_encode, writtenLength_eq hfits, if_pos hlarge]
    rfl
  · refine Request.exists_error_decode_encode_iff fun hping => ?_
    rw [Request.frame, Command.payload_of_ping hping] at hlarge
    exact absurd hlarge (Nat.not_lt_zero _)
  · exact (Request.decode_encode_eq_ok_iff.mp hread).2
  · rw [Response.decode, Response.encode, parse_encode, writtenLength_eq hfits, if_pos hlarge]
    rfl
  · exact Response.exists_error_decode_encode_iff
  · exact (Response.decode_encode_eq_ok_iff.mp hread).2.1

/-- A value that makes the payload four bytes too large is refused, and one of 4 GiB is not. -/
theorem decode_oversized_put :
    (maxPayload < (⟨7, .put [] (List.replicate maxPayload 0)⟩ : Request).frame.payload.length ∧
      Request.decode (⟨7, .put [] (List.replicate maxPayload 0)⟩ : Request).encode =
        .error (.oversizedPayload .command (4 + maxPayload))) ∧
    (maxPayload < (Response.ok 7 (some (List.replicate (Bytes.count 4) 0))).frame.payload.length ∧
      ¬ ∃ cause, Response.decode (Response.ok 7 (some (List.replicate (Bytes.count 4) 0))).encode =
        .error cause) := by
  have hput : (⟨7, .put [] (List.replicate maxPayload 0)⟩ : Request).frame.payload.length =
      4 + maxPayload := by
    rw [Request.frame, Command.payload, List.length_append, Command.length_encodeKey,
      List.length_replicate]
    rfl
  have hput_large := Nat.lt_of_lt_of_eq (show maxPayload < 4 + maxPayload by decide) hput.symm
  have hok : (Response.ok 7 (some (List.replicate (Bytes.count 4) 0))).frame.payload.length =
      Bytes.count 4 :=
    List.length_replicate
  have hok_large := Nat.lt_of_lt_of_eq (show maxPayload < Bytes.count 4 by decide) hok.symm
  obtain ⟨hrequest, hresponse⟩ := decode_oversized ⟨7, .put [] (List.replicate maxPayload 0)⟩
    (Response.ok 7 (some (List.replicate (Bytes.count 4) 0)))
  refine ⟨⟨hput_large, ?_⟩, hok_large, ?_⟩
  · rw [(hrequest hput_large).1 (Nat.lt_of_le_of_lt (Nat.le_of_eq hput) (by decide)), hput]
  · rw [(hresponse hok_large).2.1, writtenLength, hok, Nat.mod_self]
    exact Nat.not_lt_zero _

end Frame

namespace Response

/-- A value of 4 GiB is read as no value. -/
theorem decode_encode_of_length {value : Bytes} (h : value.length = Bytes.count 4) (id : UInt64) :
    decode (ok id (some value)).encode = .ok (ok id none) := by
  have hwritten : (ok id (some value)).frame.writtenLength = 0 := by
    rw [Frame.writtenLength, show (ok id (some value)).frame.payload = value from rfl, h, Nat.mod_self]
  refine decode_encode_eq_ok_iff.mpr ⟨hwritten ▸ Nat.zero_le _, ?_, nofun⟩
  rw [Frame.cut, hwritten, List.take_zero]
  rfl

end Response

namespace Request

/-- A value of 4 GiB under an empty key is read as an empty value. -/
theorem decode_encode_put_of_length {value : Bytes} (h : value.length = Bytes.count 4) (id : UInt64) :
    decode (⟨id, .put [] value⟩ : Request).encode = .ok ⟨id, .put [] []⟩ := by
  have hpayload : (⟨id, .put [] value⟩ : Request).frame.payload = Command.encodeKey [] ++ value := rfl
  have hkey : (Command.encodeKey []).length = 4 := rfl
  have hwritten : (⟨id, .put [] value⟩ : Request).frame.writtenLength = 4 := by
    rw [Frame.writtenLength, hpayload, List.length_append, hkey, h, Nat.add_mod_right]
    rfl
  refine decode_encode_eq_ok_iff.mpr ⟨by rw [hwritten]; decide, ?_⟩
  rw [Frame.cut, hwritten, hpayload, List.take_left' hkey]
  rfl

end Request

namespace Frame

/-- Messages that are too large and that are not refused: both are read as messages with an empty
value. -/
theorem mistakes_oversized :
    (maxPayload < (Response.ok 0 (some (List.replicate (Bytes.count 4) 0))).frame.payload.length ∧
      Response.decode (Response.ok 0 (some (List.replicate (Bytes.count 4) 0))).encode =
        .ok (Response.ok 0 none)) ∧
    (maxPayload < (⟨0, .put [] (List.replicate (Bytes.count 4) 0)⟩ : Request).frame.payload.length ∧
      Request.decode (⟨0, .put [] (List.replicate (Bytes.count 4) 0)⟩ : Request).encode =
        .ok ⟨0, .put [] []⟩) := by
  have hzeros : (List.replicate (Bytes.count 4) (0 : UInt8)).length = Bytes.count 4 :=
    List.length_replicate
  have hcount : maxPayload < Bytes.count 4 := by decide
  refine ⟨⟨Nat.lt_of_lt_of_eq hcount hzeros.symm, Response.decode_encode_of_length hzeros 0⟩, ?_,
    Request.decode_encode_put_of_length hzeros 0⟩
  have hpayload : (⟨0, .put [] (List.replicate (Bytes.count 4) 0)⟩ : Request).frame.payload =
    Command.encodeKey [] ++ List.replicate (Bytes.count 4) 0 := rfl
  rw [hpayload, List.length_append, hzeros]
  exact Nat.lt_of_lt_of_le hcount (Nat.le_add_left _ _)

end Frame

end BarrierStore
