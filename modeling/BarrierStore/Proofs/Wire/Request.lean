import BarrierStore.Wire.Request

/-!
# A request has one spelling

Requests and the frames that are accepted as requests correspond to each other: a request is read back
from its frame whatever follows it, and a frame that is read as a request is the frame of that request.

The module introduces:

* `Frame.announced` — the payload length that the header of a frame announces;
* `Frame.front` — as many bytes as a header and a payload of that length have.

Each layer has its two directions: `Command.splitKey_encodeKey_append` and
`Command.eq_encodeKey_append_of_splitKey` for a key, `Command.parse_payload` and
`Command.verb_payload_of_parse` for a command, `Request.ofFrame_frame` and
`Request.frame_of_ofFrame` for a request.

Main statement: `Request.decode_encode_bijective`.
-/

namespace BarrierStore

namespace Frame

/-- The length of the payload as the header says it, in bytes 9 to 12. -/
def announced (bytes : Bytes) : Nat :=
  Bytes.ofBigEndian ((bytes.drop 9).take 4)

/-- The header and as many bytes behind it as it announces. -/
def front (bytes : Bytes) : Bytes :=
  bytes.take (headerLength + announced bytes)

/-- A frame announces the length of its payload, if that fits four bytes. -/
theorem announced_encode_append {frame : Frame} (h : frame.payload.length < Bytes.count 4)
    (rest : Bytes) : announced (frame.encode ++ rest) = frame.payload.length := by
  have hdrop : (frame.encode ++ rest).drop 9 =
      Bytes.bigEndian 4 frame.payload.length ++ (frame.payload ++ rest) := by
    -- the kind and the id are nine bytes
    have hfront : (frame.kind :: Bytes.bigEndian 8 frame.id.toNat).length = 9 := by simp
    have hsplit : frame.encode ++ rest = (frame.kind :: Bytes.bigEndian 8 frame.id.toNat) ++
        (Bytes.bigEndian 4 frame.payload.length ++ (frame.payload ++ rest)) := by
      simp [encode]
    rw [hsplit, List.drop_left' hfront]
  have hwidth : (Bytes.bigEndian 4 frame.payload.length).length = 4 := by simp
  rw [announced, hdrop, List.take_left' hwidth, Bytes.ofBigEndian_bigEndian]
  exact Nat.mod_eq_of_lt h

/-- In front of a frame and whatever follows it, the frame stands. -/
theorem front_encode_append {frame : Frame} (h : frame.payload.length < Bytes.count 4)
    (rest : Bytes) : front (frame.encode ++ rest) = frame.encode := by
  rw [front, announced_encode_append h, List.take_left' (length_encode frame)]

/-- An admissible payload has a length of four bytes. -/
theorem lt_count_of_le_maxPayload {length : Nat} (h : length ≤ maxPayload) :
    length < Bytes.count 4 :=
  Nat.lt_of_le_of_lt h (by decide)

end Frame

namespace Command

/-! ## Keys -/

@[simp]
theorem length_encodeKey (key : Bytes) : (encodeKey key).length = 4 + key.length := by
  simp [encodeKey]

/-- A key is split off whatever follows it, if its length fits four bytes. -/
theorem splitKey_encodeKey_append (verb : Verb) {key : Bytes} (h : key.length < Bytes.count 4)
    (rest : Bytes) : splitKey verb (encodeKey key ++ rest) = .ok (key, rest) := by
  have hwidth : (Bytes.bigEndian 4 key.length).length = 4 := by simp
  have htake : (encodeKey key ++ rest).take 4 = Bytes.bigEndian 4 key.length := by
    rw [encodeKey, List.append_assoc, List.take_left' hwidth]
  have hdrop : (encodeKey key ++ rest).drop 4 = key ++ rest := by
    rw [encodeKey, List.append_assoc, List.drop_left' hwidth]
  have hsize : Bytes.ofBigEndian (Bytes.bigEndian 4 key.length) = key.length := by
    rw [Bytes.ofBigEndian_bigEndian]
    exact Nat.mod_eq_of_lt h
  have hlong : ¬ (encodeKey key ++ rest).length < 4 := by
    rw [List.length_append, length_encodeKey]
    omega
  have hfits : ¬ (key ++ rest).length < key.length := by
    rw [List.length_append]
    omega
  rw [splitKey, if_neg hlong]
  dsimp only
  rw [htake, hdrop, hsize, if_neg hfits, List.take_left' rfl, List.drop_left' rfl]

/-- What is split off as a key stands in front behind its length. -/
theorem eq_encodeKey_append_of_splitKey {verb : Verb} {payload key rest : Bytes}
    (h : splitKey verb payload = .ok (key, rest)) : payload = encodeKey key ++ rest := by
  unfold splitKey at h
  split at h
  · cases h
  rename_i hlong
  dsimp only at h
  split at h
  · cases h
  rename_i hfits
  cases h
  -- the four bytes in front are the spelling of the number that they spell
  have hspelled := Bytes.bigEndian_ofBigEndian (payload.take 4)
  have hwidth : (payload.take 4).length = 4 := by
    rw [List.length_take]
    omega
  rw [hwidth] at hspelled
  have hsize : ((payload.drop 4).take (Bytes.ofBigEndian (payload.take 4))).length =
      Bytes.ofBigEndian (payload.take 4) := by
    rw [List.length_take]
    omega
  rw [encodeKey, hsize, hspelled, List.append_assoc, List.take_append_drop, List.take_append_drop]

/-- A key alone is read back. -/
theorem onlyKey_encodeKey (verb : Verb) {key : Bytes} (h : key.length < Bytes.count 4) :
    onlyKey verb (encodeKey key) = .ok key := by
  have hsplit := splitKey_encodeKey_append verb h []
  rw [List.append_nil] at hsplit
  rw [onlyKey, hsplit]
  rfl

/-- What is read as a key alone is that key behind its length. -/
theorem eq_encodeKey_of_onlyKey {verb : Verb} {payload key : Bytes}
    (h : onlyKey verb payload = .ok key) : payload = encodeKey key := by
  unfold onlyKey at h
  cases hsplit : splitKey verb payload with
  | error cause =>
    rw [hsplit] at h
    cases h
  | ok found =>
    obtain ⟨front, rest⟩ := found
    rw [hsplit] at h
    -- only without a rest the key is all of the payload
    by_cases hrest : rest = []
    · subst hrest
      cases h
      rw [eq_encodeKey_append_of_splitKey hsplit, List.append_nil]
    · simp [bind, Except.bind, hrest] at h

/-! ## Commands -/

/-- What a function makes of an outcome is done only if the outcome is. -/
theorem exists_of_map_eq_ok {α β : Type} {f : α → β} {outcome : Except ProtocolFault α} {b : β}
    (h : f <$> outcome = .ok b) : ∃ a, outcome = .ok a ∧ f a = b := by
  cases outcome with
  | error cause => cases h
  | ok a => exact ⟨a, rfl, Except.ok.inj h⟩

/-- A key takes no more room than the payload that it stands in. -/
theorem length_lt_count_of_payload {key rest : Bytes}
    (h : (encodeKey key ++ rest).length ≤ maxPayload) : key.length < Bytes.count 4 := by
  rw [List.length_append, length_encodeKey] at h
  exact Frame.lt_count_of_le_maxPayload (by omega)

/-- The payload of a command is read as that command. -/
theorem parse_payload {command : Command} (h : command.payload.length ≤ maxPayload) :
    parse command.verb command.payload = .ok command := by
  -- the payload is admissible, so the length of the key fits four bytes
  cases command with
  | get key =>
    have hkey : key.length < Bytes.count 4 :=
      @length_lt_count_of_payload key [] (by rwa [List.append_nil])
    show get <$> onlyKey .get (encodeKey key) = _
    rw [onlyKey_encodeKey .get hkey]
    rfl
  | put key value =>
    have hkey : key.length < Bytes.count 4 := length_lt_count_of_payload h
    rw [verb, payload, parse, splitKey_encodeKey_append .put hkey]
    rfl
  | ping => rfl
  | putNumber key number =>
    have hkey : key.length < Bytes.count 4 := length_lt_count_of_payload h
    have hword : Bytes.ofBigEndian (Bytes.bigEndian 8 number.toNat) = number.toNat := by
      rw [Bytes.ofBigEndian_bigEndian]
      exact Nat.mod_eq_of_lt number.toNat_lt
    rw [verb, payload, parse, splitKey_encodeKey_append .putNumber hkey]
    simp [bind, Except.bind, hword]
    rfl
  | getNumber key =>
    have hkey : key.length < Bytes.count 4 :=
      @length_lt_count_of_payload key [] (by rwa [List.append_nil])
    show getNumber <$> onlyKey .getNumber (encodeKey key) = _
    rw [onlyKey_encodeKey .getNumber hkey]
    rfl

/-- What is read as a number behind its key is that key and the number in eight bytes. -/
theorem eq_putNumber_of_parse {payload : Bytes} {command : Command}
    (h : parse .putNumber payload = .ok command) : ∃ key number, command = putNumber key number ∧
      payload = encodeKey key ++ Bytes.bigEndian 8 number.toNat := by
  rw [parse] at h
  cases hsplit : splitKey .putNumber payload with
  | error cause =>
    rw [hsplit] at h
    cases h
  | ok found =>
    obtain ⟨key, rest⟩ := found
    rw [hsplit] at h
    by_cases hwidth : rest.length = 8
    · simp [bind, Except.bind, hwidth] at h
      -- eight bytes spell a word, and the word is spelled by them
      have hword := Bytes.ofBigEndian_lt rest
      have hspelled := Bytes.bigEndian_ofBigEndian rest
      rw [hwidth] at hword hspelled
      refine ⟨key, UInt64.ofNat (Bytes.ofBigEndian rest), (Except.ok.inj h).symm, ?_⟩
      rw [UInt64.toNat_ofNat_of_lt' hword, hspelled]
      exact eq_encodeKey_append_of_splitKey hsplit
    · simp [bind, Except.bind, hwidth] at h

/-- What is read as a command of a kind is of that kind and has that payload. -/
theorem verb_payload_of_parse {verb : Verb} {payload : Bytes} {command : Command}
    (h : parse verb payload = .ok command) : command.verb = verb ∧ command.payload = payload := by
  cases verb with
  | get =>
    obtain ⟨key, hkey, rfl⟩ := exists_of_map_eq_ok h
    exact ⟨rfl, (eq_encodeKey_of_onlyKey hkey).symm⟩
  | put =>
    obtain ⟨⟨key, value⟩, hsplit, rfl⟩ := exists_of_map_eq_ok h
    exact ⟨rfl, (eq_encodeKey_append_of_splitKey hsplit).symm⟩
  | ping =>
    rw [parse] at h
    split at h
    · cases h
    · rename_i hempty
      cases h
      exact ⟨rfl, (Decidable.not_not.mp hempty).symm⟩
  | putNumber =>
    obtain ⟨key, number, rfl, hpayload⟩ := eq_putNumber_of_parse h
    exact ⟨rfl, hpayload.symm⟩
  | getNumber =>
    obtain ⟨key, hkey, rfl⟩ := exists_of_map_eq_ok h
    exact ⟨rfl, (eq_encodeKey_of_onlyKey hkey).symm⟩

end Command

namespace Request

/-! ## Requests -/

/-- The frame of a request is read as that request. -/
theorem ofFrame_frame {request : Request} (h : request.command.payload.length ≤ maxPayload) :
    ofFrame request.frame = .ok request := by
  have hverb : Verb.ofByte? request.frame.kind = some request.command.verb :=
    Verb.ofByte?_eq_some_iff.mpr rfl
  have hcommand : Command.parse request.command.verb request.frame.payload = .ok request.command :=
    Command.parse_payload h
  rw [ofFrame, hverb]
  dsimp only
  rw [hcommand]
  rfl

/-- What is read as a request is the frame of that request. -/
theorem frame_of_ofFrame {frame : Frame} {request : Request} (h : ofFrame frame = .ok request) :
    request.frame = frame := by
  unfold ofFrame at h
  split at h
  · cases h
  rename_i verb hverb
  obtain ⟨command, hcommand, rfl⟩ := Command.exists_of_map_eq_ok h
  obtain ⟨hkind, hpayload⟩ := Command.verb_payload_of_parse hcommand
  rw [Request.frame, hkind, hpayload, ← Verb.ofByte?_eq_some_iff.mp hverb]

/-- A byte string is read as a request exactly if the request stands in front and has an admissible
payload. -/
theorem decode_eq_ok_iff {bytes : Bytes} {request : Request} :
    decode bytes = .ok request ↔
      request.command.payload.length ≤ maxPayload ∧ ∃ rest, bytes = request.encode ++ rest := by
  constructor
  · -- what was read is the frame of the request, and that frame stands in front
    intro h
    unfold decode at h
    cases hframe : Frame.parse .command bytes with
    | error cause =>
      rw [hframe] at h
      cases h
    | ok frame =>
      rw [hframe] at h
      have hsame : request.frame = frame := frame_of_ofFrame h
      obtain ⟨hbytes, hsmall⟩ := Frame.eq_encode_append_of_parse hframe
      rw [← hsame] at hbytes hsmall
      exact ⟨hsmall, _, hbytes⟩
  · rintro ⟨hsmall, rest, rfl⟩
    have hframe : Frame.parse .command (request.frame.encode ++ rest) = .ok request.frame :=
      Frame.parse_encode_append .command hsmall rest
    rw [decode, encode, hframe]
    exact ofFrame_frame hsmall

/-- A request that is read stands in front, header and payload, with nothing missing. -/
theorem front_of_decode {bytes : Bytes} {request : Request} (h : decode bytes = .ok request) :
    Frame.front bytes = request.encode := by
  obtain ⟨hsmall, rest, rfl⟩ := decode_eq_ok_iff.mp h
  exact Frame.front_encode_append (Frame.lt_count_of_le_maxPayload hsmall) rest

/-- Reading undoes writing, whatever follows; writing undoes reading, up to what follows; so a request
is read from one frame only, and the frames that are read are those of the requests with an admissible
payload. -/
theorem decode_encode_bijective :
    (∀ (request : Request) (rest : Bytes), request.command.payload.length ≤ maxPayload →
      decode (request.encode ++ rest) = .ok request) ∧
    (∀ (bytes : Bytes) (request : Request), decode bytes = .ok request →
      request.encode = bytes.take (headerLength + Frame.announced bytes)) ∧
    (∀ (bytes other : Bytes) (request : Request),
      decode bytes = .ok request → decode other = .ok request →
        Frame.front bytes = Frame.front other) ∧
    (∀ bytes : Bytes, (∃ request, decode bytes = .ok request) ↔
      ∃ request : Request, request.command.payload.length ≤ maxPayload ∧
        ∃ rest, bytes = request.encode ++ rest) ∧
    ∀ frame : Bytes, frame.length = headerLength + Frame.announced frame →
      ((∃ request, decode frame = .ok request) ↔
        ∃ request : Request, request.command.payload.length ≤ maxPayload ∧ frame = request.encode) := by
  refine ⟨fun request rest hsmall => ?_, fun bytes request h => (front_of_decode h).symm,
    fun bytes other request h hother => ?_, fun bytes => ?_, fun frame hlength => ?_⟩
  · exact decode_eq_ok_iff.mpr ⟨hsmall, rest, rfl⟩
  · rw [front_of_decode h, front_of_decode hother]
  · exact exists_congr fun request => decode_eq_ok_iff
  · -- a frame is all of its front
    have hwhole : Frame.front frame = frame := List.take_of_length_le (Nat.le_of_eq hlength)
    constructor
    · rintro ⟨request, h⟩
      exact ⟨request, (decode_eq_ok_iff.mp h).1, hwhole.symm.trans (front_of_decode h)⟩
    · rintro ⟨request, hsmall, rfl⟩
      exact ⟨request, decode_eq_ok_iff.mpr ⟨hsmall, [], (List.append_nil _).symm⟩⟩

/-- The frame that puts the value `v` under the key `k`, with two bytes of the next frame behind it. -/
theorem decode_encode_bijective_put :
    (⟨7, .put [107] [118]⟩ : Request).command.payload.length ≤ maxPayload ∧
      decode ((⟨7, .put [107] [118]⟩ : Request).encode ++ [1, 2]) = .ok ⟨7, .put [107] [118]⟩ ∧
      (⟨7, .put [107] [118]⟩ : Request).encode =
        ((⟨7, .put [107] [118]⟩ : Request).encode ++ [1, 2]).take (headerLength +
          Frame.announced ((⟨7, .put [107] [118]⟩ : Request).encode ++ [1, 2])) := by
  have hsmall : (⟨7, .put [107] [118]⟩ : Request).command.payload.length ≤ maxPayload := by decide
  have hread := decode_encode_bijective.1 ⟨7, .put [107] [118]⟩ [1, 2] hsmall
  exact ⟨hsmall, hread, decode_encode_bijective.2.1 _ _ hread⟩

end Request

end BarrierStore
