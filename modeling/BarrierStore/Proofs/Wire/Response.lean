import BarrierStore.Wire.Response
import BarrierStore.Proofs.Wire.Request

/-!
# Responses are read back

The reader of a response gets its id, its status and its payload, but it does not learn whether an empty
payload is one or none. Apart from that a response has one spelling: what is read as a response is the
frame of that response.

The module introduces:

* `Response.received` — a response as its reader gets it.

Main statements: `Response.decode_encode_append` on a byte string, `Response.read_encode_append` on a
stream, `Response.decode_encode_canonical` in both directions.
-/

namespace BarrierStore

/-- A status is told from its byte. -/
theorem Status.ofByte?_toByte (status : Status) : ofByte? status.toByte = some status := by
  cases status <;> rfl

/-- No two bytes are read as one status. -/
theorem Status.toByte_of_ofByte? {b : UInt8} {status : Status} (h : ofByte? b = some status) :
    status.toByte = b := by
  unfold ofByte? at h
  split at h
  · rename_i hb
    cases h
    exact hb.symm
  split at h
  · rename_i hb
    cases h
    exact hb.symm
  split at h
  · rename_i hb
    cases h
    exact hb.symm
  · cases h

namespace Response

variable {response : Response}

/-- A response as its reader gets it: an empty payload is none. -/
def received (response : Response) : Response :=
  { response with payload := if response.payload.getD [] = [] then none else response.payload }

/-- Nobody who takes no payload for an empty one sees a difference. -/
theorem getD_payload_received (response : Response) :
    response.received.payload.getD [] = response.payload.getD [] := by
  unfold received
  dsimp only
  split
  · rename_i hempty
    rw [hempty]
    rfl
  · rfl

/-- A payload that is not empty is received as it is. -/
theorem received_of_ne_nil (h : response.payload.getD [] ≠ []) : response.received = response := by
  unfold received
  rw [if_neg h]

/-- Only a payload that is there and empty is lost. -/
theorem received_eq (response : Response) : response.received = { response with
    payload := if response.payload = some [] then none else response.payload } := by
  unfold received
  rcases response with ⟨id, status, _ | payload⟩ <;> simp

/-- A response is told from its frame; an empty payload is none. -/
theorem ofFrame_frame (response : Response) : ofFrame response.frame = .ok response.received := by
  rw [ofFrame, frame, Status.ofByte?_toByte]
  rcases response with ⟨id, status, _ | payload⟩ <;> rfl

/-- A response is read back whatever follows it, if its payload is not too large. -/
theorem decode_encode_append (h : (response.payload.getD []).length ≤ maxPayload) (rest : Bytes) :
    decode (response.encode ++ rest) = .ok response.received := by
  have hparse : Frame.parse .response (response.frame.encode ++ rest) = .ok response.frame :=
    Frame.parse_encode_append .response h rest
  rw [decode, encode, hparse]
  exact ofFrame_frame response

/-! ## One spelling -/

/-- What is read as a response is the frame of that response, and it is not read with an empty payload. -/
theorem ofFrame_eq_ok_iff {frame : Frame} :
    ofFrame frame = .ok response ↔ response.frame = frame ∧ response.payload ≠ some [] := by
  constructor
  · intro h
    unfold ofFrame at h
    split at h
    · cases h
    rename_i status hstatus
    cases h
    have hkind : status.toByte = frame.kind := Status.toByte_of_ofByte? hstatus
    -- an empty payload is read as none
    by_cases hempty : frame.payload = []
    · rw [if_pos hempty, Response.frame, hkind]
      refine ⟨?_, by simp⟩
      rw [Option.getD_none, ← hempty]
    · rw [if_neg hempty, Response.frame, hkind]
      refine ⟨rfl, ?_⟩
      simpa using hempty
  · rintro ⟨rfl, hpayload⟩
    have hsame : response.received = response := by
      rcases response with ⟨id, status, _ | payload⟩
      · rfl
      · exact received_of_ne_nil (by simpa using hpayload)
    rw [ofFrame_frame, hsame]

/-- A byte string is read as a response exactly if the response stands in front, with a payload that is
neither too large nor empty. -/
theorem decode_eq_ok_iff {bytes : Bytes} :
    decode bytes = .ok response ↔
      (response.payload.getD []).length ≤ maxPayload ∧ response.payload ≠ some [] ∧
        ∃ rest, bytes = response.encode ++ rest := by
  constructor
  · -- what was read is the frame of the response, and that frame stands in front
    intro h
    unfold decode at h
    cases hframe : Frame.parse .response bytes with
    | error cause =>
      rw [hframe] at h
      cases h
    | ok frame =>
      rw [hframe] at h
      obtain ⟨hsame, hpayload⟩ := ofFrame_eq_ok_iff.mp h
      obtain ⟨hbytes, hsmall⟩ := Frame.eq_encode_append_of_parse hframe
      rw [← hsame] at hbytes hsmall
      exact ⟨hsmall, hpayload, _, hbytes⟩
  · rintro ⟨hsmall, hpayload, rest, rfl⟩
    have hframe : Frame.parse .response (response.frame.encode ++ rest) = .ok response.frame :=
      Frame.parse_encode_append .response hsmall rest
    rw [decode, encode, hframe]
    exact ofFrame_eq_ok_iff.mpr ⟨rfl, hpayload⟩

/-- A response that is read stands in front, header and payload, with nothing missing. -/
theorem front_of_decode {bytes : Bytes} (h : decode bytes = .ok response) :
    Frame.front bytes = response.encode := by
  obtain ⟨hsmall, -, rest, rfl⟩ := decode_eq_ok_iff.mp h
  exact Frame.front_encode_append (Frame.lt_count_of_le_maxPayload hsmall) rest

/-- Reading undoes writing, whatever follows, up to an empty payload; writing undoes reading, up to what
follows; so a response is read from one frame only, and the frames that are read are those of the
responses with an admissible payload. -/
theorem decode_encode_canonical :
    (∀ (response : Response) (rest : Bytes), (response.payload.getD []).length ≤ maxPayload →
      decode (response.encode ++ rest) = .ok { response with
        payload := if response.payload = some [] then none else response.payload }) ∧
    (∀ (bytes : Bytes) (response : Response), decode bytes = .ok response →
      response.encode = bytes.take (headerLength + Frame.announced bytes)) ∧
    (∀ (bytes other : Bytes) (response : Response),
      decode bytes = .ok response → decode other = .ok response →
        Frame.front bytes = Frame.front other) ∧
    (∀ bytes : Bytes, (∃ response, decode bytes = .ok response) ↔
      ∃ response : Response, (response.payload.getD []).length ≤ maxPayload ∧
        ∃ rest, bytes = response.encode ++ rest) ∧
    ∀ frame : Bytes, frame.length = headerLength + Frame.announced frame →
      ((∃ response, decode frame = .ok response) ↔ ∃ response : Response,
        (response.payload.getD []).length ≤ maxPayload ∧ frame = response.encode) := by
  refine ⟨fun response rest hsmall => ?_, fun bytes response h => (front_of_decode h).symm,
    fun bytes other response h hother => ?_, fun bytes => ?_, fun frame hlength => ?_⟩
  · rw [decode_encode_append hsmall rest, received_eq]
  · rw [front_of_decode h, front_of_decode hother]
  · constructor
    · intro ⟨response, h⟩
      obtain ⟨hsmall, -, hfront⟩ := decode_eq_ok_iff.mp h
      exact ⟨response, hsmall, hfront⟩
    · rintro ⟨response, hsmall, rest, rfl⟩
      exact ⟨response.received, decode_encode_append hsmall rest⟩
  · -- a frame is all of its front
    have hwhole : Frame.front frame = frame := List.take_of_length_le (Nat.le_of_eq hlength)
    constructor
    · intro ⟨response, h⟩
      exact ⟨response, (decode_eq_ok_iff.mp h).1, hwhole.symm.trans (front_of_decode h)⟩
    · rintro ⟨response, hsmall, rfl⟩
      have hread := decode_encode_append hsmall []
      rw [List.append_nil] at hread
      exact ⟨response.received, hread⟩

/-- A value of no bytes, with two bytes of the next frame behind it, is read as no value, and that
response has the same frame. -/
theorem decode_encode_canonical_empty :
    ((ok 7 (some [])).payload.getD []).length ≤ maxPayload ∧
      decode ((ok 7 (some [])).encode ++ [1, 2]) = .ok (ok 7 none) ∧
      (ok 7 none).encode = ((ok 7 (some [])).encode ++ [1, 2]).take (headerLength +
        Frame.announced ((ok 7 (some [])).encode ++ [1, 2])) := by
  have hsmall : ((ok 7 (some [])).payload.getD []).length ≤ maxPayload := by decide
  have hread := decode_encode_canonical.1 (ok 7 (some [])) [1, 2] hsmall
  exact ⟨hsmall, hread, decode_encode_canonical.2.1 _ _ hread⟩

/-! ## From a stream -/

/-- A response is taken from a stream whole, and nothing behind it, if its payload is not too large. -/
theorem read_encode_append (h : (response.payload.getD []).length ≤ maxPayload) (rest : Bytes) :
    read (response.encode ++ rest) = (.ok response.received, response.encode.length) := by
  have hread : Frame.read .response (response.encode ++ rest) =
      (.ok response.encode, response.encode.length) := Frame.read_encode_append .response h rest
  have hdecode : decode response.encode = .ok response.received := by
    rw [← response.encode.append_nil]
    exact decode_encode_append h []
  rw [read, hread]
  dsimp only [Except.bind]
  rw [hdecode]
  rfl

end Response

end BarrierStore
