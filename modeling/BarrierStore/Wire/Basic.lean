/-!
# The wire: directions, commands and sizes

Client and server exchange frames: a kind of one byte, a request id of eight bytes and a payload
length of four bytes, then the payload.

The module introduces:

* `Direction` — commands travel to the server, responses to the client;
* `Verb` — the kinds of command, with the byte and the name of each;
* `headerLength`, `maxPayload` — the length of a frame's header and the largest payload.
-/

namespace BarrierStore

/-- The two directions of the wire. -/
inductive Direction where
  /-- To the server: commands. -/
  | command
  /-- To the client: responses. -/
  | response
  deriving DecidableEq

namespace Direction

/-- What travels in this direction. -/
def noun : Direction → String
  | command => "command"
  | response => "response"

end Direction

/-- The kinds of command. -/
inductive Verb where
  | get
  | put
  | ping
  | putNumber
  | getNumber
  deriving DecidableEq

namespace Verb

/-- The name of a command in messages. -/
def name : Verb → String
  | get => "GET"
  | put => "PUT"
  | ping => "PING"
  | putNumber => "PUT_NUMBER"
  | getNumber => "GET_NUMBER"

/-- The byte that announces a command. -/
def toByte : Verb → UInt8
  | get => 1
  | put => 2
  | ping => 3
  | putNumber => 4
  | getNumber => 5

/-- The command that a byte announces. -/
def ofByte? (b : UInt8) : Option Verb :=
  if b = 1 then some get
  else if b = 2 then some put
  else if b = 3 then some ping
  else if b = 4 then some putNumber
  else if b = 5 then some getNumber
  else none

/-- A byte announces a command exactly when it is that command's byte. -/
theorem ofByte?_eq_some_iff {b : UInt8} {verb : Verb} : ofByte? b = some verb ↔ b = verb.toByte := by
  constructor
  · intro h
    unfold ofByte? at h
    split at h
    · cases h; assumption
    split at h
    · cases h; assumption
    split at h
    · cases h; assumption
    split at h
    · cases h; assumption
    split at h
    · cases h; assumption
    · cases h
  · rintro rfl
    cases verb <;> decide

end Verb

/-- The length of a frame's header: a kind, a request id and the length of the payload. -/
def headerLength : Nat := 13

/-- The largest payload of a frame, 16 MiB. -/
def maxPayload : Nat := 16 * 1024 * 1024

end BarrierStore
