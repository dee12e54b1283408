import BarrierStore.Path
import BarrierStore.Wire.Basic

/-!
# Faults

What can go wrong, by cause, and the one place where each cause gets its wording.

The module introduces:

* `IoFault` — failures of files and streams;
* `StorageFault`, `ProtocolFault`, `NetworkFault`, `ConfigFault` — damaged files, malformed frames,
  refused calls and refused configurations;
* `Fault` — any of these, a record that is not where the index says, or a number outside the
  machine's range;
* `Fault.message` — the text of a fault: the label of its category, then the detail.
-/

namespace BarrierStore

/-- A failure of a file or of a stream of bytes. -/
inductive IoFault where
  /-- A file, or a directory on the way to it, does not exist. -/
  | notFound
  /-- The name is taken. -/
  | alreadyExists
  /-- A step of a path other than the last is a file. -/
  | notADirectory
  /-- A file was asked for and a directory is there. -/
  | isADirectory
  /-- A directory was named by `.`, `..` or the root where a name in a directory is needed. -/
  | resourceBusy
  /-- A path has a NUL in it, which no name of a file can have. -/
  | nulInPath
  /-- A name, or a whole path, is longer than the system takes. -/
  | nameTooLong
  /-- A thing that is no plain file was to be copied. -/
  | notPlainFile
  /-- A file was to get a length that no file has. -/
  | lengthOutOfRange
  /-- A text file is not UTF-8. -/
  | invalidData
  /-- A stream ended inside a frame. -/
  | unexpectedEof
  /-- A stream takes no more bytes. -/
  | writeZero
  /-- The machine has no such address. -/
  | addressNotAvailable
  /-- No route leads to the address. -/
  | networkUnreachable
  deriving DecidableEq, Inhabited

namespace IoFault

/-- The wording of a failure, with the system's number for it where it has one. -/
def message : IoFault → String
  | notFound => "No such file or directory (os error 2)"
  | resourceBusy => "Device or resource busy (os error 16)"
  | alreadyExists => "File exists (os error 17)"
  | notADirectory => "Not a directory (os error 20)"
  | isADirectory => "Is a directory (os error 21)"
  | nameTooLong => "File name too long (os error 36)"
  | addressNotAvailable => "Cannot assign requested address (os error 99)"
  | networkUnreachable => "Network is unreachable (os error 101)"
  | nulInPath => "file name contained an unexpected NUL byte"
  | notPlainFile => "the source path is neither a regular file nor a symlink to a regular file"
  | lengthOutOfRange => "out of range integral type conversion attempted"
  | invalidData => "stream did not contain valid UTF-8"
  | unexpectedEof => "failed to fill whole buffer"
  | writeZero => "failed to write whole buffer"

end IoFault

/-- A file that holds something other than what is stored there. -/
inductive StorageFault where
  /-- The segment range is not two numbers. -/
  | malformedRange (path : Path)
  /-- The segment range ends before it starts. -/
  | reversedRange (first next : UInt64)
  /-- The recorded capacity is not one positive number. -/
  | malformedCapacity (path : Path)
  deriving DecidableEq

namespace StorageFault

/-- The wording of a damaged file. -/
def message : StorageFault → String
  | malformedRange path => "malformed segment metadata in " ++ path.text
  | reversedRange first next =>
    "segment metadata out of order: first=" ++ toString first.toNat ++ " next=" ++ toString next.toNat
  | malformedCapacity path => "malformed segment capacity in " ++ path.text

end StorageFault

/-- Two lower-case hexadecimal digits. -/
def hexByte (b : UInt8) : String :=
  String.ofList [Nat.digitChar (b.toNat / 16), Nat.digitChar (b.toNat % 16)]

/-- A frame that does not follow the wire format. -/
inductive ProtocolFault where
  /-- Fewer bytes than a header has. -/
  | shortHeader (direction : Direction) (got : Nat)
  /-- A payload length above the largest. -/
  | oversizedPayload (direction : Direction) (length : Nat)
  /-- Fewer bytes than the header announces. -/
  | shortPayload (direction : Direction) (expected got : Nat)
  /-- A kind that is no command. -/
  | unknownCommand (kind : UInt8)
  /-- A kind that is no response status. -/
  | unknownStatus (kind : UInt8)
  /-- A payload too short for the length of its key. -/
  | missingKeyLength (verb : Verb)
  /-- A key longer than the payload. -/
  | shortKey (verb : Verb) (expected got : Nat)
  /-- Bytes behind the key of a command that has nothing there. -/
  | trailingBytes (verb : Verb) (count : Nat)
  /-- A payload on a ping. -/
  | pingPayload (length : Nat)
  /-- A number of other than eight bytes in a command. -/
  | numberLength (got : Nat)
  /-- A number of other than eight bytes in a response. -/
  | numberAnswer (got : Nat)
  deriving DecidableEq

namespace ProtocolFault

/-- The wording of a malformed frame. -/
def message : ProtocolFault → String
  | shortHeader direction got =>
    "Incomplete " ++ direction.noun ++ " header: expected " ++ toString headerLength ++ " bytes, got "
      ++ toString got
  | oversizedPayload direction length =>
    direction.noun ++ " payload too large: " ++ toString length ++ " bytes (max "
      ++ toString maxPayload ++ ")"
  | shortPayload .command expected got =>
    "Incomplete payload: expected " ++ toString expected ++ " bytes, got " ++ toString got
  | shortPayload .response expected got =>
    "Incomplete response payload: expected " ++ toString expected ++ " bytes, got " ++ toString got
  | unknownCommand kind => "Unknown command type: 0x" ++ hexByte kind
  | unknownStatus kind => "Unknown response status: 0x" ++ hexByte kind
  | missingKeyLength verb => verb.name ++ " command: missing key length"
  | shortKey verb expected got =>
    verb.name ++ " command: incomplete key (expected " ++ toString expected ++ ", got "
      ++ toString got ++ ")"
  | trailingBytes verb count => verb.name ++ " command: " ++ toString count ++ " trailing bytes"
  | pingPayload length => "PING command: unexpected payload of " ++ toString length ++ " bytes"
  | numberLength got => "PUT_NUMBER command: expected 8 value bytes, got " ++ toString got
  | numberAnswer got => "GET_NUMBER response: expected 8 bytes, got " ++ toString got

end ProtocolFault

/-- A refusal by the other side of a connection, or by the network. -/
inductive NetworkFault where
  /-- The server answered with an error. -/
  | refused (answer : String)
  /-- The server could not take its listen address. -/
  | bindFailed (address reason : String)
  deriving DecidableEq

namespace NetworkFault

/-- The wording of a refusal. -/
def message : NetworkFault → String
  | refused answer => "server error: " ++ answer
  | bindFailed address reason => "failed to bind " ++ address ++ ": " ++ reason

end NetworkFault

/-- A configuration that the store does not run with. -/
inductive ConfigFault where
  /-- A segment that holds nothing. -/
  | zeroCapacity
  /-- Barriers without a pause between them. -/
  | zeroInterval
  /-- Values and numbers in one index log. -/
  | sharedIndexLog
  /-- Segment files named by nothing but their number. -/
  | emptySegmentStem
  /-- A capacity other than the one that the stored addresses were made with. -/
  | capacityMismatch (configured recorded : UInt64)
  deriving DecidableEq

namespace ConfigFault

/-- The wording of a refused configuration. -/
def message : ConfigFault → String
  | zeroCapacity => "capacity_bytes must be greater than zero"
  | zeroInterval => "sync_interval_ms must be greater than zero"
  | sharedIndexLog => "number_log_path must differ from index_log_path"
  | emptySegmentStem => "segment_path_prefix must not be empty"
  | capacityMismatch configured recorded =>
    "capacity_bytes is " ++ toString configured.toNat
      ++ " but existing segments were written with " ++ toString recorded.toNat

end ConfigFault

/-- Anything that ends an operation early. -/
inductive Fault where
  /-- A file or a stream failed. -/
  | io (cause : IoFault)
  /-- A file holds something other than what is stored there. -/
  | storage (cause : StorageFault)
  /-- The indexed place holds no record of the key. -/
  | corruptRecord (segment : UInt64) (offset : Nat)
  /-- The other side refused. -/
  | network (cause : NetworkFault)
  /-- A frame does not follow the wire format. -/
  | protocol (cause : ProtocolFault)
  /-- The configuration was refused. -/
  | config (cause : ConfigFault)
  /-- A number is outside the machine's range: a sum or product does not fit a 64-bit word, a divisor
  is zero, or no memory holds so many bytes. -/
  | arithmetic
  deriving DecidableEq

/-- What kind of fault a message announces. -/
inductive Category where
  | io
  | indexLog
  | storage
  | network
  | protocol
  | config
  | arithmetic
  deriving DecidableEq

namespace Category

/-- The words in front of the detail. -/
def label : Category → String
  | io => "IO error"
  | indexLog => "Index log error"
  | storage => "Storage error"
  | network => "Network error"
  | protocol => "Protocol error"
  | config => "Configuration error"
  | arithmetic => "Arithmetic error"

/-- A message of this category. -/
def message (category : Category) (detail : String) : String :=
  category.label ++ ": " ++ detail

end Category

namespace Fault

/-- The text of a fault: the label of its category, then the detail. A corrupt record is told by
its place. -/
def message : Fault → String
  | io cause => Category.io.message cause.message
  | storage cause => Category.storage.message cause.message
  | corruptRecord segment offset =>
    "Corrupt record at segment " ++ toString segment.toNat ++ ", offset " ++ toString offset
  | network cause => Category.network.message cause.message
  | protocol cause => Category.protocol.message cause.message
  | config cause => Category.config.message cause.message
  | arithmetic => Category.arithmetic.message "result outside 64 bits"

end Fault

end BarrierStore
