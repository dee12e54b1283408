import BarrierStore.Client
import BarrierStore.Config

/-!
# The command line

The command-line client carries out one command on a server and prints the answer.

The module introduces:

* `Invocation` — what the words of a command line ask for; `Invocation.parse` reads them;
* `Usage` — why there is nothing to carry out: help was asked for, or the words make no sense;
* `CommandLine.run` — the exit code and the output of a command line.
-/

namespace BarrierStore

/-- The subcommands. -/
inductive Subcommand where
  | get
  | set
  | getNumber
  | setNumber
  | ping
  deriving DecidableEq

namespace Subcommand

/-- The subcommands in the order of the help text. -/
def all : List Subcommand := [get, set, getNumber, setNumber, ping]

/-- The word for a subcommand. -/
def word : Subcommand → String
  | get => "get"
  | set => "set"
  | getNumber => "get-number"
  | setNumber => "set-number"
  | ping => "ping"

/-- What a subcommand does. -/
def about : Subcommand → String
  | get => "Get a value by key"
  | set => "Set a key-value pair (returns once the write is durable)"
  | getNumber => "Get a number by key"
  | setNumber => "Store a number under a key (returns once the write is durable)"
  | ping => "Ping the server"

/-- The words that follow a subcommand, with their meaning. -/
def operands : Subcommand → List (String × String)
  | get | getNumber => [("<KEY>", "The key to get")]
  | set => [("<KEY>", "The key to set"), ("<VALUE>", "The value to set")]
  | setNumber => [("<KEY>", "The key to set"), ("<VALUE>", "The number to store")]
  | ping => []

/-- The subcommand of a word. -/
def ofWord? (word : String) : Option Subcommand :=
  all.find? fun subcommand => subcommand.word = word

end Subcommand

/-- A command for a server. -/
structure Invocation where
  /-- The server's address. -/
  server : String
  command : Command
  deriving DecidableEq

/-- Why there is nothing to carry out. -/
inductive Usage where
  /-- Help was asked for; this is its text. -/
  | help (text : String)
  /-- The words make no sense. -/
  | misuse
  deriving DecidableEq

namespace Usage

/-- The name of the program. -/
def program : String := "segkv-cli"

/-- The text padded with spaces to a width. -/
def padded (width : Nat) (text : String) : String :=
  text ++ String.ofList (List.replicate (width - text.length) ' ')

/-- Lines of two columns, two spaces apart and indented by two. -/
def table (rows : List (String × String)) : String :=
  let width := (rows.map fun (left, _) => left.length).foldl max 0
  String.join (rows.map fun (left, right) => "  " ++ padded width left ++ "  " ++ right ++ "\n")

/-- What the help subcommand does. -/
def aboutHelp : String := "Print this message or the help of the given subcommand(s)"

/-- The options of the program. -/
def options : List (String × String) :=
  [("-s, --server <SERVER>", "Server address [default: " ++ Config.defaultAddress ++ "]"),
    ("-h, --help", "Print help")]

/-- How the program is called. -/
def usageLine : String := "Usage: " ++ program ++ " [OPTIONS] <COMMAND>\n"

/-- The help text of the program. -/
def overview : String :=
  "CLI for the SegKV key-value store\n\n" ++ usageLine ++ "\nCommands:\n"
    ++ table (Subcommand.all.map (fun s => (s.word, s.about)) ++ [("help", aboutHelp)])
    ++ "\nOptions:\n" ++ table options

/-- The help text of a subcommand. -/
def ofSubcommand (subcommand : Subcommand) : String :=
  let operands := subcommand.operands
  subcommand.about ++ "\n\nUsage: " ++ program ++ " " ++ subcommand.word
    ++ String.join (operands.map fun (name, _) => " " ++ name) ++ "\n\n"
    ++ (if operands.isEmpty then "" else "Arguments:\n" ++ table operands ++ "\n")
    ++ "Options:\n" ++ table [("-h, --help", "Print help")]

/-- The help text of the help subcommand. -/
def ofHelp : String :=
  aboutHelp ++ "\n\nUsage: " ++ program ++ " help [COMMAND]...\n\nArguments:\n"
    ++ table [("[COMMAND]...", "Print help for the subcommand(s)")]

end Usage

namespace Invocation

/-- Whether a word is an option rather than an operand: a dash with something behind it. -/
def isOption (word : String) : Bool :=
  match word.toList with
  | '-' :: _ :: _ => true
  | _ => false

/-- Whether a word asks for help. What follows the letter in the same word does not count. -/
def asksForHelp (word : String) : Bool :=
  word = "--help" || "-h".isPrefixOf word

/-- The operands of a subcommand, at most `count` of them. After `--` every word is an operand.
`accepts` says whether a word will do for an operand, given how many are still to come. -/
def operands (help : String) (accepts : (toCome : Nat) → String → Bool) :
    (count : Nat) → (escaped : Bool) → List String → Except Usage (List String)
  | 0, _, [] => .ok []
  | _ + 1, _, [] => .error .misuse
  | count, escaped, word :: rest =>
    -- only the first `--` is a mark; a later one is an operand
    if !escaped && word = "--" then operands help accepts count true rest
    else if !escaped && asksForHelp word then .error (.help help)
    else if !escaped && isOption word then .error .misuse
    else
      match count with
      | 0 => .error .misuse
      | count + 1 =>
        if accepts count word then (word :: ·) <$> operands help accepts count escaped rest
        else .error .misuse

/-- The bytes of a word. -/
def bytes (word : String) : Bytes := Utf8.encode word.toList

/-- The command of a subcommand and the words behind it. -/
def ofWords (subcommand : Subcommand) (words : List String) : Except Usage Command := do
  let accepts (toCome : Nat) (word : String) : Bool :=
    subcommand ≠ .setNumber || toCome ≠ 0 || (Decimal.parse? word.toList).isSome
  let found ← operands (Usage.ofSubcommand subcommand) accepts subcommand.operands.length false words
  match subcommand, found with
  | .get, [key] => return .get (bytes key)
  | .set, [key, value] => return .put (bytes key) (bytes value)
  | .getNumber, [key] => return .getNumber (bytes key)
  | .setNumber, [key, number] =>
    match Decimal.parse? number.toList with
    | some number => return .putNumber (bytes key) number
    | none => throw .misuse
  | .ping, [] => return .ping
  | _, _ => throw .misuse

/-- The answer to a request for help on a subcommand. -/
def helpOn : (words : List String) → Usage
  | [] => .help Usage.overview
  | ["help"] => .help Usage.ofHelp
  | [word] =>
    match Subcommand.ofWord? word with
    | some subcommand => .help (Usage.ofSubcommand subcommand)
    | none => .misuse
  | _ => .misuse

/-- The server's address where the command line gives none. -/
def address (server : Option String) : String := server.getD Config.defaultAddress

/-- The server of a word that has the option and its value in one: `--server=x`, `-s=x` or
`-sx`. -/
def attachedServer? (word : String) : Option String :=
  match word.toList with
  | '-' :: 's' :: '=' :: value => some (String.ofList value)
  | '-' :: 's' :: value => some (String.ofList value)
  | chars =>
    let option := "--server=".toList
    if option.isPrefixOf chars then some (String.ofList (chars.drop option.length)) else none

/-- What the words ask for; `server` is the address that was read so far. -/
def parseFrom (server : Option String) : (words : List String) → Except Usage Invocation
  | [] => .error .misuse
  | word :: rest =>
    if word = "--server" ∨ word = "-s" then
      match rest with
      | value :: rest =>
        if server.isSome || isOption value then .error .misuse else parseFrom (some value) rest
      | [] => .error .misuse
    else if asksForHelp word then .error (.help Usage.overview)
    else
      match attachedServer? word with
      | some value => if server.isSome then .error .misuse else parseFrom (some value) rest
      | none =>
        if word = "help" then .error (helpOn rest)
        else
          match Subcommand.ofWord? word with
          | none => .error .misuse
          | some subcommand =>
            (fun command => { server := address server, command }) <$> ofWords subcommand rest

/-- What the words of a command line ask for. -/
def parse (words : List String) : Except Usage Invocation :=
  parseFrom none words

end Invocation

namespace CommandLine

/-- What a command line leaves behind. -/
structure Output where
  code : Nat
  stdout : String
  stderr : String
  deriving DecidableEq

/-- A line of output. -/
def printed (text : String) : Output := ⟨0, text ++ "\n", ""⟩

/-- The line for a fault. -/
def failed (fault : Fault) : Output := ⟨1, "", "error: " ++ fault.message ++ "\n"⟩

/-- The line for what was found, or for nothing. -/
def shown {α : Type} (text : α → String) : Except Fault (Option α) → Output
  | .ok (some a) => printed (text a)
  | .ok none => printed "(nil)"
  | .error fault => failed fault

/-- The line for success. -/
def succeeded (text : String) : Except Fault Unit → Output
  | .ok () => printed text
  | .error fault => failed fault

/-- Carry out a command as a client and print the answer. -/
def carryOut (client : Client) : Command → Output
  | .get key => shown (fun value => String.ofList (Utf8.decodeLossy value)) (client.get key).1
  | .put key value => succeeded "OK" (client.put key value).1
  | .getNumber key => shown (fun number => toString number.toNat) (client.getNumber key).1
  | .putNumber key number => succeeded "OK" (client.putNumber key number).1
  | .ping => succeeded "PONG" client.ping.1

/-- The exit code and the output of a command line. -/
def run (link : Link) (words : List String) : Output :=
  match Invocation.parse words with
  | .error (.help text) => ⟨0, text, ""⟩
  | .error .misuse => ⟨2, "", Usage.usageLine⟩
  | .ok invocation =>
    match Client.connect link invocation.server with
    | .error fault => failed fault
    | .ok client => carryOut client invocation.command

end CommandLine

end BarrierStore
