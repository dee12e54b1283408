import BarrierStore.Endpoint.Host

/-!
# Endpoints

An endpoint is a host and a socket number: where a server listens, and where a client finds it.

The module introduces `Endpoint` and `Endpoint.parse?`, which reads an endpoint from an address: the
host, a colon and the socket number. A host in brackets is one of eight groups, and the number
behind it has no sign.
-/

namespace BarrierStore

/-- A host and a socket number. -/
structure Endpoint where
  host : Host
  socket : Nat
  deriving DecidableEq

namespace Endpoint

/-- One more than the largest socket number. -/
def socketLimit : Nat := 65536

/-- The text between brackets. -/
def bracketed? : (text : List Char) → Option (List Char)
  | '[' :: rest => if rest.getLast? = some ']' then some rest.dropLast else none
  | _ => none

/-- The endpoint that the texts of a host and of a number name. -/
def ofTexts? (host number : List Char) : Option Endpoint :=
  match bracketed? host with
  | some inner => do
    return { host := .long (← Host.scoped? inner), socket := ← Numeral.parse? 10 socketLimit number }
  | none => do
    let socket ← Numeral.parse? 10 socketLimit (Decimal.unsigned number)
    return { host := ← Host.parse? host, socket }

/-- The endpoint of an address: the host in front of the last colon, the number behind it. -/
def parse? (address : String) : Option Endpoint :=
  let reversed := address.toList.reverse
  match reversed.dropWhile (· ≠ ':') with
  | [] => none
  | _ :: host => ofTexts? host.reverse (reversed.takeWhile (· ≠ ':')).reverse

end Endpoint

end BarrierStore
