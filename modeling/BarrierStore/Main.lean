import BarrierStore.CommandLine

/-!
# The program

The command-line client as a program. It has no sockets of its own, so no server is reached.
-/

namespace BarrierStore

/-- Print what a command line leaves behind, and give its exit code. -/
def emit (output : CommandLine.Output) : IO UInt32 := do
  (← IO.getStdout).putStr output.stdout
  (← IO.getStderr).putStr output.stderr
  return UInt32.ofNat output.code

end BarrierStore

def main (words : List String) : IO UInt32 :=
  BarrierStore.emit (BarrierStore.CommandLine.run BarrierStore.Link.down words)
