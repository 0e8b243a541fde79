import HtmlMinifier.Program

/-!
# The command line program

The program on a real machine.  Everything it decides is decided in `Program`;
this module only reads, writes and prints.
-/

namespace HtmlMinifier.Main

/-- The number of an error, which some calls report as a negative one. -/
def number (code : UInt32) : Nat :=
  if code < 0x80000000 then code.toNat else (0 - code).toNat

/-- The number and the description of an error of the system. -/
def systemError : IO.Error → Nat × String
  | .alreadyExists _ code details => (number code, details)
  | .otherError code details => (number code, details)
  | .resourceBusy code details => (number code, details)
  | .resourceVanished code details => (number code, details)
  | .unsupportedOperation code details => (number code, details)
  | .hardwareFault code details => (number code, details)
  | .unsatisfiedConstraints code details => (number code, details)
  | .illegalOperation code details => (number code, details)
  | .protocolError code details => (number code, details)
  | .timeExpired code details => (number code, details)
  | .interrupted _ code details => (number code, details)
  | .noFileOrDirectory _ code details => (number code, details)
  | .invalidArgument _ code details => (number code, details)
  | .permissionDenied _ code details => (number code, details)
  | .resourceExhausted _ code details => (number code, details)
  | .inappropriateType _ code details => (number code, details)
  | .noSuchThing _ code details => (number code, details)
  | .unexpectedEof => (0, "end of file")
  | .userError message => (0, message)

/-- Does something that may fail, and tells why it failed. -/
def attempt {β : Type} (action : IO β) : IO (Except Fault β) := do
  try
    let result ← action
    pure (.ok result)
  catch error =>
    let (code, details) := systemError error
    pure (.error (Fault.ofSystem code details))

/-- The machine that the program runs on. -/
def host : Host IO where
  readInput := attempt do
    let input ← IO.getStdin
    input.readBinToEnd
  readFile path := attempt (IO.FS.readBinFile path.text)
  writeOutput text := attempt do
    let output ← IO.getStdout
    output.putStr text
    output.flush
  writeFile path text := attempt (IO.FS.writeFile path.text text)
  report line := IO.eprintln line

/-- The variable that names the threshold of the log. -/
def thresholdVariable : String :=
  "RUST_LOG"

end HtmlMinifier.Main

open HtmlMinifier in
/-- Runs the program on the arguments of the command line. -/
def main (arguments : List String) : IO UInt32 := do
  let named ← IO.getEnv Main.thresholdVariable
  let time ← IO.monoNanosNow
  let outcome ← Program.run Main.host (UInt64.ofNat time) ⟨arguments, named⟩
  match outcome with
  | .stop (.rejected cause) => IO.eprintln ("error: " ++ cause.message)
  | _ => pure ()
  pure outcome.exitCode
