import HtmlMinifier.Environment
import HtmlMinifier.Run

/-!
# The program

The program reads its command line, records the root directory, and performs one
run.  It ends with 0 when all went well or when it was asked for information,
with 1 when the run failed, and with 2 when the command line was rejected.
-/

namespace HtmlMinifier

/-- What a program is started with, its name apart. -/
structure Invocation where
  arguments : List String
  /-- The threshold of the log that the environment names. -/
  threshold : Option String

/-- How a program ends. -/
inductive Outcome where
  | success
  | failure (failure : Failure)
  /-- The command line asked for something else, or was rejected. -/
  | stop (stop : Settings.Stop)
  deriving DecidableEq, Repr

namespace Outcome

/-- The exit code. -/
def exitCode : Outcome → UInt32
  | success => 0
  | failure _ => 1
  | stop .help => 0
  | stop .version => 0
  | stop (.rejected _) => 2

end Outcome

namespace Program

/-- The program and its version. -/
def version : String :=
  "squeezehtml 0.1.0\n"

/-- How the program is used. -/
def help : String :=
  "Minifies the whitespace of an HTML document\n\n" ++
  "Usage: squeezehtml [OPTIONS] <INPUT> [OUTPUT]\n\n" ++
  "Arguments:\n" ++
  "  <INPUT>   Input file, or - for standard input\n" ++
  "  [OUTPUT]  Output file, or - for standard output (default: overwrite input)\n\n" ++
  "Options:\n" ++
  "      --root <DIR>  Directory relative paths are resolved against\n" ++
  "  -v, --verbose...  Log more (-v info, -vv debug, -vvv trace)\n" ++
  "  -h, --help        Print help\n" ++
  "  -V, --version     Print version\n"

variable {m : Type → Type} [Monad m]

/-- Records the root directory of a new process and reports it. -/
def recordRoot (host : Host m) (threshold : Threshold) (root : Option Path) :
    ExceptT Failure m Environment := do
  match Environment.fresh.init root with
  | .error cause => throw (.environment cause)
  | .ok environment =>
      ExceptT.lift <| Run.report host threshold <|
        environment.rootDir.toList.map Event.rootRecorded
      pure environment

/-- Does what the command line asks for, once that has been understood. -/
def execute (host : Host m) (seed : UInt64) (threshold : Threshold) (settings : Settings) :
    ExceptT Failure m Unit := do
  let environment ← recordRoot host threshold settings.root
  Run.perform host seed threshold environment.rootDir settings

/-- Prints a text, whoever reads it. -/
def print (host : Host m) (text : String) : m Unit := do
  let _ ← host.writeOutput text

/-- Runs the program. -/
def run (host : Host m) (seed : UInt64) (invocation : Invocation) : m Outcome := do
  match Settings.ofArguments invocation.arguments with
  | .error .help =>
      print host help
      pure (.stop .help)
  | .error .version =>
      print host version
      pure (.stop .version)
  | .error (.rejected cause) => pure (.stop (.rejected cause))
  | .ok settings =>
      let threshold := Threshold.choose invocation.threshold settings.verbosity
      match ← (execute host seed threshold settings).run with
      | .ok () => pure .success
      | .error failure =>
          host.report ("Error: " ++ failure.text)
          pure (.failure failure)

end Program

end HtmlMinifier
