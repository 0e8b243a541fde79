import HtmlMinifier.Environment
import HtmlMinifier.Quoted

/-!
# What can go wrong

Minifying itself never fails.  Reading and writing do, for a handful of causes;
a failure says which path it was about, in the way it was given, and why.
-/

namespace HtmlMinifier

/-- Why something cannot be read or written. -/
inductive Fault where
  /-- There is no such file, or no such directory on the way to it. -/
  | notFound
  /-- A directory stands where a file is needed. -/
  | isADirectory
  /-- A file stands where a directory is needed. -/
  | notADirectory
  /-- Nobody reads what is written. -/
  | brokenPipe
  /-- What is there is not text in UTF-8. -/
  | notText
  /-- Anything else, by its number and in the words of the system. -/
  | other (code : Nat) (description : String)
  deriving DecidableEq, Repr

namespace Fault

/-- The name of a kind of fault. -/
def kind : Fault → String
  | notFound => "NotFound"
  | isADirectory => "IsADirectory"
  | notADirectory => "NotADirectory"
  | brokenPipe => "BrokenPipe"
  | notText => "InvalidData"
  | other _ _ => "Uncategorized"

/-- The fault that a system reports by a number and a description. -/
def ofSystem (code : Nat) (description : String) : Fault :=
  match code with
  | 2 => notFound
  | 20 => notADirectory
  | 21 => isADirectory
  | 32 => brokenPipe
  | code => other code description

/-- A fault of the system, with its number and what the system says. -/
def systemText (fault : Fault) (code : Nat) (description : String) : String :=
  "Os \x7b code: " ++ toString code ++ ", kind: " ++ fault.kind ++ ", message: " ++
    Quoted.encode description ++ " \x7d"

/-- All there is to say about a fault. -/
def text (fault : Fault) : String :=
  match fault with
  | notFound => fault.systemText 2 "No such file or directory"
  | isADirectory => fault.systemText 21 "Is a directory"
  | notADirectory => fault.systemText 20 "Not a directory"
  | brokenPipe => fault.systemText 32 "Broken pipe"
  | notText =>
      "Error \x7b kind: " ++ fault.kind ++
        ", message: \"stream did not contain valid UTF-8\" \x7d"
  | other code description => fault.systemText code description

end Fault

/-- Why a run fails. -/
inductive Failure where
  /-- Something at a path could not be read or written. -/
  | access (path : Path) (fault : Fault)
  /-- The root directory had been recorded before. -/
  | environment (cause : Environment.AlreadyInitialized)
  deriving DecidableEq, Repr

namespace Failure

/-- A failure in a sentence. -/
def message : Failure → String
  | access path _ => "cannot read or write " ++ path.text
  | environment cause => cause.message

/-- A failure with its cause, on one line. -/
def text : Failure → String
  | access path fault =>
      "Io \x7b path: " ++ Quoted.encode path.text ++ ", source: " ++ fault.text ++ " \x7d"
  | environment _ => "AlreadyInitialized"

end Failure

end HtmlMinifier
