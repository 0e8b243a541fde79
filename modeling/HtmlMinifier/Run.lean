import HtmlMinifier.Fault
import HtmlMinifier.Log
import HtmlMinifier.Settings

/-!
# A run

A run reads one document, minifies it, and writes the result to one place.  What
it needs of the machine it runs on is gathered in a `Host`: a run is the same
over every host, be it a real machine or one in memory.

The path `-` stands for standard input and standard output; every other path is
seen from the root directory.  A failure names the path as it was given.
-/

namespace HtmlMinifier

/-- What a run needs of its machine. -/
structure Host (m : Type → Type) where
  /-- Reads standard input to its end. -/
  readInput : m (Except Fault ByteArray)
  /-- Reads a file. -/
  readFile : Path → m (Except Fault ByteArray)
  /-- Writes to standard output. -/
  writeOutput : String → m (Except Fault Unit)
  /-- Writes a file in place of what is there. -/
  writeFile : Path → String → m (Except Fault Unit)
  /-- Reports a line to whoever watches. -/
  report : String → m Unit

namespace Run

variable {m : Type → Type} [Monad m]

/-- A failure at a path. -/
def attempt {β : Type} (path : Path) (action : m (Except Fault β)) : ExceptT Failure m β :=
  ExceptT.mk do
    match ← action with
    | .ok result => pure (.ok result)
    | .error fault => pure (.error (.access path fault))

/-- Bytes as text. -/
def decode (bytes : ByteArray) : Except Fault String :=
  match String.fromUTF8? bytes with
  | some text => .ok text
  | none => .error .notText

/-- Reads the document at a path. -/
def read (host : Host m) (root : Option Path) (path : Path) : ExceptT Failure m String :=
  attempt path do
    let bytes ←
      if path = Path.standard then host.readInput
      else host.readFile (Path.resolve root path)
    pure (bytes.bind decode)

/-- Writes a document to a path. -/
def write (host : Host m) (root : Option Path) (path : Path) (document : String) :
    ExceptT Failure m Unit :=
  attempt path <|
    if path = Path.standard then host.writeOutput document
    else host.writeFile (Path.resolve root path) document

/-- Reports those of some events that a threshold shows. -/
def report (host : Host m) (threshold : Threshold) (events : List Event) : m Unit :=
  (events.filter fun event => threshold.shows event.level).forM fun event =>
    host.report event.line

/-- Reads, minifies and writes one document. -/
def perform (host : Host m) (seed : UInt64) (threshold : Threshold) (root : Option Path)
    (settings : Settings) : ExceptT Failure m Unit := do
  let document ← read host root settings.input
  let minification := Minification.of (sigilFor seed document) document
  let output := minification.output
  ExceptT.lift <| report host threshold <|
    minification.events document ++
      [.finished settings.input document.utf8ByteSize output.utf8ByteSize]
  write host root settings.target output

end Run

end HtmlMinifier
