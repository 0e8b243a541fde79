import HtmlMinifier.FileTree
import HtmlMinifier.Run

/-!
# A machine in memory

A `World` is all that a run can see and change: a tree of files, what waits on
standard input, and what has been written to standard output and reported so
far.  It is a host like any other, so what holds of a run in a world holds of the
program.
-/

namespace HtmlMinifier

/-- The state of a machine. -/
structure World where
  tree : FileTree
  input : ByteArray
  output : String
  /-- Whether someone reads standard output. -/
  listening : Bool
  /-- What has been reported, line by line. -/
  reports : Array String

namespace World

/-- A world before a program starts in it. -/
def start (tree : FileTree) (input : ByteArray) (listening : Bool) : World :=
  ⟨tree, input, "", listening, #[]⟩

/-- Reads standard input, of which nothing is left then. -/
def readInput : StateM World (Except Fault ByteArray) := do
  let world ← get
  set { world with input := ByteArray.empty }
  pure (.ok world.input)

/-- Reads a file. -/
def readFile (path : Path) : StateM World (Except Fault ByteArray) := do
  let world ← get
  pure (world.tree.read path)

/-- Writes to standard output.  To write nothing always succeeds. -/
def writeOutput (text : String) : StateM World (Except Fault Unit) := do
  let world ← get
  if world.listening || text.isEmpty then
    set { world with output := world.output ++ text }
    pure (.ok ())
  else
    pure (.error .brokenPipe)

/-- Writes a file. -/
def writeFile (path : Path) (text : String) : StateM World (Except Fault Unit) := do
  let world ← get
  match world.tree.write path text.toUTF8 with
  | .ok tree =>
      set { world with tree := tree }
      pure (.ok ())
  | .error fault => pure (.error fault)

/-- Notes a report. -/
def report (line : String) : StateM World Unit :=
  modify fun world => { world with reports := world.reports.push line }

/-- A world as the host of a run. -/
def host : Host (StateM World) where
  readInput := readInput
  readFile := readFile
  writeOutput := writeOutput
  writeFile := writeFile
  report := report

end World

end HtmlMinifier
