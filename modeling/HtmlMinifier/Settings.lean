import HtmlMinifier.Path

/-!
# Settings from the command line

A command line names the input and perhaps the output, and may hold options
anywhere among them:

* `--root DIR` or `--root=DIR` names the directory that relative paths start
  from, and may be given once;
* `-v` or `--verbose` asks for a longer log, and may be given often; short
  options may be run together, as in `-vv`;
* `-h`, `--help`, `-V` and `--version` ask for information instead of a run;
* `--` ends the options.

A single `-` is a path, not an option.

A path, and a value that stands apart from its option, is looked at only when
the next option or path is taken, or at the end.  So of two faults in a row, a
bad value and an argument that fits nowhere, the second is reported.
-/

namespace HtmlMinifier

/-- What a command line asks for. -/
structure Settings where
  root : Option Path
  /-- How often a longer log is asked for, counted to 255. -/
  verbosity : Nat
  input : Path
  /-- Where the result goes; without it, over the input. -/
  output : Option Path
  deriving DecidableEq, Repr

namespace Settings

/-- A path that a command line can name. -/
inductive Slot where
  | root
  | input
  | output
  deriving DecidableEq, Repr

/-- How a slot is called. -/
def Slot.name : Slot → String
  | root => "--root <DIR>"
  | input => "<INPUT>"
  | output => "[OUTPUT]"

/-- Why a command line is rejected. -/
inductive Rejection where
  /-- There is no input. -/
  | missingInput
  /-- An option that does not exist, or one path too many. -/
  | unexpected (argument : String)
  /-- A value for an option that takes none. -/
  | unneededValue (option value : String)
  /-- The root option without a value. -/
  | missingValue (slot : Slot)
  /-- An empty path. -/
  | emptyValue (slot : Slot)
  /-- The root option for a second time. -/
  | repeated (slot : Slot)
  deriving DecidableEq, Repr

/-- What there is to say about a rejected command line. -/
def Rejection.message : Rejection → String
  | missingInput => "the required argument " ++ Slot.input.name ++ " was not provided"
  | unexpected argument => "unexpected argument '" ++ argument ++ "' found"
  | unneededValue option value =>
      "unexpected value '" ++ value ++ "' for '" ++ option ++ "' found; no more were expected"
  | missingValue slot => "a value is required for '" ++ slot.name ++ "' but none was supplied"
  | emptyValue slot => "a value is required for '" ++ slot.name ++ "' but none was supplied"
  | repeated slot => "the argument '" ++ slot.name ++ "' cannot be used multiple times"

/-- Why reading a command line ends without settings. -/
inductive Stop where
  | help
  | version
  | rejected (cause : Rejection)
  deriving DecidableEq, Repr

/-- A command line that has been read in part. -/
structure Reading where
  root : Option Path
  verbosity : Nat
  input : Option Path
  output : Option Path
  /-- A slot that is open, with its value if that is there already. -/
  pending : Option (Slot × Option String)
  /-- The slots for the paths to come. -/
  free : List Slot
  /-- Whether the options are over. -/
  literal : Bool

namespace Reading

/-- Nothing has been read. -/
def start : Reading where
  root := none
  verbosity := 0
  input := none
  output := none
  pending := none
  free := [.input, .output]
  literal := false

/-- Whether a slot already has a path. -/
def holds (reading : Reading) : Slot → Bool
  | .root => reading.root.isSome
  | .input => reading.input.isSome
  | .output => reading.output.isSome

/-- Puts a path into a slot. -/
def fill (reading : Reading) (slot : Slot) (text : String) : Except Stop Reading :=
  if reading.holds slot then .error (.rejected (.repeated slot))
  else if text.isEmpty then .error (.rejected (.emptyValue slot))
  else
    .ok <|
      match slot with
      | .root => { reading with root := some ⟨text⟩ }
      | .input => { reading with input := some ⟨text⟩ }
      | .output => { reading with output := some ⟨text⟩ }

/-- Looks at the value that is pending. -/
def settle (reading : Reading) : Except Stop Reading :=
  match reading.pending with
  | none => .ok reading
  | some (slot, none) => .error (.rejected (.missingValue slot))
  | some (slot, some text) => { reading with pending := none }.fill slot text

/-- Asks for a longer log once more. -/
def louder (reading : Reading) : Except Stop Reading := do
  let settled ← reading.settle
  .ok { settled with verbosity := min 255 (settled.verbosity + 1) }

/-- Ends the reading with a request for information. -/
def stop (reading : Reading) (stop : Stop) : Except Stop Reading := do
  let _ ← reading.settle
  .error stop

/-- Reads a run of short options. -/
def short (reading : Reading) : List Char → Except Stop Reading
  | [] => .ok reading
  | 'v' :: letters => do
      let next ← reading.louder
      next.short letters
  | 'h' :: _ => reading.stop .help
  | 'V' :: _ => reading.stop .version
  | letter :: _ => .error (.rejected (.unexpected ("-" ++ letter.toString)))

/-- Reads a long option, given by its name and the value attached to it. -/
def long (reading : Reading) (name : String) (value : Option String) : Except Stop Reading :=
  match name, value with
  | "root", some text => do
      let settled ← reading.settle
      settled.fill .root text
  | "root", none => do
      let settled ← reading.settle
      .ok { settled with pending := some (.root, none) }
  | "verbose", none => reading.louder
  | "help", none => reading.stop .help
  | "version", none => reading.stop .version
  | "verbose", some text => .error (.rejected (.unneededValue "--verbose..." text))
  | "help", some text => .error (.rejected (.unneededValue "--help" text))
  | "version", some text => .error (.rejected (.unneededValue "--version" text))
  | name, _ => .error (.rejected (.unexpected ("--" ++ name)))

/-- Reads a path. -/
def path (reading : Reading) (text : String) : Except Stop Reading :=
  match reading.free with
  | [] => .error (.rejected (.unexpected text))
  | slot :: free => do
      let settled ← reading.settle
      .ok { settled with pending := some (slot, some text), free := free }

/-- Reads an argument that is no option: the value of an open slot, or a path. -/
def word (reading : Reading) (text : String) : Except Stop Reading :=
  match reading.pending with
  | some (slot, none) => .ok { reading with pending := some (slot, some text) }
  | _ => reading.path text

/-- Reads one argument. -/
def argument (reading : Reading) (text : String) : Except Stop Reading :=
  if reading.literal then reading.path text
  else
    match text.toList with
    | ['-'] => reading.word text
    | ['-', '-'] => .ok { reading with literal := true }
    | '-' :: '-' :: option =>
        let name := option.takeWhile (· != '=')
        let value :=
          match option.dropWhile (· != '=') with
          | [] => none
          | _ :: value => some (String.ofList value)
        reading.long (String.ofList name) value
    | '-' :: letters => reading.short letters
    | _ => reading.word text

/-- Reads the end of a command line. -/
def finish (reading : Reading) : Except Stop Settings := do
  let settled ← reading.settle
  match settled.input with
  | none => .error (.rejected .missingInput)
  | some input =>
      .ok
        { root := settled.root
          verbosity := settled.verbosity
          input := input
          output := settled.output }

end Reading

/-- Reads a command line, without the name of the program. -/
def ofArguments (arguments : List String) : Except Stop Settings := do
  let reading ← arguments.foldlM Reading.argument Reading.start
  reading.finish

/-- The path that the result is written to. -/
def target (settings : Settings) : Path :=
  settings.output.getD settings.input

end Settings

end HtmlMinifier
