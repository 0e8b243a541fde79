import HtmlMinifier.Minification
import HtmlMinifier.Path
import HtmlMinifier.Quoted

/-!
# The log

What happens in a run is reported as events.  Every event has a level, and a
threshold says which levels are shown: those at least as grave as itself, or
none.  The threshold follows from how often a longer log was asked for, unless
the environment names one.

A path in the message of an event is written so that a terminal which shows the
log takes nothing in it for a command.
-/

namespace HtmlMinifier

/-- How grave an event is, from the gravest on. -/
inductive Level where
  | error
  | warn
  | info
  | debug
  | trace
  deriving DecidableEq, Repr

namespace Level

/-- All levels, the gravest first. -/
def all : List Level :=
  [error, warn, info, debug, trace]

/-- The name of a level, as a log line begins. -/
def name : Level → String
  | error => "ERROR"
  | warn => "WARN"
  | info => "INFO"
  | debug => "DEBUG"
  | trace => "TRACE"

/-- The place of a level, counted from one. -/
def rank : Level → Nat
  | error => 1
  | warn => 2
  | info => 3
  | debug => 4
  | trace => 5

end Level

/-- The least grave level that is shown; without it nothing is. -/
abbrev Threshold :=
  Option Level

namespace Threshold

/-- Whether events of a level are shown. -/
def shows (threshold : Threshold) (level : Level) : Bool :=
  match threshold with
  | none => false
  | some least => level.rank <= least.rank

/-- The threshold for someone who asked for a longer log so many times. -/
def ofVerbosity : Nat → Threshold
  | 0 => some .warn
  | 1 => some .info
  | 2 => some .debug
  | _ => some .trace

/-- Reads a threshold: the name of a level in any case, its place, or `off` or
`0` for none.  The empty text is the gravest level. -/
def parse? (text : String) : Option Threshold :=
  let word := text.toList.map Char.toLower
  if word.isEmpty then some (some .error)
  else if word = ['o', 'f', 'f'] || word = ['0'] then some none
  else
    (Level.all.find? fun level =>
      word = level.name.toList.map Char.toLower || word = Nat.toDigits 10 level.rank).map some

/-- The threshold of a run: what the environment names, if it can be read, and
else what the command line asks for. -/
def choose (named : Option String) (verbosity : Nat) : Threshold :=
  (named.bind parse?).getD (ofVerbosity verbosity)

end Threshold

/-- What a run reports. -/
inductive Event where
  /-- A root directory has been recorded. -/
  | rootRecorded (root : Path)
  /-- A milestone has been reached with a document of `input` bytes: the draft
  there has `size` bytes and `regions` regions. -/
  | reached (milestone : Milestone) (input size regions : Nat)
  /-- A document has been minified. -/
  | minified (input output : Nat)
  /-- The document of a path has been minified. -/
  | finished (path : Path) (input output : Nat)
  deriving DecidableEq, Repr

namespace Event

/-- How grave an event is. -/
def level : Event → Level
  | rootRecorded _ => .debug
  | reached .. => .trace
  | minified .. => .debug
  | finished .. => .info

/-- A character in the message of an event.  The controls with which commands to
a terminal begin or end, the bell, and those that move or erase are written by
their codes; line ends and tabs are not among them. -/
def inertChar (c : Char) : List Char :=
  if c ∈ ['\x07', '\x08', '\x0c', '\x1b', '\x7f'] then
    ['\\', 'x', Nat.digitChar (c.toNat / 16), Nat.digitChar (c.toNat % 16)]
  else if 0x80 <= c.toNat && c.toNat <= 0x9f then Quoted.codePoint c
  else [c]

/-- A text in the message of an event. -/
def inert (text : String) : String :=
  String.ofList (text.toList.flatMap inertChar)

/-- A value with its label. -/
def field (label value : String) : String :=
  " " ++ label ++ "=" ++ value

/-- The sizes of a document before and after.  What is saved is never negative. -/
def sizes (input output : Nat) : String :=
  field "input" (toString input) ++ field "output" (toString output) ++
    field "saved" (toString (input - output))

/-- What is said of a milestone. -/
def milestoneText : Milestone → String
  | .scripts => "scripts protected"
  | .styles => "styles protected"
  | .comments => "comments stripped"
  | .verbatim => "verbatim blocks protected"
  | .whitespace => "whitespace collapsed"

/-- The beginning of what is said during the work on a document. -/
def scope (input : Nat) : String :=
  "minify\x7blen=" ++ toString input ++ "\x7d: "

/-- What is said of an event. -/
def text : Event → String
  | rootRecorded root => "root directory recorded" ++ field "root" root.text
  | reached milestone input size regions =>
      scope input ++ milestoneText milestone ++ field "len" (toString size) ++
        if milestone = .verbatim then field "regions" (toString regions) else ""
  | minified input output => scope input ++ "minified" ++ sizes input output
  | finished path input output => "minified " ++ inert path.text ++ sizes input output

/-- The log line of an event. -/
def line (event : Event) : String :=
  event.level.name ++ " " ++ event.text

end Event

namespace Minification

/-- The events of the work on a document. -/
def events (minification : Minification) (document : String) : List Event :=
  let input := document.utf8ByteSize
  (minification.milestones.map fun (milestone, draft) =>
      .reached milestone input draft.byteSize draft.table.size) ++
    [.minified input minification.output.utf8ByteSize]

end Minification

end HtmlMinifier
