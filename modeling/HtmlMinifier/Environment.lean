import HtmlMinifier.Path

/-!
# The environment of a process

A process has at most one root directory, and it is told once whether it has
one.  Telling it again is refused, also when the first time there was no root:
an environment that knows of no root is not the same as one that knows that
there is none.  Before it is told, an environment acts as if there were none.
-/

namespace HtmlMinifier

/-- What a process knows of its root directory, once it has been told. -/
structure Environment where
  recorded : Option (Option Path)
  deriving DecidableEq, Repr

namespace Environment

/-- The environment of a new process. -/
def fresh : Environment :=
  ⟨none⟩

/-- The root directory has been recorded before. -/
structure AlreadyInitialized where
  deriving DecidableEq, Repr

/-- What there is to say about a second root directory. -/
def AlreadyInitialized.message (_ : AlreadyInitialized) : String :=
  "environment already initialized"

/-- Records the root directory, or that there is none. -/
def init (environment : Environment) (root : Option Path) :
    Except AlreadyInitialized Environment :=
  match environment.recorded with
  | none => .ok ⟨some root⟩
  | some _ => .error {}

/-- The root directory, if there is one. -/
def rootDir (environment : Environment) : Option Path :=
  environment.recorded.getD none

/-- A path seen from the root directory. -/
def resolve (environment : Environment) (path : Path) : Path :=
  Path.resolve environment.rootDir path

/-- A switch that is on. -/
def yes : Bool :=
  true

/-- A switch that is off. -/
def no : Bool :=
  false

/-- What a process can ask of its environment. -/
inductive Request where
  | init (root : Option Path)
  | rootDir
  | resolve (path : Path)
  deriving DecidableEq, Repr

/-- What an environment answers. -/
inductive Reply where
  | done
  | refused (cause : AlreadyInitialized)
  | root (root : Option Path)
  | path (path : Path)
  deriving DecidableEq, Repr

/-- Answers a request.  A refused request changes nothing. -/
def answer (environment : Environment) : Request → Reply × Environment
  | .init root =>
      match environment.init root with
      | .ok next => (.done, next)
      | .error cause => (.refused cause, environment)
  | .rootDir => (.root environment.rootDir, environment)
  | .resolve path => (.path (environment.resolve path), environment)

/-- Answers requests one after the other. -/
def answers (environment : Environment) : List Request → List Reply
  | [] => []
  | request :: requests =>
      let (reply, next) := environment.answer request
      reply :: next.answers requests

end Environment

end HtmlMinifier
