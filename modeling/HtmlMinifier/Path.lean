/-!
# Paths

A path is text.  It is absolute when it begins with `/` and relative otherwise.
Joining puts a relative path behind a directory and leaves an absolute one as it
is; nothing is tidied up, so `a/../b` stays `a/../b`.
-/

namespace HtmlMinifier

/-- The path of a file or a directory, as it is written. -/
structure Path where
  text : String
  deriving DecidableEq, Repr

namespace Path

/-- Whether a path says where it is without reference to a directory. -/
def isAbsolute (path : Path) : Bool :=
  path.text.toList.head? == some '/'

/-- What has to stand between a directory and what is in it: nothing, where the
directory is empty or ends in a slash. -/
def separator (directory : Path) : String :=
  match directory.text.toList.getLast? with
  | none => ""
  | some c => if c = '/' then "" else "/"

/-- A path seen from a directory. -/
def join (directory path : Path) : Path :=
  if path.isAbsolute then path
  else ⟨directory.text ++ directory.separator ++ path.text⟩

/-- A path seen from a root, if there is one. -/
def resolve (root : Option Path) (path : Path) : Path :=
  match root with
  | some directory => directory.join path
  | none => path

/-- The path that stands for standard input and standard output. -/
def standard : Path :=
  ⟨"-"⟩

/-- Cuts letters at their slashes. -/
def split : List Char → List (List Char)
  | [] => [[]]
  | c :: letters =>
      if c = '/' then [] :: split letters
      else
        match split letters with
        | [] => [[c]]
        | name :: names => (c :: name) :: names

/-- The names between the slashes of a path.  Two slashes in a row have an empty
name between them. -/
def names (path : Path) : List String :=
  (split path.text.toList).map String.ofList

/-- Whether a path asks for a directory by a slash at its end. -/
def endsInSlash (path : Path) : Bool :=
  path.text.toList.getLast? == some '/'

/-- An absolute path is the same under every root. -/
theorem resolve_of_isAbsolute {path : Path} (absolute : path.isAbsolute = true)
    (root : Option Path) : resolve root path = path := by
  cases root <;> simp [resolve, join, absolute]

end Path

end HtmlMinifier
