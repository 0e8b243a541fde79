import HtmlMinifier.Fault

/-!
# A tree of files

A tree of directories and files, with a place in it where a program works.  An
absolute path starts at the top of the tree and a relative one where the program
works.  Paths are walked name by name: an empty name and `.` stay, `..` goes up,
though not beyond the top, and every name but the last has to be a directory.

Reading and writing fail before they do anything.  Writing replaces a file as a
whole, or makes it if there is none.
-/

namespace HtmlMinifier

/-- Where something is, name by name from the top of the tree. -/
abbrev Location :=
  List String

/-- What a tree holds. -/
inductive Node where
  | directory
  | file (content : ByteArray)

/-- A tree of directories and files. -/
structure FileTree where
  /-- Everything but the top. -/
  nodes : List (Location × Node)
  /-- The directory that relative paths start from. -/
  here : Location

namespace FileTree

/-- What is at a location.  The top is a directory. -/
def node? (tree : FileTree) (location : Location) : Option Node :=
  match location with
  | [] => some .directory
  | _ => tree.nodes.lookup location

/-- The content of the file at a location. -/
def file? (tree : FileTree) (location : Location) : Option ByteArray :=
  match tree.node? location with
  | some (.file content) => some content
  | _ => none

/-- The files at or below where the program works, as seen from there. -/
def files (tree : FileTree) : List (Location × ByteArray) :=
  tree.nodes.filterMap fun (location, node) =>
    match node with
    | .directory => none
    | .file content =>
        if tree.here.isPrefixOf location then
          some (location.drop tree.here.length, content)
        else
          none

/-- Puts a node at a location in place of what is there. -/
def put (tree : FileTree) (location : Location) (node : Node) : FileTree :=
  { tree with nodes := (location, node) :: tree.nodes.filter fun entry => entry.1 != location }

/-- Makes all directories on the way to a location that are not there yet.  The
first argument is the location already reached. -/
def makeWay (tree : FileTree) (reached : Location) : Location → FileTree
  | [] => tree
  | name :: names =>
      let next := reached ++ [name]
      let tree := if (tree.node? next).isSome then tree else tree.put next .directory
      tree.makeWay next names

/-- A tree with nothing in it but the directory where the program works. -/
def empty (here : Location) : FileTree :=
  FileTree.makeWay ⟨[], here⟩ [] here

/-- Puts a node into a tree, with the directories it needs.  Its location is
seen from where the program works. -/
def create (tree : FileTree) (location : Location) (node : Node) : FileTree :=
  if location.isEmpty then tree
  else
    (tree.makeWay tree.here location.dropLast).put (tree.here ++ location) node

/-- What a path leads to. -/
inductive Target where
  | directory
  | file (location : Location) (content : ByteArray)
  /-- Nothing, in a directory where a file could be made. -/
  | vacant (location : Location)

/-- Whether a name leads to no file: a directory itself or the one above it. -/
def isStep (name : String) : Bool :=
  name == "" || name == "." || name == ".."

/-- One step of a walk, to the directory of the given name. -/
def enter (tree : FileTree) (location : Location) (name : String) : Except Fault Location :=
  if name == "" || name == "." then .ok location
  else if name == ".." then .ok location.dropLast
  else
    match tree.node? (location ++ [name]) with
    | some .directory => .ok (location ++ [name])
    | some (.file _) => .error .notADirectory
    | none => .error .notFound

/-- The names that a walk along a path goes through: slashes at the end are left
out. -/
def steps (path : Path) : List String :=
  (path.names.reverse.dropWhile (· == "")).reverse

/-- What a path leads to. -/
def find (tree : FileTree) (path : Path) : Except Fault Target :=
  match (steps path).getLast? with
  | none => if path.isAbsolute then .ok .directory else .error .notFound
  | some last => do
      let start := if path.isAbsolute then [] else tree.here
      let location ← (steps path).dropLast.foldlM tree.enter start
      if isStep last then .ok .directory
      else
        match tree.node? (location ++ [last]) with
        | some .directory => .ok .directory
        | some (.file content) => .ok (.file (location ++ [last]) content)
        | none => .ok (.vacant (location ++ [last]))

/-- The content of the file that a path leads to. -/
def read (tree : FileTree) (path : Path) : Except Fault ByteArray := do
  match ← tree.find path with
  | .directory => .error .isADirectory
  | .file _ content => if path.endsInSlash then .error .notADirectory else .ok content
  | .vacant _ => .error .notFound

/-- The tree after a file has been written. -/
def write (tree : FileTree) (path : Path) (content : ByteArray) : Except Fault FileTree := do
  match ← tree.find path with
  | .directory => .error .isADirectory
  | .file location _ => writeAt location
  | .vacant location => writeAt location
where
  writeAt (location : Location) : Except Fault FileTree :=
    if path.endsInSlash then .error .isADirectory
    else .ok (tree.put location (.file content))

@[simp]
theorem node?_put_self (tree : FileTree) {location : Location} (nonempty : location ≠ [])
    (node : Node) : (tree.put location node).node? location = some node := by
  cases location with
  | nil => exact absurd rfl nonempty
  | cons name names => simp [node?, put]

/-- Putting a node somewhere changes nothing elsewhere. -/
theorem node?_put_of_ne (tree : FileTree) {location other : Location}
    (different : other ≠ location) (node : Node) :
    (tree.put location node).node? other = tree.node? other := by
  cases other with
  | nil => rfl
  | cons name names =>
      simp only [node?, put, List.lookup_cons]
      split
      next equal => exact absurd (eq_of_beq equal) different
      next =>
        induction tree.nodes with
        | nil => rfl
        | cons entry entries ih =>
            rcases entry with ⟨location', node'⟩
            by_cases same : location' = location
            · subst location'
              simp [List.lookup_cons, beq_false_of_ne different, ih]
            · simp [List.lookup_cons, same, ih]

end FileTree

end HtmlMinifier
