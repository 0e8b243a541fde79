import HtmlMinifier.World

/-!
# A run writes to one place or to none

A run reads one document and writes one.  What it writes goes to standard output as a
whole or into one file as a whole, and only when all of it has been read and minified.  A
run that fails has written nothing.  It names the path that it failed at in the way it was
given, and not as it is seen from the root.

Reading back what has been written is a matter of the tree: writing a file leaves all
directories on the way to it as they were, so the same path leads to the file again.
-/

namespace HtmlMinifier

/-! ## Writing into a tree -/

namespace FileTree

variable {tree : FileTree}

/-- The location of the file that a path leads to, or could lead to if it were made. -/
def place? (tree : FileTree) (path : Path) : Option Location :=
  match tree.find path with
  | .ok (.file location _) => some location
  | .ok (.vacant location) => some location
  | .ok .directory => none
  | .error _ => none

/-- `Wrote before after path content` says that the trees differ in one file, to which the
path leads and which has the content afterwards. -/
structure Wrote (before after : FileTree) (path : Path) (content : ByteArray) : Prop where
  /-- What has been written is read back. -/
  read_eq : after.read path = .ok content
  /-- All other files and directories are as they were. -/
  exists_place : ∃ location, before.place? path = some location ∧
    after.place? path = some location ∧ after.file? location = some content ∧
      ∀ other, other ≠ location → after.node? other = before.node? other
  here_eq : after.here = before.here

/-- A step of a walk is the same when something that is no directory is replaced. -/
theorem enter_put {location reached next : Location} {name : String} (node : Node)
    (plain : tree.node? location ≠ some .directory)
    (entered : tree.enter reached name = .ok next) :
    (tree.put location node).enter reached name = .ok next := by
  unfold enter at entered ⊢
  split at entered
  next stays => rwa [if_pos stays]
  next moves =>
    rw [if_neg moves]
    split at entered
    next up => rwa [if_pos up]
    next down =>
      rw [if_neg down]
      split at entered
      next found =>
        have other : reached ++ [name] ≠ location := by
          rintro rfl
          exact plain found
        rw [node?_put_of_ne tree other, found]
        exact entered
      next => contradiction
      next => contradiction

/-- So is the whole walk. -/
theorem foldlM_enter_put {location start reached : Location} {names : List String} (node : Node)
    (plain : tree.node? location ≠ some .directory)
    (walked : names.foldlM tree.enter start = .ok reached) :
    names.foldlM (tree.put location node).enter start = .ok reached := by
  induction names generalizing start with
  | nil => exact walked
  | cons name names ih =>
      rw [List.foldlM_cons] at walked ⊢
      cases entered : tree.enter start name with
      | error fault =>
          rw [entered] at walked
          contradiction
      | ok next =>
          rw [entered] at walked
          rw [enter_put node plain entered]
          exact ih walked

/-- `Leads tree path location` says that a walk along the path ends in the directory of the
location, and that the last name of the path is the one it has there. -/
def Leads (tree : FileTree) (path : Path) (location : Location) : Prop :=
  ∃ last reached, (steps path).getLast? = some last ∧ isStep last = false ∧
    (steps path).dropLast.foldlM tree.enter (if path.isAbsolute then [] else tree.here) =
      .ok reached ∧
    location = reached ++ [last]

/-- What is found at the end of a walk is what is there. -/
theorem Leads.find_eq {path : Path} {location : Location} (leads : tree.Leads path location) :
    tree.find path =
      .ok (match tree.node? location with
        | some .directory => .directory
        | some (.file content) => .file location content
        | none => .vacant location) := by
  obtain ⟨last, reached, lastEq, noStep, walked, rfl⟩ := leads
  simp only [find, lastEq, walked, noStep, bind, Except.bind, Bool.false_eq_true, if_false]
  cases tree.node? (reached ++ [last]) with
  | none => rfl
  | some node => cases node <;> rfl

/-- A path with a place leads there, and no directory stands there. -/
theorem leads_of_place {path : Path} {location : Location}
    (placed : tree.place? path = some location) :
    tree.Leads path location ∧ tree.node? location ≠ some .directory := by
  unfold place? find at placed
  cases lastEq : (steps path).getLast? with
  | none => cases absolute : path.isAbsolute <;> simp [lastEq, absolute] at placed
  | some last =>
      simp only [lastEq, bind, Except.bind] at placed
      cases walked : (steps path).dropLast.foldlM tree.enter
          (if path.isAbsolute then [] else tree.here) with
      | error fault => simp [walked] at placed
      | ok reached =>
          cases noStep : isStep last with
          | true => simp [walked, noStep] at placed
          | false =>
              have placed' : location = reached ++ [last] ∧
                  tree.node? (reached ++ [last]) ≠ some .directory := by
                cases found : tree.node? (reached ++ [last]) with
                | none => simp_all
                | some node => cases node <;> simp_all
              obtain ⟨rfl, plain⟩ := placed'
              exact ⟨⟨last, reached, lastEq, noStep, walked, rfl⟩, plain⟩

/-- A path that leads somewhere still leads there when the file there is replaced or made. -/
theorem Leads.put {path : Path} {location : Location} (leads : tree.Leads path location)
    (plain : tree.node? location ≠ some .directory) (node : Node) :
    (tree.put location node).Leads path location := by
  obtain ⟨last, reached, lastEq, noStep, walked, locationEq⟩ := leads
  exact ⟨last, reached, lastEq, noStep, foldlM_enter_put node plain walked, locationEq⟩

/-- A place is never the top of the tree. -/
theorem Leads.ne_nil {path : Path} {location : Location} (leads : tree.Leads path location) :
    location ≠ [] := by
  obtain ⟨last, reached, -, -, -, rfl⟩ := leads
  simp

/-- A written tree is the old one with a file put at the place of the path. -/
theorem exists_place_of_write {path : Path} {content : ByteArray} {after : FileTree}
    (written : tree.write path content = .ok after) :
    ∃ location, tree.place? path = some location ∧ path.endsInSlash = false ∧
      after = tree.put location (.file content) := by
  unfold write write.writeAt at written
  unfold place?
  cases found : tree.find path with
  | error fault => simp [found, bind, Except.bind] at written
  | ok target =>
      cases target with
      | directory => simp [found, bind, Except.bind] at written
      | file location _ | vacant location =>
          simp only [found, bind, Except.bind] at written
          split at written
          next => contradiction
          next noSlash =>
            cases written
            exact ⟨location, rfl, by simpa using noSlash, rfl⟩

/-- Writing puts a file at the place of its path and changes nothing else. -/
theorem wrote_of_write {path : Path} {content : ByteArray} {after : FileTree}
    (written : tree.write path content = .ok after) : tree.Wrote after path content := by
  obtain ⟨location, placed, noSlash, rfl⟩ := exists_place_of_write written
  obtain ⟨leads, plain⟩ := leads_of_place placed
  have here := node?_put_self tree leads.ne_nil (.file content)
  have found : (tree.put location (.file content)).find path = .ok (.file location content) := by
    rw [(leads.put plain _).find_eq, here]
  refine ⟨?_, ⟨location, placed, ?_, ?_, fun other different => ?_⟩, rfl⟩
  · simp [read, found, noSlash, bind, Except.bind]
  · simp [place?, found]
  · simp [file?, here]
  · exact node?_put_of_ne tree different _

end FileTree

/-! ## What a run reads and writes -/

namespace World

variable (world : World)

theorem writeOutput_run (text : String) (listening : world.listening = true) :
    (writeOutput text).run world = (.ok (), { world with output := world.output ++ text }) := by
  simp [writeOutput, listening]
  rfl

theorem writeFile_run (path : Path) (text : String) :
    (writeFile path text).run world =
      match world.tree.write path text.toUTF8 with
      | .ok tree => (.ok (), { world with tree := tree })
      | .error fault => (.error fault, world) := by
  simp only [writeFile, StateT.run_bind, StateT.run_get, pure_bind]
  cases world.tree.write path text.toUTF8 <;> rfl

end World

namespace Run

/-- The text of bytes is written by the same bytes. -/
theorem toUTF8_of_decode {bytes : ByteArray} {text : String} (decoded : decode bytes = .ok text) :
    text.toUTF8 = bytes := by
  unfold decode at decoded
  split at decoded
  next text' valid =>
    cases decoded
    unfold String.fromUTF8? at valid
    split at valid
    · cases valid
      rfl
    · contradiction
  next => contradiction

/-- The bytes at a path: what waits on standard input, or the file that the path leads to as
seen from the root. -/
def bytesAt (tree : FileTree) (input : ByteArray) (root : Option Path) (path : Path) :
    Except Fault ByteArray :=
  if path = Path.standard then .ok input else tree.read (Path.resolve root path)

/-- A failed action becomes a failure at its path, and nothing else happens. -/
theorem attempt_run {β : Type} (path : Path) (action : StateM World (Except Fault β))
    (world : World) :
    (attempt path action).run.run world =
      ((action.run world).1.mapError (.access path), (action.run world).2) := by
  simp only [attempt, ExceptT.run_mk, StateT.run_bind]
  rcases action.run world with ⟨_ | _, world'⟩ <;> rfl

/-- What a run in a world reads.  Only what waits on standard input can change by it. -/
theorem read_run (world : World) (root : Option Path) (path : Path) :
    ∃ input, (read World.host root path).run.run world =
      (((bytesAt world.tree world.input root path).bind decode).mapError (.access path),
        { world with input := input }) := by
  unfold read bytesAt
  by_cases standard : path = Path.standard
  · refine ⟨ByteArray.empty, ?_⟩
    rw [attempt_run, if_pos standard, if_pos standard]
    rfl
  · refine ⟨world.input, ?_⟩
    rw [attempt_run, if_neg standard, if_neg standard]
    rfl

/-- Reports change nothing but what has been reported. -/
theorem report_run (world : World) (threshold : Threshold) (events : List Event) :
    ∃ reports, (report World.host threshold events).run world =
      ((), { world with reports := reports }) := by
  unfold report
  induction events.filter _ generalizing world with
  | nil => exact ⟨world.reports, rfl⟩
  | cons event events ih => exact ih { world with reports := world.reports.push event.line }

/-- What a run in a world writes: to standard output, to which somebody listens, or to a file. -/
theorem write_run (world : World) (listening : world.listening = true) (root : Option Path)
    (path : Path) (document : String) :
    (write World.host root path document).run.run world =
      if path = Path.standard then
        (.ok (), { world with output := world.output ++ document })
      else
        match world.tree.write (Path.resolve root path) document.toUTF8 with
        | .ok tree => (.ok (), { world with tree := tree })
        | .error fault => (.error (.access path fault), world) := by
  unfold write
  by_cases standard : path = Path.standard
  · simp only [attempt_run, if_pos standard, World.host,
      world.writeOutput_run document listening]
    rfl
  · simp only [attempt_run, if_neg standard, World.host, world.writeFile_run]
    cases world.tree.write (Path.resolve root path) document.toUTF8 <;> rfl

/-- A step of a run and what comes after it, which is nothing if the step fails. -/
theorem bind_run {β γ : Type} (first : ExceptT Failure (StateM World) β)
    (next : β → ExceptT Failure (StateM World) γ) (world : World) :
    (first >>= next).run.run world =
      match first.run.run world with
      | (.ok result, world') => (next result).run.run world'
      | (.error failure, world') => (.error failure, world') := by
  simp only [ExceptT.run_bind, StateT.run_bind]
  rcases first.run.run world with ⟨_ | _, world'⟩ <;> rfl

/-- What a run does once it has read its document: it reports and writes. -/
theorem perform_run (seed : UInt64) (threshold : Threshold) (root : Option Path)
    (settings : Settings) (world : World) :
    ∃ input reports, (perform World.host seed threshold root settings).run.run world =
      match (bytesAt world.tree world.input root settings.input).bind decode with
      | .ok document =>
          (write World.host root settings.target (minifySeeded seed document)).run.run
            { world with input := input, reports := reports }
      | .error fault => (.error (.access settings.input fault), { world with input := input }) := by
  obtain ⟨input, readRun⟩ := read_run world root settings.input
  unfold perform
  rw [bind_run, readRun]
  cases (bytesAt world.tree world.input root settings.input).bind decode with
  | error fault => exact ⟨input, world.reports, rfl⟩
  | ok document =>
      obtain ⟨reports, reportRun⟩ := report_run { world with input := input } threshold
        ((Minification.of (sigilFor seed document) document).events document ++
          [.finished settings.input document.utf8ByteSize
            (Minification.of (sigilFor seed document) document).output.utf8ByteSize])
      refine ⟨input, reports, ?_⟩
      have ran : (Except.ok document : Except Fault String).mapError
          (Failure.access settings.input) = .ok document := rfl
      simp only [ran, bind_run, ExceptT.run_lift, StateT.run_map, reportRun]
      simp only [Minification.output_of]
      rfl

/-- A run with working standard input and output writes to one sink or to none.  If it
succeeds, it has read text, and its minified text is all of standard output, with no file
changed, or all of the file that the target leads to, with nothing on standard output and no
other file changed.  If it fails, then no file has changed and nothing is on standard output,
and the failure is at the path that could not be read or written, as it was given. -/
theorem perform_writes_one_sink (seed : UInt64) (threshold : Threshold) (root : Option Path)
    (settings : Settings) (tree : FileTree) (input : ByteArray) :
    match (perform World.host seed threshold root settings).run.run
      (World.start tree input true) with
    | (.ok (), world) =>
        ∃ document, bytesAt tree input root settings.input = .ok document.toUTF8 ∧
          if settings.target = Path.standard then
            world.output = minifySeeded seed document ∧ world.tree = tree
          else
            world.output = "" ∧
              tree.Wrote world.tree (Path.resolve root settings.target)
                (minifySeeded seed document).toUTF8
    | (.error failure, world) =>
        world.tree = tree ∧ world.output = "" ∧
          ((∃ fault, (bytesAt tree input root settings.input).bind decode = .error fault ∧
              failure = .access settings.input fault) ∨
            ∃ document fault, bytesAt tree input root settings.input = .ok document.toUTF8 ∧
              settings.target ≠ Path.standard ∧
              tree.write (Path.resolve root settings.target)
                (minifySeeded seed document).toUTF8 = .error fault ∧
              failure = .access settings.target fault) := by
  obtain ⟨input', reports, ran⟩ :=
    perform_run seed threshold root settings (World.start tree input true)
  simp only [World.start] at ran ⊢
  rw [ran]
  cases source : (bytesAt tree input root settings.input).bind decode with
  | error fault => exact ⟨rfl, rfl, .inl ⟨fault, rfl, rfl⟩⟩
  | ok document =>
      have bytes : bytesAt tree input root settings.input = .ok document.toUTF8 := by
        cases found : bytesAt tree input root settings.input with
        | error fault => simp [found, Except.bind] at source
        | ok bytes => rw [toUTF8_of_decode (by simpa [found, Except.bind] using source)]
      simp only [write_run]
      by_cases standard : settings.target = Path.standard
      · simp only [if_pos standard]
        exact ⟨document, bytes, by simp⟩
      · simp only [if_neg standard]
        cases written : tree.write (Path.resolve root settings.target)
            (minifySeeded seed document).toUTF8 with
        | error fault => exact ⟨rfl, rfl, .inr ⟨document, fault, bytes, standard, written, rfl⟩⟩
        | ok after => exact ⟨document, bytes, rfl, FileTree.wrote_of_write written⟩

end Run

end HtmlMinifier
