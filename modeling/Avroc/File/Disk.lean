import Avroc.Error.Basic
import Avroc.File.Node
import Avroc.Text.Lines

/-!
# Disks

A file tree with a working directory and a clock.  Paths are followed part by part: every part
but the last has to name a directory, and a double dot leads to the parent.

* `Disk.writeFile`, `Disk.makeDirectories`, `Disk.removeFile`, `Disk.removeTree`,
  `Disk.setTime` : changes.
-/

namespace Avroc

/-- A disk. -/
structure Disk where
  root : Node
  /-- The parts of the working directory. -/
  working : List String
  /-- The time that changes get. -/
  now : Int
  /-- The places of the directories that one may go through but not list. -/
  unlisted : List (List String)
deriving Inhabited

namespace Disk

/-- The disk with an empty working directory. -/
def withWorking (working : List String) (now : Int) : Disk :=
  ⟨working.foldr (fun name node => .directory [(name, node)] now) (.directory [] now), working,
    now, []⟩

/-- Follows names from a directory.  A step may only start in a directory. -/
def follow (root : Node) : List String → List String → Except DiskProblem (List String)
  | here, [] => .ok here
  | here, part :: rest =>
    match root.at? here with
    | some (.directory entries _) =>
      if part = ".." then follow root here.dropLast rest
      else if (entries.lookup part).isSome then follow root (here ++ [part]) rest
      else .error .missing
    | _ => .error .notDirectory

/-- The directory that a path starts from. -/
def start (d : Disk) (path : Path) : List String :=
  if path.isAbsolute then [] else d.working

/-- The place of a file or directory that is there. -/
def locate (d : Disk) (path : Path) : Except DiskProblem (List String) :=
  follow d.root (d.start path) path.parts

/-- The file or directory at a path. -/
def node (d : Disk) (path : Path) : Except DiskProblem Node := do
  let place ← d.locate path
  match d.root.at? place with
  | some node => .ok node
  | none => .error .missing

def contains (d : Disk) (path : Path) : Bool :=
  match d.node path with
  | .ok _ => true
  | .error _ => false

def isDirectory (d : Disk) (path : Path) : Bool :=
  match d.node path with
  | .ok node => node.isDirectory
  | .error _ => false

def isFile (d : Disk) (path : Path) : Bool :=
  match d.node path with
  | .ok node => !node.isDirectory
  | .error _ => false

def readContent (d : Disk) (path : Path) : Except DiskFault Content :=
  match d.node path with
  | .ok (.file content _) => .ok content
  | .ok (.directory ..) => .error (.at .isDirectory path.text)
  | .error problem => .error (.at problem path.text)

/-- The text of the file at a path, as it stands. -/
def readExact (d : Disk) (path : Path) : Except ReadFault String :=
  match d.readContent path with
  | .error fault => .error (.disk fault)
  | .ok content =>
    match content.toText with
    | .ok s => .ok s
    | .error fault => .error (.encoding fault)

/-- The text of the file at a path, with one spelling of the end of a line. -/
def readText (d : Disk) (path : Path) : Except ReadFault String :=
  (d.readExact path).map fun s => String.ofList (Text.unifyNewlines s.toList)

/-- The text of a source file. -/
def readSource (d : Disk) (path : Path) : Except Error String :=
  match d.readText path with
  | .ok s => .ok s
  | .error cause => .error (.file (.unreadableSource cause) (some path))

/-- The place of a new entry: an existing directory and a name. -/
def place (d : Disk) (path : Path) : Except DiskProblem (List String) := do
  match path.parts.getLast? with
  | none => d.locate path
  | some ".." => d.locate path
  | some name =>
    let parent ← d.locate path.parent
    match d.root.at? parent with
    | some (.directory ..) => .ok (parent ++ [name])
    | _ => .error .notDirectory

/-- Puts a file with the given content at a path. -/
def writeFile (d : Disk) (path : Path) (content : Content) : Except DiskFault Disk :=
  match d.place path with
  | .error problem => .error (.at problem path.text)
  | .ok place =>
    match d.root.at? place with
    | some (.directory ..) => .error (.at .isDirectory path.text)
    | _ => .ok { d with root := Node.set d.now (.file content d.now) d.root place }

/-- What is in the directory of a path. -/
def beside (d : Disk) (path : Path) : List (String × Node) :=
  match d.node path.parent with
  | .ok node => node.entries
  | .error _ => []

/-- The path of a new file next to the one at a path: its name is longer than any other. -/
def stagingPath (d : Disk) (path : Path) : Path :=
  let width := ((d.beside path).map (·.1.length)).foldl max path.name.length
  let tag := String.ofList (List.replicate width '_')
  path.parent.join ⟨"", ["." ++ path.stem ++ "." ++ tag ++ ".tmp"]⟩

/-- Moves what is at a path to another, in place of a file that is there. -/
def moveFile (d : Disk) (source target : Path) : Except DiskFault Disk :=
  let fault (problem : DiskProblem) : DiskFault :=
    ⟨problem, Text.quote source.text ++ " -> " ++ Text.quote target.text⟩
  match d.locate source with
  | .error problem => .error (fault problem)
  | .ok old =>
    match d.place target with
    | .error problem => .error (fault problem)
    | .ok new =>
      match d.root.at? new with
      | some (.directory ..) => .error (fault .isDirectory)
      | _ =>
        match d.root.at? old with
        | none => .error (fault .missing)
        | some node => .ok { d with root := Node.set d.now node (d.root.erase d.now old) new }

/-- Makes a directory at a path where there is nothing. -/
def makeDirectory (d : Disk) (path : Path) : Except DiskProblem Disk := do
  let place ← d.place path
  match d.root.at? place with
  | some _ => .error .taken
  | none => .ok { d with root := Node.set d.now (.directory [] d.now) d.root place }

/-- Makes a directory and those above it that are missing; `levels` bounds how many. -/
def makeDirectoriesIn (path : Path) : Nat → Disk → Except DiskFault Disk
  | levels, d =>
    match d.makeDirectory path with
    | .ok d => .ok d
    | .error .missing =>
      match levels with
      | 0 => .error (.at .missing path.text)
      | levels + 1 => do
        let d ← makeDirectoriesIn path.parent levels d
        match d.makeDirectory path with
        | .ok d => .ok d
        | .error problem =>
          if d.isDirectory path then .ok d else .error (.at problem path.text)
    | .error problem => if d.isDirectory path then .ok d else .error (.at problem path.text)

/-- Makes sure that there is a directory at a path, with those above it. -/
def makeDirectories (d : Disk) (path : Path) : Except DiskFault Disk :=
  makeDirectoriesIn path path.parts.length d

def removeFile (d : Disk) (path : Path) : Except DiskFault Disk :=
  match d.locate path with
  | .error problem => .error (.at problem path.text)
  | .ok place =>
    match d.root.at? place with
    | some (.directory ..) => .error (.at .isDirectory path.text)
    | _ => .ok { d with root := d.root.erase d.now place }

/-- Removes whatever is at a path. -/
def removeTree (d : Disk) (path : Path) : Except DiskFault Disk :=
  match d.locate path with
  | .error problem => .error (.at problem path.text)
  | .ok place => .ok { d with root := d.root.erase d.now place }

def setTime (d : Disk) (path : Path) (time : Int) : Except DiskFault Disk :=
  match d.locate path with
  | .error problem => .error (.at problem path.text)
  | .ok place =>
    match d.root.at? place with
    | some node => .ok { d with root := Node.set d.now (node.withTime time) d.root place }
    | none => .error (.at .missing path.text)

def fileCount (d : Disk) : Nat :=
  d.root.filePlaces.length

/-- The absolute path that a path stands for. -/
def resolve (d : Disk) (path : Path) : Path :=
  path.resolve d.working

def workingPath (d : Disk) : Path :=
  ⟨"/", d.working⟩

end Disk

end Avroc
