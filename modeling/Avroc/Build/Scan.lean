import Avroc.Build.Format
import Avroc.Build.World

/-!
# Scans

Finding files below a directory: first the files of the directory in the order of their names,
then those of its subdirectories in the order of theirs.  The order in which a directory lists
its entries does not matter.  A directory that cannot be listed is skipped.

* `findOutputs` : the modules below a directory.
-/

namespace Avroc

/-- Why a directory that is there cannot be listed. -/
inductive Bar
  | tooLong
  | denied
deriving DecidableEq, Repr, Inhabited

def Bar.message : Bar → String → String
  | tooLong, path => "[Errno 36] File name too long: " ++ Text.quote path
  | denied, path => "[Errno 13] Permission denied: " ++ Text.quote path

/-- What a walk meets: the files, and the directories that it skips, each as the names that lead
there. -/
structure Walk where
  files : List (List String)
  skipped : List (List String × Bar)

/-- An entry of a directory in a listing: its name, and the walk below it if it is a directory. -/
abbrev Listed := String × Option Walk

namespace Node

def byName (entries : List Listed) : List Listed :=
  entries.mergeSort fun a b => a.1 ≤ b.1

/-- The files of a directory, and then the files below its subdirectories. -/
def arrange (entries : List Listed) : Walk :=
  let ordered := byName entries
  { files := (ordered.filter (·.2.isNone)).map (fun (name, _) => [name]) ++
      ordered.flatMap fun (name, below) => (below.elim [] (·.files)).map (name :: ·)
    skipped := ordered.flatMap fun (name, below) =>
      (below.elim [] (·.skipped)).map fun (parts, bar) => (name :: parts, bar) }

mutual

/-- The walk below a node, where `bar?` tells why a directory cannot be listed. -/
def walk (bar? : List String → Option Bar) : Node → Walk
  | directory entries _ =>
    match bar? [] with
    | some bar => ⟨[], [([], bar)]⟩
    | none => arrange (listed bar? entries)
  | _ => ⟨[], []⟩
termination_by structural node => node

/-- The entries of a directory, with the walk below each. -/
def listed (bar? : List String → Option Bar) : List (String × Node) → List Listed
  | [] => []
  | (name, node) :: rest =>
    (name, if node.isDirectory then some (walk (fun parts => bar? (name :: parts)) node) else none)
      :: listed bar? rest
termination_by structural entries => entries

end

end Node

namespace Disk

/-- The longest path that can be opened, in bytes. -/
def pathLimit : Nat := 4095

/-- The text of the path that names lead to from a directory. -/
def textBelow (root : String) (parts : List String) : String :=
  parts.foldl (fun text name =>
    if text.toList.getLast? = some '/' then text ++ name else text ++ "/" ++ name) root

/-- Why the directory that names lead to cannot be listed: its path is too long, or the system does
not allow it. -/
def bar? (d : Disk) (root : String) (place parts : List String) : Option Bar :=
  if pathLimit < (textBelow root parts).utf8ByteSize then some .tooLong
  else if d.unlisted.contains (place ++ parts) then some .denied
  else none

/-- The walk below the directory that a text names; the empty text names none. -/
def walkBelow (d : Disk) (root : String) : Except DiskFault Walk :=
  if root = "" then .error (.at .missing root)
  else match d.locate (.ofString root) with
    | .error problem => .error (.at problem root)
    | .ok place =>
      match d.root.at? place with
      | some (.directory entries time) =>
        .ok ((Node.directory entries time).walk (d.bar? root place))
      | _ => .error (.at .notDirectory root)

/-- The files below the directory that a text names. -/
def filesBelow (d : Disk) (root : String) : Except DiskFault (List Path) :=
  let path := Path.ofString root
  (d.walkBelow root).map fun walk =>
    walk.files.map fun parts => ⟨path.root, path.parts ++ parts⟩

/-- What a walk reports: each directory that it skips. -/
def skippedBelow (d : Disk) (root : String) : List String :=
  match d.walkBelow root with
  | .ok walk => walk.skipped.map fun (parts, bar) => bar.message (textBelow root parts)
  | .error fault => [fault.message]

end Disk

/-- Reports the directories that are skipped. -/
def reportSkipped : List String → Build Unit
  | [] => pure ()
  | message :: rest => do
    report .scanner .debug ("Skipping unreadable directory: " ++ message)
    reportSkipped rest

/-- The files below a directory that have one of the extensions; a directory that cannot be read
has none. -/
def findFiles (root : String) (extensions : List String) : Build (List Path) := do
  let disk ← currentDisk
  reportSkipped (disk.skippedBelow root)
  match disk.filesBelow root with
  | .ok paths => return paths.filter fun path => extensions.contains path.suffix
  | .error _ => return []

/-- The sources below a directory, for each form in the order of compilation. -/
def scanSources (root : String) : Build (List (SourceFormat × List SourceInput)) := do
  let paths ← findFiles root (SourceFormat.all.map (·.extension))
  let sources := paths.filterMap fun path =>
    (SourceFormat.ofPath? path).map fun format => (⟨path, format⟩ : SourceInput)
  return SourceFormat.all.map fun format => (format, sources.filter (·.format = format))

/-- All sources below a directory, form by form. -/
def findInputs (root : String) : Build (List Path) := do
  return (← scanSources root).flatMap fun (_, sources) => sources.map (·.path)

def findOutputs (target : String) : Build (List Path) :=
  findFiles target [".py"]

end Avroc
