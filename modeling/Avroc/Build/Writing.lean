import Avroc.Build.World
import Avroc.Module.Source

/-!
# Writing modules

* `replaceFile` : puts a text in the place of a file.  It is written next to the file and then moved
  over it, so that no reader meets a part of it.  `Disk.replaceFile` tells of no more than the
  result.
* `writeModules` : puts generated modules below a directory.  A file whose text is already right
  is left alone; any other is replaced as a whole.
-/

namespace Avroc

/-! ### Faults of the system -/

/-- The steps of a replacement at which the system may fail, whatever the tree is. -/
inductive Stage
  | staging
  | writing
  | granting
  | moving
  | clearing
deriving DecidableEq, Repr, Inhabited

/-- The faults of the system during a replacement, and how much of a text is written when writing
fails. -/
structure Weather where
  fault? : Stage → Option DiskFault
  part : String → String

namespace Weather

/-- The system does not fail. -/
def calm : Weather :=
  ⟨fun _ => none, id⟩

def pass (weather : Weather) (stage : Stage) : Build Unit :=
  match weather.fault? stage with
  | some fault => throw (.disk fault)
  | none => pure ()

/-- What is written of a text. -/
def reach (weather : Weather) (content : String) : String :=
  if (weather.fault? .writing).isSome then weather.part content else content

end Weather

/-! ### Replacing a file -/

/-- A disk on which a file is replaced in one step, in a directory that is made if need be. -/
def Disk.replaceFile (d : Disk) (path : Path) (content : String) : Except DiskFault Disk := do
  let d ← d.makeDirectories path.parent
  let d ← d.writeFile path (.text content)
  d.setTime path.parent d.now

/-- Writes a text next to the file at a path, in a directory that is made if need be. -/
def stageFile (weather : Weather) (path : Path) (content : String) : Build Path := do
  changeDisk (·.makeDirectories path.parent)
  weather.pass .staging
  let staging := (← currentDisk).stagingPath path
  changeDisk (·.writeFile staging (.text (weather.reach content)))
  weather.pass .writing
  return staging

/-- Moves a staged text over the file that it replaces. -/
def settleFile (weather : Weather) (staging path : Path) : Build Unit := do
  weather.pass .granting
  weather.pass .moving
  changeDisk (·.moveFile staging path)

/-- Replaces a file as a whole.  A staged text that cannot be moved into place is removed. -/
def replaceFile (weather : Weather) (path : Path) (content : String) : Build Unit := do
  let staging ← stageFile weather path content
  tryCatch (settleFile weather staging path) fun e => do
    weather.pass .clearing
    changeDisk (·.removeFile staging)
    throw e

/-- The step, with faults of files told in another way. -/
def tellingFaults {α : Type} (tell : DiskFault → Error) (step : Build α) : Build α :=
  tryCatch step fun e =>
    match e with
    | .disk fault => throw (tell fault)
    | e => throw e

/-! ### Modules -/

/-- Whether the file at a path has to be written to hold a text. -/
def needsWriting (d : Disk) (path : Path) (content : String) : Except Error Bool :=
  if d.contains path then
    match d.readText path with
    | .ok text => .ok (text != content)
    | .error (.disk fault) => .error (.file (.unwritableModule fault) (some path))
    | .error (.encoding fault) => .error (.encoding fault)
  else .ok true

def writeModule (destination : Path) (file : SourceFile) (weather : Weather) : Build Path := do
  let target := destination.join file.path
  let disk ← currentDisk
  if ← (needsWriting disk target file.content : Except Error Bool) then
    tellingFaults (fun fault => .file (.unwritableModule fault) (some target))
      (replaceFile weather target file.content)
    report .codegen .debug ("Wrote " ++ target.text)
  return target

/-- Writes modules below a directory, one after the other, each in its weather. -/
def writeModulesIn (destination : Path) : List (SourceFile × Weather) → Build (List Path)
  | [] => pure []
  | (file, weather) :: rest => do
    let path ← writeModule destination file weather
    let paths ← writeModulesIn destination rest
    return path :: paths

/-- Writes modules below a directory, while the system does not fail. -/
def writeModules (destination : Path) (files : List SourceFile) : Build (List Path) :=
  writeModulesIn destination (files.map fun file => (file, .calm))

end Avroc
