import Avroc.Command.Run

/-!
# The command line

Reads the files that a run can reach, runs the program on them, and puts what it changed in place.
-/

namespace Avroc

/-- The file or directory at a path of the machine, with everything below it. -/
partial def loadNode (path : String) : IO Node := do
  let place ← IO.FS.realPath path
  let info ← place.metadata
  let time := info.modified.sec * 1000000000 + info.modified.nsec.toNat
  if ← place.isDir then
    let entries ← (← place.readDir).toList.mapM fun entry => do
      return (entry.fileName, ← loadNode (path ++ "/" ++ entry.fileName))
    return .directory entries time
  else
    let bytes ← IO.FS.readBinFile path
    return .file (.ofBytes bytes.toList) time

/-- The disk with what the machine has at a path, unless it is there already. -/
def loadPath (disk : Disk) (path : Path) : IO Disk := do
  if disk.contains path then return disk
  let resolved := disk.resolve path
  try
    let node ← loadNode resolved.text
    let above := (disk.makeDirectories resolved.parent).toOption.getD disk
    return { above with root := Node.set above.now node above.root resolved.parts }
  catch _ => return disk

/-- Makes the machine's files below a path those of `after`, given that they are those of
`before`. -/
partial def saveNode (path : String) (before after : Option Node) : IO Unit := do
  match before, after with
  | some (.directory ..), none => IO.FS.removeDirAll path
  | some (.file ..), none => IO.FS.removeFile path
  | none, none => return
  | before, some (.file content _) =>
    let old := match before with
      | some (.file content _) => some content
      | _ => none
    unless old == some content do
      IO.FS.writeBinFile path ⟨content.toBytes.toArray⟩
  | before, some (.directory entries _) =>
    let old := (before.map Node.entries).getD []
    unless (before.map Node.isDirectory).getD false do IO.FS.createDirAll path
    for name in (old.map (·.1) ++ entries.map (·.1)).eraseDups do
      saveNode (path ++ "/" ++ name) (old.lookup name) (entries.lookup name)

/-- The variables that settings can come from. -/
def readEnvironment : IO Environment := do
  let found ← settingNames.mapM fun setting => do
    let name := String.ofList (("avrogen_" ++ setting).toList.map Char.toUpper)
    return (← IO.getEnv name).map (name, ·)
  return found.filterMap id

/-- The disk with everything that a command line is about. -/
def loadDisk (line : List String) (env : Environment) : IO Disk := do
  let working := Path.ofString (← IO.currentDir).toString
  let empty : Disk := ⟨.directory [] 0, working.parts, 0, []⟩
  let disk ← loadPath empty working
  match readArguments line with
  | .error _ => return disk
  | .ok a =>
    let disk ← a.config.toList.foldlM loadPath disk
    match a.settings disk env with
    | .error _ => return disk
    | .ok s => (s.sourceDirs ++ [s.outputDir, s.cacheDir]).foldlM loadPath disk

/-- Prints what a run printed and logged; its status. -/
def announce (o : Outcome) : IO UInt32 := do
  for line in o.log do
    IO.eprintln line
  IO.eprint o.stderr
  IO.print o.stdout
  match o.ending with
  | .exit status => return status.toUInt32
  | .failure e =>
    IO.eprintln e.message
    return 1
  | .noSettings fault =>
    IO.eprintln fault.message
    return 1

end Avroc

open Avroc in
/-- The program. -/
def main (line : List String) : IO UInt32 := do
  let env ← readEnvironment
  let disk ← loadDisk line env
  let (outcome, after) := runCommand line env (.onDisk disk)
  saveNode "" (some disk.root) (some after.disk.root)
  announce outcome
