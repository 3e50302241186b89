import Avroc.Cache.Incremental
import Avroc.Settings.Basic

/-!
# Projects

Everything that the program does with the settings of a project.
-/

namespace Avroc.Settings

/-- The source directories, each once. -/
def directories (s : Settings) : List Path :=
  s.sourceDirs.eraseDups

def cache (s : Settings) : Cache :=
  ⟨s.cacheDir, s.strategy⟩

/-- Compiles a source directory through the cache, starting from the shared types. -/
def compile (s : Settings) (source : Path) : Build (List Path) := do
  let inputs ← findInputs source.text
  s.cache.compile source inputs do
    let (result, _) ← compileDirectory s.options source s.outputDir (← get).shared
    return result

/-- How many directories are compiled at a time. -/
def workerCount (s : Settings) : Int :=
  min s.workers s.directories.length

/-- The outcome of a step, what it did staying done. -/
def attempt {α : Type} (step : Build α) : Build (Except Error α) :=
  tryCatch (step.map .ok) fun e => pure (.error e)

/-- Compiles directories one after the other, and stops at the first that fails. -/
def compileInTurn (s : Settings) : List Path → Build (List Path)
  | [] => pure []
  | source :: rest => do
    let first ← s.compile source
    return first ++ (← s.compileInTurn rest)

/-- Compiles every directory, and then fails if one of them has. -/
def compileAll (s : Settings) : List Path → Build (List Path)
  | [] => pure []
  | source :: rest => do
    let first ← attempt (s.compile source)
    let others ← attempt (s.compileAll rest)
    match first, others with
    | .error e, _ => throw e
    | .ok _, .error e => throw e
    | .ok outputs, .ok more => return outputs ++ more

/-- Compiles the source directories; the modules of all of them, in order.  Several workers do not
wait for each other, so that all directories are compiled even if one fails. -/
def generate (s : Settings) : Build (List Path) := do
  let outputs ←
    if 1 < s.workerCount then s.compileAll s.directories else s.compileInTurn s.directories
  return sortedPaths outputs

/-- The source directories, and whether each would be compiled. -/
def status (s : Settings) : Build (List (Path × Bool)) :=
  s.directories.mapM fun source => do
    let inputs ← findInputs source.text
    return (source, ← s.cache.isStale source inputs)

/-- The source directories with their sources, by form. -/
def scan (s : Settings) : Build (List (Path × List (SourceFormat × List SourceInput))) :=
  s.directories.mapM fun source => do return (source, ← scanSources source.text)

def forgetTypes : Build Unit := do
  modify fun w => { w with shared := .empty }
  report .registry .info "Type registry reset"

/-- Forgets the shared types, and removes the modules and the cache. -/
def clean (s : Settings) : Build Unit := do
  forgetTypes
  if (← currentDisk).contains s.outputDir then
    removeDirectory s.outputDir
    report .generator .info ("Removed " ++ s.outputDir.text)
  s.cache.clear

end Avroc.Settings
