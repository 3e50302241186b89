import Avroc.File.Disk
import Avroc.Schema.Scope

/-!
# Worlds

What a build works on: the disk, the catalog of definitions, the registry that all compilations
start from, and the log.

* `report` : a line in the log.
-/

namespace Avroc

/-- Definitions, and a registry whose names lead to them. -/
structure Snapshot where
  catalog : Catalog
  registry : Registry
deriving Inhabited

/-- The state of a build. -/
structure World where
  disk : Disk
  catalog : Catalog
  /-- The types that compilations start from. -/
  shared : Registry
  log : List LogRecord
  /-- The types that the compilation under way has come to know. -/
  learned : Snapshot
deriving Inhabited

namespace Snapshot

/-- The snapshot without types that checks everything. -/
def empty : Snapshot := ⟨.empty, .empty⟩

/-- The state of reading that starts from a snapshot. -/
def scope (s : Snapshot) : Scope := ⟨s.catalog, s.registry, []⟩

end Snapshot

/-- The definitions and the registry of a state of reading. -/
def Scope.snapshot (s : Scope) : Snapshot := ⟨s.catalog, s.registry⟩

/-- A step of a build. -/
abbrev Build := ExceptT Error (StateM World)

namespace World

/-- The state over a disk, with no types. -/
def onDisk (disk : Disk) : World :=
  ⟨disk, .empty, .empty, [], .empty⟩

end World

def report (source : LogSource) (level : LogLevel) (message : String) : Build Unit :=
  modify fun w => { w with log := w.log ++ [⟨source, level, message⟩] }

def currentDisk : Build Disk := do
  return (← get).disk

def setDisk (disk : Disk) : Build Unit :=
  modify fun w => { w with disk }

def changeDisk (change : Disk → Except DiskFault Disk) : Build Unit := do
  match change (← currentDisk) with
  | .ok disk => setDisk disk
  | .error fault => throw (.disk fault)

/-- Runs a step of reading from a snapshot; the outcome, and the snapshot after it. -/
def readFrom {α : Type} (known : Snapshot) (step : Reading α) :
    Build (Except Error α × Snapshot) := do
  let (result, scope) := step.run known.scope
  modify fun w => { w with log := w.log ++ scope.log }
  return (result, scope.snapshot)

/-- Runs a step of reading in a registry; the outcome, and the registry after it. -/
def readWith {α : Type} (r : Registry) (step : Reading α) : Build (Except Error α × Registry) := do
  let (result, known) ← readFrom ⟨(← get).catalog, r⟩ step
  modify fun w => { w with catalog := known.catalog }
  return (result, known.registry)

/-- The result of writing modules, which may meet a value of the wrong kind. -/
def orFail {α : Type} : Except Misuse α → Build α
  | .ok value => pure value
  | .error cause => throw (.misuse cause)

end Avroc
