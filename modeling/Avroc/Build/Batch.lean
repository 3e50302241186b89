import Avroc.Build.Format
import Avroc.Build.Writing
import Avroc.Idl.Protocol

/-!
# Batches of schemas

The schema files of a directory are compiled together.  They may use each other's types in any
order: a file that fails is tried again in the next round, as long as the last round brought
progress.  A file that fails for good is reported and leaves nothing behind.
-/

namespace Avroc

/-- The state of a batch. -/
structure Batch where
  /-- The types that are known so far. -/
  known : Snapshot
  /-- The last error of each file that is left. -/
  failures : List (Path × Error)
  written : List Path
  errors : List Error
deriving Inhabited

namespace Batch

/-- The failures with one set: a file that is there keeps its place. -/
def setFailure (path : Path) (e : Error) : List (Path × Error) → List (Path × Error)
  | [] => [(path, e)]
  | (p, old) :: rest => if p = path then (p, e) :: rest else (p, old) :: setFailure path e rest

def fail (b : Batch) (path : Path) (e : Error) : Batch :=
  { b with failures := setFailure path e b.failures }

/-- The batch after a file could be read. -/
def clear (b : Batch) (path : Path) : Batch :=
  { b with failures := b.failures.filter (·.1 ≠ path) }

end Batch

/-- The error of a schema file that does not lie where the full name of its type leads. -/
def layoutError? (sourceRoot path : Path) (fullName : String) : Option Error :=
  let expected := Text.replaceWord "." "/" fullName ++ SourceFormat.schema.extension
  let actual := (Path.relativeTo? sourceRoot path).getD path
  if actual.text = expected then none else some (.layout path expected fullName)

/-- The layout error of a type, if the options ask for the check. -/
def checkLayout (o : CompileOptions) (c : Catalog) (sourceRoot path : Path) :
    Schema → Option Error
  | .named id => if o.checksLayout then layoutError? sourceRoot path (c.fullName id) else none
  | _ => none

/-- One try at a file; whether it has to be tried again, and the batch after it. -/
def attempt (o : CompileOptions) (sourceRoot target : Path) (b : Batch) (source : SourceInput) :
    Build (Bool × Batch) := do
  let disk ← currentDisk
  let (result, scratch) ← readFrom b.known (Idl.readSchemaFile disk source.path)
  match result with
  | .error e => if e.isReported then return (true, b.fail source.path e) else throw e
  | .ok type =>
    let b := b.clear source.path
    match checkLayout o scratch.catalog sourceRoot source.path type with
    | some e =>
      report .compilers .error e.message
      return (false, { b with errors := b.errors ++ [e] })
    | none =>
      let types := scratch.registry.newTypes b.known.registry.names
      report .compilers .info ("Compiling Avro schema " ++ source.path.text)
      let written ← writeModules target (← orFail (typeModules scratch.catalog o types))
      let known : Snapshot := ⟨scratch.catalog, b.known.registry.addAll scratch.catalog types⟩
      modify fun w => { w with learned := known }
      return (false, { b with known, written := b.written ++ written })

/-- One try at each file; the files to be tried again, and the batch after it. -/
def round (o : CompileOptions) (sourceRoot target : Path) (b : Batch) :
    List SourceInput → Build (List SourceInput × Batch)
  | [] => pure ([], b)
  | source :: rest => do
    let (again, b) ← attempt o sourceRoot target b source
    let (left, b) ← round o sourceRoot target b rest
    return (if again then source :: left else left, b)

/-- Rounds over the files that are left, until none is or a round brings no progress.  Every other
round leaves fewer files, so there are at most as many rounds as files. -/
def rounds (o : CompileOptions) (sourceRoot target : Path) :
    Nat → List SourceInput → Batch → Build Batch
  | 0, _, b => pure b
  | bound + 1, pending, b => do
    if pending.isEmpty then return b
    else
      let (left, b) ← round o sourceRoot target b pending
      if left.length = pending.length then return b
      else rounds o sourceRoot target bound left b

/-- Reports the files that failed for good. -/
def reportFailures : List (Path × Error) → Build Unit
  | [] => pure ()
  | (_, e) :: rest => do
    report .compilers .error ("Failed to compile Avro schema: " ++ e.message)
    reportFailures rest

/-- Compiles schema files together, starting from the types of a snapshot. -/
def compileBatch (o : CompileOptions) (sourceRoot target : Path) (known : Snapshot)
    (files : List SourceInput) : Build Batch := do
  let b ← rounds o sourceRoot target files.length files ⟨known, [], [], []⟩
  reportFailures b.failures
  return { b with errors := b.errors ++ b.failures.map (·.2) }

end Avroc
