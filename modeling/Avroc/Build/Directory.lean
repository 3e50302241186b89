import Avroc.Build.Batch
import Avroc.Build.Scan

/-!
# Compiling a directory

The sources of a directory are compiled in a fixed order: the definition language, the schemas as
one batch, and the protocols in JSON.  Definition language and protocol files stop the build when
they fail; schema files do not.
-/

namespace Avroc

/-- What compiling a directory brings: the modules now below the destination, those that belong to
this directory, and the errors of schema files. -/
structure Compilation where
  outputs : List Path
  written : List Path
  errors : List Error
deriving Inhabited

/-- The paths in order, each once. -/
def sortedPaths (paths : List Path) : List Path :=
  paths.eraseDups.mergeSort Path.le

/-- Writes the modules of a protocol that has been read, with its definitions in a catalog. -/
def writeProtocol (o : CompileOptions) (target : Path) (catalog : Catalog)
    (read : Except Error Protocol) : Build (List Path) := do
  match read with
  | .error e => throw e
  | .ok protocol => writeModules target (← orFail (protocolModules catalog o protocol))

/-- Compiles a file in the definition language, with no types known before. -/
def compileIdl (o : CompileOptions) (target path : Path) : Build (List Path) := do
  report .compilers .info ("Compiling Avro IDL " ++ path.text)
  let disk ← currentDisk
  let (read, known) ← readFrom .empty do
    Idl.readIdl disk (some path) (← disk.readSource path)
  writeProtocol o target known.catalog read

/-- Compiles a protocol in JSON, with no types known before. -/
def compileProtocol (o : CompileOptions) (target path : Path) : Build (List Path) := do
  report .compilers .info ("Compiling Avro protocol " ++ path.text)
  let disk ← currentDisk
  let (read, known) ← readFrom .empty (Idl.readProtocolFile disk path)
  writeProtocol o target known.catalog read

def compileEach (compile : Path → Build (List Path)) : List SourceInput → Build (List Path)
  | [] => pure []
  | source :: rest => do
    let first ← compile source.path
    let others ← compileEach compile rest
    return first ++ others

/-- Compiles the files of a form: what is written, the errors, and the types known after it. -/
def compileFormat (o : CompileOptions) (sourceRoot target : Path) (known : Snapshot)
    (format : SourceFormat) (files : List SourceInput) :
    Build (List Path × List Error × Snapshot) := do
  match format with
  | .idl => return (← compileEach (compileIdl o target) files, [], known)
  | .protocol => return (← compileEach (compileProtocol o target) files, [], known)
  | .schema =>
    let b ← compileBatch o sourceRoot target known files
    return (b.written, b.errors, b.known)

/-- Compiles the files of each form in order. -/
def compileFormats (o : CompileOptions) (sourceRoot target : Path) (known : Snapshot) :
    List (SourceFormat × List SourceInput) → Build (List Path × List Error × Snapshot)
  | [] => pure ([], [], known)
  | (format, files) :: rest => do
    let (written, errors, known) ← compileFormat o sourceRoot target known format files
    let (written', errors', known) ← compileFormats o sourceRoot target known rest
    return (written ++ written', errors ++ errors', known)

/-- Compiles the sources below a directory into another, starting from the types of a registry;
what it brings, and the types known after it. -/
def compileDirectory (o : CompileOptions) (source target : Path) (known : Registry) :
    Build (Compilation × Registry) := do
  modify fun w => { w with learned := ⟨w.catalog, known⟩ }
  report .orchestrator .info ("Avro compiler using stringType=" ++ o.stringType.name)
  let sources ← scanSources source.text
  let (written, errors, known) ←
    compileFormats o source target ⟨(← get).catalog, known⟩ sources
  let outputs ← findOutputs target.text
  return (⟨outputs, sortedPaths written, errors⟩, known.registry)

end Avroc
