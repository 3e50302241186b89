import Avroc.Build.Writing
import Avroc.Cache.Entry
import Avroc.File.Digest

/-!
# The cache

A directory of records, one file for each source directory.

* `Cache.store`, `Cache.clear` : puts a record in place, and removes one or all.
-/

namespace Avroc

/-- A cache. -/
structure Cache where
  directory : Path
  strategy : CacheStrategy
deriving DecidableEq, Repr, Inhabited

/-- The text of the absolute path of a file or directory. -/
def Disk.key (d : Disk) (path : Path) : String :=
  (d.resolve path).text

namespace Cache

/-- The file of the record of a source directory: the first digits of the digest of its path. -/
def entryPath (cache : Cache) (d : Disk) (source : Path) : Path :=
  let digest := Digest.sha256Hex (Text.encodeUtf8 (d.key source))
  cache.directory.join ⟨"", [String.ofList (digest.toList.take 16) ++ ".json"]⟩

/-! ### Loading -/

/-- Whether a fault makes a record count as missing. -/
def isIgnored : Error → Bool
  | .disk _ | .encoding _ | .tooManyDigits _ | .malformedJson .. => true
  | .missingKey _ | .choice _ | .misuse (.pairLength ..) => true
  | _ => false

def readJson (text : String) : Except Error Json :=
  match Json.parse text with
  | .ok value => .ok value
  | .error (.malformed problem position) => .error (.malformedJson problem text.toList position)
  | .error (.tooManyDigits count) => .error (.tooManyDigits count)

/-- The record in a file; one of another version is none. -/
def readEntry (d : Disk) (path : Path) : Except Error (Option CacheEntry) := do
  let text ← match d.readText path with
    | .ok text => pure text
    | .error (.disk fault) => throw (.disk fault)
    | .error (.encoding fault) => throw (.encoding fault)
  match ← readJson text with
  | .object members =>
    if (Members.get? members "version").bind Json.numberValue? = some cacheVersion then
      return some (← CacheEntry.ofJson (.object members))
    else return none
  | v => throw (.misuse (.lacks v.kind "get"))

/-- The record of a source directory. -/
def load (cache : Cache) (source : Path) : Build (Option CacheEntry) := do
  let disk ← currentDisk
  let path := cache.entryPath disk source
  if disk.contains path then
    match readEntry disk path with
    | .ok entry => return entry
    | .error e =>
      if isIgnored e then
        report .cache .warning
          ("Ignoring unreadable cache entry " ++ path.text ++ ": " ++ e.message)
        return none
      else throw e
  else return none

/-! ### Storing -/

def pathOf : Json → Except Error Path
  | .string s => .ok (.ofString s)
  | v => .error (.misuse (.notAPath v.kind))

/-- Puts a record in place of the one of its source directory. -/
def store (cache : Cache) (entry : CacheEntry) : Build Unit := do
  let disk ← currentDisk
  let path := cache.entryPath disk (← (pathOf entry.sourceDir : Except Error Path))
  match disk.replaceFile path entry.text with
  | .ok disk =>
    setDisk disk
    report .cache .debug ("Stored cache entry " ++ path.text)
  | .error fault => throw (.file (.unwritableEntry fault) (some path))

/-! ### Clearing -/

/-- Removes the record of a source directory, if there is one. -/
def clearEntry (cache : Cache) (source : Path) : Build Unit := do
  let disk ← currentDisk
  match disk.removeFile (cache.entryPath disk source) with
  | .ok disk => setDisk disk
  | .error fault => if fault.problem = .missing then pure () else throw (.disk fault)

end Cache

def removeDirectory (path : Path) : Build Unit := do
  let disk ← currentDisk
  if disk.isFile path then
    throw (.disk ⟨.notDirectory, "PosixPath(" ++ Text.quote path.text ++ ")"⟩)
  else changeDisk (·.removeTree path)

def Cache.clear (cache : Cache) : Build Unit := do
  if (← currentDisk).contains cache.directory then
    removeDirectory cache.directory
    report .cache .info ("Removed cache " ++ cache.directory.text)

end Avroc
