import Avroc.Build.Directory
import Avroc.Cache.Store

/-!
# Incremental compilation

A directory is compiled only if the record of its last compilation does not hold any more: its
inputs are the same files with the same stamps, and the modules found then are still there.
-/

namespace Avroc

/-- The stamp of a file: its time of change, or the digest of its content. -/
def fileStamp (d : Disk) (strategy : CacheStrategy) (path : Path) : Except DiskFault Json :=
  match strategy with
  | .hash => do
    let content ← d.readContent path
    return .string (Digest.sha256Hex content.toBytes)
  | .lastModified =>
    match d.node path with
    | .ok node => .ok (.int node.time)
    | .error problem => .error (.at problem path.text)

/-! ### Staleness -/

/-- Why a directory has to be compiled. -/
inductive Staleness
  | noBuild
  | otherStrategy (strategy : CacheStrategy)
  | otherInputs
  | unstamped (path : Path)
  | changed (path : Path)
  | modified (path : Path)
  | missingOutput (output : String)
deriving DecidableEq, Repr, Inhabited

def Staleness.message : Staleness → String
  | noBuild => "no previous build"
  | otherStrategy strategy => "cache strategy changed to " ++ strategy.name
  | otherInputs => "input set changed"
  | unstamped path => "cannot stamp " ++ path.text
  | changed path => path.text ++ " changed"
  | modified path => path.text ++ " modified"
  | missingOutput output => "output " ++ output ++ " missing"

/-- The inputs by their absolute paths, each once: it stands where it first occurs, as it was last
written. -/
def keyedInputs (d : Disk) (inputs : List Path) : List (String × Path) :=
  inputs.foldl (fun keyed path => setKeyed (d.key path) path keyed) []
where
  /-- The pairs with one set. -/
  setKeyed (key : String) (path : Path) : List (String × Path) → List (String × Path)
    | [] => [(key, path)]
    | (k, p) :: rest => if k = key then (k, path) :: rest else (k, p) :: setKeyed key path rest

/-- Whether the recorded inputs are the given ones. -/
def sameInputs (keyed : List (String × Path)) (recorded : List (Json × Json)) : Bool :=
  keyed.length = recorded.length &&
    keyed.all fun (key, _) => recorded.any fun (k, _) => sameKey k (.string key)

/-- Whether a stamp is as recorded, or for times no later. -/
def stampHolds (strategy : CacheStrategy) (stamp recorded : Json) : Bool :=
  match strategy with
  | .hash => stamp == recorded
  | .lastModified =>
    match stamp, recorded.wholeNumber? with
    | .int now, some before => now ≤ before
    | _, _ => false

/-- Why an input does not hold. -/
def inputStaleness (d : Disk) (strategy : CacheStrategy) (recorded : Json) (path : Path) :
    Option Staleness :=
  match fileStamp d strategy path with
  | .error _ => some (.unstamped path)
  | .ok stamp =>
    if stampHolds strategy stamp recorded then none
    else match strategy with
      | .hash => some (.changed path)
      | .lastModified => some (.modified path)

/-- The recorded stamp of an input. -/
def recordedStamp (recorded : List (Json × Json)) (key : String) : Json :=
  ((recorded.find? fun (k, _) => sameKey k (.string key)).map (·.2)).getD .null

/-- The first recorded module that is missing. -/
def missingOutput? (d : Disk) : List Json → Except Error (Option Staleness)
  | [] => .ok none
  | v :: rest => do
    if d.contains (← Cache.pathOf v) then missingOutput? d rest
    else return some (.missingOutput v.shown)

/-- The first reason why a record does not hold. -/
def Cache.staleness (cache : Cache) (d : Disk) (entry : Option CacheEntry) (inputs : List Path) :
    Except Error (Option Staleness) :=
  match entry with
  | none => .ok (some .noBuild)
  | some entry =>
    if entry.strategy ≠ cache.strategy then .ok (some (.otherStrategy cache.strategy))
    else
      let keyed := keyedInputs d inputs
      if !sameInputs keyed entry.inputs then .ok (some .otherInputs)
      else
        let stale := keyed.findSome? fun (key, path) =>
          inputStaleness d cache.strategy (recordedStamp entry.inputs key) path
        match stale with
        | some reason => .ok (some reason)
        | none => missingOutput? d entry.outputs

/-- Whether a directory has to be compiled. -/
def Cache.isStale (cache : Cache) (source : Path) (inputs : List Path) : Build Bool := do
  let entry ← cache.load source
  let reason ← (cache.staleness (← currentDisk) entry inputs : Except Error (Option Staleness))
  return reason.isSome

/-! ### Compiling -/

def stampInputs (d : Disk) (strategy : CacheStrategy) :
    List Path → Except Error (List (Json × Json))
  | inputs => inputs.foldlM (fun stamps path =>
      match fileStamp d strategy path with
      | .ok stamp => .ok (setPair (.string (d.key path)) stamp stamps)
      | .error fault => .error (.file (.unstampedInput fault) (some path))) []

/-- The texts of a list, in order; only texts can be put in order with texts. -/
def sortedTexts (values : List Json) : Except Misuse (List String) :=
  let texts := values.filterMap fun v => match v with
    | .string s => some s
    | _ => none
  match values.find? (!isText ·) with
  | none => .ok (Text.inOrder id texts.eraseDups)
  | some v =>
    if texts.isEmpty then .error (.notAPath v.kind)
    else .error (.notOrdered v.kind "str")
where
  /-- Whether the value is a text. -/
  isText : Json → Bool
    | .string _ => true
    | _ => false

/-- The recorded modules that are not among those written now. -/
def abandoned (recorded : List Json) (written : List String) : Except Misuse (List String) := do
  match recorded.find? isComposite with
  | some v => throw (.unhashable v.kind)
  | none => sortedTexts (recorded.filter fun v => !(written.map Json.string).contains v)
where
  /-- Whether the value is an array or an object. -/
  isComposite : Json → Bool
    | .array _ => true
    | .object _ => true
    | _ => false

/-- Removes modules that are not written any more. -/
def prune : List String → Build Unit
  | [] => pure ()
  | name :: rest => do
    let path := Path.ofString name
    if (← currentDisk).contains path then
      changeDisk (·.removeFile path)
      report .cache .info ("Removed stale generated source " ++ path.text)
    prune rest

/-- The modules found after a compilation that are still there, in order. -/
def keptOutputs (d : Disk) (outputs : List Path) : List String :=
  Text.inOrder id ((outputs.filter d.contains).map Path.text)

/-- The absolute paths of the modules written, in order, each once. -/
def writtenKeys (d : Disk) (written : List Path) : List String :=
  Text.inOrder id (written.map d.key).eraseDups

/-- Removes the modules of the previous record that are not among those written now. -/
def pruneAbandoned (previous : Option CacheEntry) (written : List String) : Build Unit :=
  match previous with
  | none => pure ()
  | some entry => do prune (← orFail (abandoned entry.written written))

/-- Removes what is not written any more, and records a compilation. -/
def Cache.record (cache : Cache) (source : Path) (previous : Option CacheEntry)
    (stamps : List (Json × Json)) (result : Compilation) : Build (List Path) := do
  let written := writtenKeys (← currentDisk) result.written
  pruneAbandoned previous written
  let disk ← currentDisk
  let outputs := keptOutputs disk result.outputs
  cache.store
    { sourceDir := .string (disk.key source), strategy := cache.strategy, inputs := stamps,
      outputs := outputs.map .string, written := written.map .string }
  return outputs.map .ofString

/-- Runs a compilation and records it. -/
def Cache.recompile (cache : Cache) (source : Path) (inputs : List Path)
    (previous : Option CacheEntry) (action : Build Compilation) : Build (List Path) := do
  let stamps ←
    (stampInputs (← currentDisk) cache.strategy inputs : Except Error (List (Json × Json)))
  cache.record source previous stamps (← action)

/-- The modules of a directory, compiled by `action` only if the record does not hold. -/
def Cache.compile (cache : Cache) (source : Path) (inputs : List Path)
    (action : Build Compilation) : Build (List Path) := do
  let previous ← cache.load source
  match ← (cache.staleness (← currentDisk) previous inputs : Except Error (Option Staleness)) with
  | none =>
    report .cache .info ("Up to date: " ++ source.text)
    let outputs := (previous.map (·.outputs)).getD []
    (outputs.mapM Cache.pathOf : Except Error (List Path))
  | some reason =>
    report .cache .info ("Compiling " ++ source.text ++ ": " ++ reason.message)
    cache.recompile source inputs previous action

end Avroc
