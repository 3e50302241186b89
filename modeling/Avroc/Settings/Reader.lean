import Avroc.File.Disk
import Avroc.Settings.Value

/-!
# Reading settings

Settings come from values that are given, from the environment and from the defaults, the first of
them that has a setting winning.  A project file gives values, its directories being seen from the
directory of the file, and further values may override the file's.
-/

namespace Avroc

/-- The variables of the environment, in order. -/
abbrev Environment := List (String × String)

abbrev Values := List (String × Yaml)

/-- The names of the settings, in the order in which they are checked. -/
def settingNames : List String :=
  ["source_dirs", "output_dir", "cache_dir", "string_type", "field_visibility",
   "enable_decimal_logical_type", "use_namespace", "cache_strategy", "max_workers", "log_level",
   "log_format"]

/-- The variable of a setting: letters of either case will do, and the last one that is there
counts. -/
def Environment.get? (env : Environment) (setting : String) : Option String :=
  (env.findRev? fun (name, _) =>
    String.ofList (name.toList.map Char.toLower) = "avrogen_" ++ setting).map (·.2)

/-- The source directories in the environment, which are a JSON text; null is no value. -/
def Environment.sourceDirs (env : Environment) : Except SettingsFault (Option Yaml) :=
  match env.get? "source_dirs" with
  | none => .ok none
  | some text =>
    match Json.parse text with
    | .ok .null => .ok none
    | .ok value => .ok (some (.ofJson value))
    | .error _ => .error (.undecodable "source_dirs")

/-- The checking of settings, which goes on after an issue. -/
abbrev Checking := StateM (List Issue)

/-- The setting of a value, or the default if there is no value or one with an issue. -/
def check {α : Type} (value : Option Yaml) (key : String) (read : Yaml → Except IssueCause α)
    (default : α) : Checking α :=
  match value with
  | none => pure default
  | some v =>
    match read v with
    | .ok a => pure a
    | .error cause => do
      modify (· ++ [⟨key, none, cause, v⟩])
      return default

def checkPaths (value : Option Yaml) (key : String) (default : List Path) :
    Checking (List Path) :=
  match value with
  | none => pure default
  | some (.list items) => do
    let (paths, issues) := Yaml.pathsFrom key 0 items
    modify (· ++ issues)
    return paths
  | some v => do
    modify (· ++ [⟨key, none, .noList, v⟩])
    return default

/-- The settings of values, and the issues with them. -/
def checkSettings (value : String → Option Yaml) : Checking Settings := do
  let base : Settings := {}
  let setting (key : String) {α : Type} (read : Yaml → Except IssueCause α) (default : α) :
      Checking α := check (value key) key read default
  let sourceDirs ← checkPaths (value "source_dirs") "source_dirs" base.sourceDirs
  let outputDir ← setting "output_dir" Yaml.toPath base.outputDir
  let cacheDir ← setting "cache_dir" Yaml.toPath base.cacheDir
  let stringType ← setting "string_type" Yaml.toStringType base.options.stringType
  let visibility ← setting "field_visibility" Yaml.toVisibility base.options.visibility
  let decimals ← setting "enable_decimal_logical_type" Yaml.toBool base.options.decimals
  let checksLayout ← setting "use_namespace" Yaml.toBool base.options.checksLayout
  let strategy ← setting "cache_strategy" Yaml.toStrategy base.strategy
  let workers ← setting "max_workers" Yaml.toPositive base.workers
  let logLevel ← setting "log_level" Yaml.toText base.logLevel
  let logFormat ← setting "log_format" Yaml.toLogFormat base.logFormat
  return {
    sourceDirs, outputDir, cacheDir, strategy, workers, logLevel, logFormat
    options := { stringType, visibility, decimals, checksLayout } }

/-- The issues with values for settings that there are not. -/
def unknownSettings (values : Values) : List Issue :=
  (values.filter fun (key, _) => !settingNames.contains key).map fun (key, v) =>
    ⟨key, none, .unknownSetting, v⟩

namespace Settings

/-- The settings of given values and an environment. -/
def ofValues (env : Environment) (values : Values) : Except SettingsFault Settings := do
  let sourceDirs ← env.sourceDirs
  let value (key : String) : Option Yaml :=
    match values.lookup key with
    | some v => some v
    | none => if key = "source_dirs" then sourceDirs else (env.get? key).map .string
  let (settings, issues) := (checkSettings value).run []
  match issues ++ unknownSettings values with
  | [] => .ok settings
  | issues => .error (.invalid issues)

/-- A path of the project file, seen from the file's directory. -/
def locatePath (base : Path) : Yaml → Except SettingsFault Yaml
  | .string s => .ok (.string (base.join (.ofString s)).text)
  | v => .error (.misuse (.notAPathPart v.kind))

/-- The pairs of a project file with one of them changed, if it is there. -/
def changePair (key : String) (change : Yaml → Except SettingsFault Yaml) :
    List (Yaml × Yaml) → Except SettingsFault (List (Yaml × Yaml))
  | [] => .ok []
  | (k, v) :: rest => do
    if k == .string key then return (k, ← change v) :: rest
    else return (k, v) :: (← changePair key change rest)

/-- The pairs of a project file, with its directories seen from the file's directory. -/
def locatePairs (base : Path) (pairs : List (Yaml × Yaml)) :
    Except SettingsFault (List (Yaml × Yaml)) := do
  let pairs ← changePair "source_dirs" (fun v =>
    match v.elements? with
    | some items => (items.mapM (locatePath base)).map .list
    | none => .error (.misuse (.notIterable v.kind))) pairs
  let pairs ← changePair "output_dir" (locatePath base) pairs
  changePair "cache_dir" (locatePath base) pairs

/-- The pairs as values, every key of which has to be a text. -/
def pairValues (pairs : List (Yaml × Yaml)) : Except SettingsFault Values :=
  pairs.mapM fun (key, v) =>
    match key with
    | .string k => .ok (k, v)
    | _ => .error (.misuse .keysNotTexts)

/-- The settings of a project file; a null among the overriding values overrides nothing. -/
def ofFile (disk : Disk) (path : Path) (env : Environment) (overrides : Values) :
    Except SettingsFault Settings := do
  let text ← (disk.readText path).mapError .unreadable
  let document ← (Yaml.parse text).mapError .malformed
  let pairs ← match document with
    | .mapping pairs => .ok pairs
    | other => if other.isTruthy then .error (.noMapping path) else .ok []
  let pairs ← locatePairs path.parent pairs
  let given := overrides.filter fun (_, v) => v != .null
  let pairs := given.foldl (fun pairs (key, v) => Yaml.insert pairs (.string key) v) pairs
  ofValues env (← pairValues pairs)

end Settings

end Avroc
