import Avroc.Cache.Entry
import Avroc.Log
import Avroc.Module.Options
import Avroc.Yaml.Reader

/-!
# Settings

What a run of the program is told: where the sources are, where the modules and the cache go, how
the modules are shaped, and what is logged.

* `Settings.summary` : the settings as lines for the log.
-/

namespace Avroc

/-- The layouts of the log. -/
inductive LogFormat
  | text
  | json
deriving DecidableEq, Repr, Inhabited

def LogFormat.name : LogFormat → String
  | text => "text"
  | json => "json"

def LogFormat.ofName (word : String) : Except ChoiceFault LogFormat :=
  match word with
  | "text" => .ok text
  | "json" => .ok json
  | word => .error (.logFormat word)

/-- The settings of a run. -/
structure Settings where
  sourceDirs : List Path := [.ofString "src/main/avro"]
  outputDir : Path := .ofString "target/compiled_avro"
  cacheDir : Path := .ofString "target/.avrogen-cache"
  options : CompileOptions := {}
  strategy : CacheStrategy := .lastModified
  /-- How many source directories are compiled at a time. -/
  workers : Int := 1
  logLevel : String := "INFO"
  logFormat : LogFormat := .text
deriving Repr, Inhabited

namespace Settings

def summary (s : Settings) : List LogRecord :=
  [ "Source directories: " ++ ", ".intercalate (s.sourceDirs.map Path.text),
    "Output directory: " ++ s.outputDir.text,
    "Cache: " ++ s.cacheDir.text ++ " (strategy=" ++ s.strategy.name ++ ")",
    "Compile options: " ++ s.options.document.literal ].map fun message =>
      ⟨.config, .info, message⟩

/-- Whether a report is grave enough to be seen. -/
def shows (s : Settings) (r : LogRecord) : Bool :=
  LogLevel.leastRank s.logLevel ≤ r.level.rank

def logLine (s : Settings) (r : LogRecord) : String :=
  match s.logFormat with
  | .text => r.line
  | .json => r.jsonLine

end Settings

/-- Why a setting does not take a value. -/
inductive IssueCause
  | noList
  | noPath
  | noText
  | noBool
  | unreadableBool
  | noWhole
  | unreadableWhole
  | fractional
  | infinite
  | oversized
  | tooSmall (least : Int)
  | noneOf (choices : List String)
  | choice (fault : ChoiceFault)
  | unknownSetting
deriving Inhabited

namespace IssueCause

/-- The last of several choices after an `or`, the others between commas. -/
def orList : List String → String
  | [] => ""
  | [only] => only
  | [first, last] => first ++ " or " ++ last
  | first :: rest => first ++ ", " ++ orList rest

def code : IssueCause → String
  | noList => "list_type"
  | noPath => "path_type"
  | noText => "string_type"
  | noBool => "bool_type"
  | unreadableBool => "bool_parsing"
  | noWhole => "int_type"
  | unreadableWhole => "int_parsing"
  | fractional => "int_from_float"
  | infinite => "finite_number"
  | oversized => "int_parsing_size"
  | tooSmall _ => "greater_than_equal"
  | noneOf _ => "enum"
  | choice _ => "value_error"
  | unknownSetting => "extra_forbidden"

def message : IssueCause → String
  | noList => "Input should be a valid list"
  | noPath => "Input is not a valid path for <class 'pathlib.Path'>"
  | noText => "Input should be a valid string"
  | noBool => "Input should be a valid boolean"
  | unreadableBool => "Input should be a valid boolean, unable to interpret input"
  | noWhole => "Input should be a valid integer"
  | unreadableWhole => "Input should be a valid integer, unable to parse string as an integer"
  | fractional => "Input should be a valid integer, got a number with a fractional part"
  | infinite => "Input should be a finite number"
  | oversized => "Unable to parse input string as an integer, exceeded maximum size"
  | tooSmall least => "Input should be greater than or equal to " ++ toString least
  | noneOf choices => "Input should be " ++ orList (choices.map Text.quote)
  | choice fault => "Value error, " ++ fault.message
  | unknownSetting => "Extra inputs are not permitted"

end IssueCause

/-- A value that a setting does not take; `index` is its place in a list. -/
structure Issue where
  key : String
  index : Option Nat
  cause : IssueCause
  value : Yaml
deriving Inhabited

/-- The characters from the start whose encoding has at most `bytes` bytes. -/
def takeBytes (bytes : Nat) : List Char → List Char
  | [] => []
  | c :: rest => if c.utf8Size ≤ bytes then c :: takeBytes (bytes - c.utf8Size) rest else []

/-- A text of more than fifty bytes cut to its first twenty-five and its last twenty-four. -/
def shortened (s : String) : String :=
  if 50 < s.utf8ByteSize then
    String.ofList (takeBytes 25 s.toList) ++ "..." ++
      String.ofList (takeBytes 24 s.toList.reverse).reverse
  else s

namespace Issue

def location (i : Issue) : String :=
  match i.index with
  | some n => i.key ++ "." ++ toString n
  | none => i.key

def text (i : Issue) : String :=
  i.location ++ "\n  " ++ i.cause.message ++ " [type=" ++ i.cause.code ++ ", input_value=" ++
    shortened i.value.literal ++ ", input_type=" ++ i.value.kind ++ "]"

end Issue

/-- Why there are no settings. -/
inductive SettingsFault
  | invalid (issues : List Issue)
  /-- The value of a setting in the environment is no JSON. -/
  | undecodable (key : String)
  | noMapping (path : Path)
  | malformed (fault : Yaml.Fault)
  | unreadable (cause : ReadFault)
  | misuse (cause : Misuse)
deriving Inhabited

namespace SettingsFault

def issuesText (issues : List Issue) : String :=
  let count := issues.length
  "\n".intercalate
    ((toString count ++ " validation error" ++ (if count = 1 then "" else "s") ++
      " for GeneratorSettings") :: issues.map Issue.text)

def message : SettingsFault → String
  | invalid issues => issuesText issues
  | undecodable key =>
    "error parsing value for field \"" ++ key ++ "\" from source \"EnvSettingsSource\""
  | noMapping path => path.text ++ ": expected a mapping of settings"
  | malformed _ => "malformed project file"
  | unreadable cause => cause.message
  | misuse cause => cause.message

/-- Whether the fault is about the configuration; the command line reports such a fault, and
stops at any other. -/
def isReported : SettingsFault → Bool
  | malformed _ | misuse _ => false
  | _ => true

end SettingsFault

end Avroc
