import Avroc.Cache.Entry
import Avroc.Module.Options

/-!
# Commands and flags

* `Verb` : what the program can be told to do.
* `Flag` : the flags of every command, with their spellings.
* `OutputFormat` : how results are printed.
* `ArgumentFault` : what is wrong with a command line, with `ArgumentFault.message`.
* `usage`, `helpText` : what the program says about itself.
-/

namespace Avroc

/-- What the program can be told to do. -/
inductive Verb
  | generate
  | clean
  | scan
  | status
deriving DecidableEq, Repr, Inhabited

namespace Verb

def name : Verb → String
  | generate => "generate"
  | clean => "clean"
  | scan => "scan"
  | status => "status"

def purpose : Verb → String
  | generate => "Compile Avro sources"
  | clean => "Remove generated output and cache"
  | scan => "List discovered Avro sources"
  | status => "Report stale source directories"

/-- The commands, in the order in which they are listed. -/
def all : List Verb := [generate, clean, scan, status]

def ofName? (word : String) : Option Verb :=
  all.find? (·.name = word)

end Verb

/-- How results are printed. -/
inductive OutputFormat
  | text
  | json
deriving DecidableEq, Repr, Inhabited

namespace OutputFormat

def name : OutputFormat → String
  | text => "text"
  | json => "json"

def ofName? : String → Option OutputFormat
  | "text" => some text
  | "json" => some json
  | _ => none

end OutputFormat

/-- A flag. -/
inductive Flag
  | help
  | config
  | sourceDir
  | outputDir
  | cacheDir
  | stringType
  | fieldVisibility
  | disableDecimal
  | useNamespace
  | cacheStrategy
  | workers
  | format
deriving DecidableEq, Repr, Inhabited

namespace Flag

def spellings : Flag → List String
  | help => ["-h", "--help"]
  | config => ["--config", "-c"]
  | sourceDir => ["--source-dir"]
  | outputDir => ["--output-dir"]
  | cacheDir => ["--cache-dir"]
  | stringType => ["--string-type"]
  | fieldVisibility => ["--field-visibility"]
  | disableDecimal => ["--disable-decimal"]
  | useNamespace => ["--use-namespace"]
  | cacheStrategy => ["--cache-strategy"]
  | workers => ["--workers"]
  | format => ["--format"]

def name (flag : Flag) : String :=
  "/".intercalate flag.spellings

/-- The words that the value of a flag is chosen from, where there are such. -/
def choices : Flag → List String
  | stringType => ["CharSequence", "String", "Utf8"]
  | cacheStrategy => ["last_modified", "hash"]
  | format => ["text", "json"]
  | _ => []

/-- The words as they are listed in messages about what was expected. -/
def choiceText (words : List String) : String :=
  "\x7b" ++ ",".intercalate words ++ "\x7d"

/-- What stands for the value of a flag; a flag without one takes no value. -/
def valueName? : Flag → Option String
  | help | disableDecimal | useNamespace => none
  | config => some "CONFIG"
  | sourceDir => some "SOURCE_DIRS"
  | outputDir => some "OUTPUT_DIR"
  | cacheDir => some "CACHE_DIR"
  | fieldVisibility => some "FIELD_VISIBILITY"
  | workers => some "WORKERS"
  | flag => some (choiceText flag.choices)

def takesValue (flag : Flag) : Bool :=
  flag.valueName?.isSome

/-- What the flag is for, in lines of at most 54 characters. -/
def purpose : Flag → List String
  | help => ["show this help message and exit"]
  | config => ["YAML project file"]
  | sourceDir => ["Avro source directory (repeatable)"]
  | outputDir => ["Destination for generated sources"]
  | cacheDir => ["Incremental cache directory"]
  | stringType => ["String representation"]
  | fieldVisibility => ["Field visibility: private, public or public_deprecated"]
  | disableDecimal => ["Map decimal logical types to bytes instead of", "decimal.Decimal"]
  | useNamespace => ["Require schema file paths to mirror their namespace"]
  | cacheStrategy => ["How input files are stamped"]
  | workers => ["Source directories compiled in parallel"]
  | format => ["Output format"]

/-- The flags of the commands, in the order in which they are listed. -/
def all : List Flag :=
  [help, config, sourceDir, outputDir, cacheDir, stringType, fieldVisibility, disableDecimal,
   useNamespace, cacheStrategy, workers, format]

/-- The flags that may stand before the command. -/
def general : List Flag := [help]

end Flag

/-- What is wrong with a command line. -/
inductive ArgumentFault
  | ambiguous (argument : String) (spellings : List String)
  | noValue (flag : Flag)
  | unwantedValue (flag : Flag) (value : String)
  | noWhole (flag : Flag) (value : String)
  | noneOf (name value : String) (choices : List String)
  | noCommand
  | unrecognized (arguments : List String)
deriving DecidableEq, Repr, Inhabited

namespace ArgumentFault

def message : ArgumentFault → String
  | ambiguous argument spellings =>
    "ambiguous option: " ++ argument ++ " could match " ++ ", ".intercalate spellings
  | noValue flag => "argument " ++ flag.name ++ ": expected one argument"
  | unwantedValue flag value =>
    "argument " ++ flag.name ++ ": ignored explicit argument " ++ Text.quote value
  | noWhole flag value => "argument " ++ flag.name ++ ": invalid int value: " ++ Text.quote value
  | noneOf name value choices =>
    "argument " ++ name ++ ": invalid choice: " ++ Text.quote value ++ " (choose from " ++
      ", ".intercalate (choices.map Text.quote) ++ ")"
  | noCommand => "the following arguments are required: command"
  | unrecognized arguments => "unrecognized arguments: " ++ " ".intercalate arguments

end ArgumentFault

/-! ### Help -/

/-- The name of the program, with the command that is at work. -/
def programName : Option Verb → String
  | none => "avrogen"
  | some verb => "avrogen " ++ verb.name

/-- Puts words on lines of at most 78 characters; `margin` is the width before the first word of
each line. -/
def wrapWords (margin : Nat) : List String → List String → Nat → List (List String)
  | [], line, _ => if line.isEmpty then [] else [line]
  | word :: rest, line, width =>
    if 78 < width + 1 + word.length && !line.isEmpty then
      line :: wrapWords margin rest [word] (margin - 1 + 1 + word.length)
    else wrapWords margin rest (line ++ [word]) (width + 1 + word.length)

def usageWords : Option Verb → List String
  | none => ["[-h]", Flag.choiceText (Verb.all.map Verb.name), "..."]
  | some _ => Flag.all.map fun flag =>
    let value := match flag.valueName? with
      | some name => " " ++ name
      | none => ""
    "[" ++ flag.spellings.headD "" ++ value ++ "]"

/-- How the program is called. -/
def usage (verb : Option Verb) : String :=
  let start := "usage: " ++ programName verb ++ " "
  let lines := wrapWords start.length (usageWords verb) [] (start.length - 1)
  start ++ ("\n" ++ String.ofList (List.replicate start.length ' ')).intercalate
    (lines.map (" ".intercalate ·)) ++ "\n"

/-- A line of help: what is explained, and from column 24 on the explanation. -/
def helpLines (indent : Nat) (head : String) (texts : List String) : List String :=
  let blanks (n : Nat) := String.ofList (List.replicate n ' ')
  let start := blanks indent ++ head
  match texts with
  | first :: rest =>
    if start.length ≤ 22 then
      (start ++ blanks (24 - start.length) ++ first) :: rest.map (blanks 24 ++ ·)
    else start :: (first :: rest).map (blanks 24 ++ ·)
  | [] => [start]

def Flag.explanation (flag : Flag) : List String :=
  let heads := flag.spellings.map fun spelling =>
    match flag.valueName? with
    | some value => spelling ++ " " ++ value
    | none => spelling
  helpLines 2 (", ".intercalate heads) flag.purpose

/-- What the program says about itself, or about one of its commands. -/
def helpText (verb : Option Verb) : String :=
  let lines := match verb with
    | none =>
      ["", "Incremental Avro source generator", "", "positional arguments:",
       "  " ++ Flag.choiceText (Verb.all.map Verb.name)] ++
      Verb.all.flatMap (fun verb => helpLines 4 verb.name [verb.purpose]) ++
      ["", "options:"] ++ Flag.general.flatMap Flag.explanation
    | some _ => ["", "options:"] ++ Flag.all.flatMap Flag.explanation
  usage verb ++ "\n".intercalate lines ++ "\n"

end Avroc
