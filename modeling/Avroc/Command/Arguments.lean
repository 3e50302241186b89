import Avroc.Command.Option
import Avroc.Name
import Avroc.Settings.Reader

/-!
# Arguments

A command line is a command with flags after it.  A long flag may be cut short as long as no other
flag starts alike, a value may follow an equals sign, and the value of a short flag may follow it
directly.  Every argument is first told to be a flag or not; only then are they taken in order.
-/

namespace Avroc

/-- What a command line says. -/
structure Arguments where
  verb : Verb
  config : Option Path := none
  sourceDirs : List Path := []
  outputDir : Option Path := none
  cacheDir : Option Path := none
  stringType : Option String := none
  visibility : Option String := none
  disablesDecimals : Bool := false
  checksLayout : Bool := false
  strategy : Option String := none
  workers : Option Int := none
  format : OutputFormat := .text
deriving Repr, Inhabited

/-- Why the program stops at its command line: it is asked for help, or the line is faulty. -/
inductive Stop
  | help (verb : Option Verb)
  | fault (verb : Option Verb) (cause : ArgumentFault)
deriving Repr, Inhabited

/-! ### Telling flags -/

/-- A flag that an argument spells, and the value that came with it. -/
structure Found where
  flag : Flag
  spelling : String
  value : Option String
deriving Repr, Inhabited

/-- What an argument is. -/
inductive Word
  | operand
  /-- The mark after which no argument is a flag. -/
  | separator
  | flag (found : Found)
  | unknownFlag
deriving Inhabited

def spellingsOf (flags : List Flag) : List (String × Flag) :=
  flags.flatMap fun flag => flag.spellings.map (·, flag)

/-- The parts of a text before and after its first equals sign. -/
def splitEquals? (cs : List Char) : Option (String × String) :=
  let name := cs.takeWhile (· ≠ '=')
  match cs.drop name.length with
  | _ :: value => some (String.ofList name, String.ofList value)
  | [] => none

/-- The flags that a long argument may be short for. -/
def longMatches (flags : List Flag) (argument : String) : List Found :=
  let (name, value) := match splitEquals? argument.toList with
    | some (name, value) => (name, some value)
    | none => (argument, none)
  (spellingsOf flags).filterMap fun (spelling, flag) =>
    if name.toList.isPrefixOf spelling.toList then some ⟨flag, spelling, value⟩ else none

/-- The flags that an argument with one dash may spell: a letter, with its value after it. -/
def shortMatches (flags : List Flag) (argument : String) : List Found :=
  let cs := argument.toList
  (spellingsOf flags).filterMap fun (spelling, flag) =>
    if spelling.toList = cs.take 2 then some ⟨flag, spelling, some (String.ofList (cs.drop 2))⟩
    else if cs.isPrefixOf spelling.toList then some ⟨flag, spelling, none⟩
    else none

/-- Whether the text is a negative number: digits, or a point with digits after it.  A line feed
may follow. -/
def isNegativeNumber : List Char → Bool
  | '-' :: rest =>
    let size := dropFinalNewline rest
    let whole := size.takeWhile Text.isDecimal
    match size.drop whole.length with
    | [] => !whole.isEmpty
    | '.' :: fraction => !fraction.isEmpty && fraction.all Text.isDecimal
    | _ => false
  | _ => false

/-- What an argument is. -/
def tellWord (flags : List Flag) (argument : String) : Except ArgumentFault Word :=
  match argument.toList with
  | '-' :: second :: _ =>
    match (spellingsOf flags).lookup argument with
    | some flag => .ok (.flag ⟨flag, argument, none⟩)
    | none =>
      let given? := do
        let (name, value) ← splitEquals? argument.toList
        let flag ← (spellingsOf flags).lookup name
        return (⟨flag, name, some value⟩ : Found)
      match given? with
      | some found => .ok (.flag found)
      | none =>
        match if second = '-' then longMatches flags argument else shortMatches flags argument with
        | [found] => .ok (.flag found)
        | first :: more => .error (.ambiguous argument ((first :: more).map (·.spelling)))
        | [] =>
          if isNegativeNumber argument.toList || argument.toList.contains ' ' then .ok .operand
          else .ok .unknownFlag
  | _ => .ok .operand

def tellWords (flags : List Flag) : List String → Except ArgumentFault (List (String × Word))
  | [] => .ok []
  | "--" :: rest => .ok (("--", .separator) :: rest.map (·, .operand))
  | argument :: rest => do
    let word ← tellWord flags argument
    return (argument, word) :: (← tellWords flags rest)

/-! ### Taking flags -/

/-- The whole number that a text spells: an optional sign and digits of any script, with white
space around them and single underscores between them allowed. -/
def integerOf? (word : String) : Option Int :=
  let (negative, digits) := splitAnySign (Text.trim word.toList)
  if (digits.filter (· ≠ '_')).length ≤ maxDigits then readGrouped? Text.isDecimal negative digits
  else none

namespace Arguments

/-- A value that is one of the words that a flag allows. -/
def chosen (flag : Flag) (value : String) : Except ArgumentFault String :=
  if flag.choices.contains value then .ok value
  else .error (.noneOf flag.name value flag.choices)

def take (a : Arguments) (flag : Flag) (value : String) : Except ArgumentFault Arguments := do
  match flag with
  | .help => return a
  | .config => return { a with config := some (.ofString value) }
  | .sourceDir => return { a with sourceDirs := a.sourceDirs ++ [.ofString value] }
  | .outputDir => return { a with outputDir := some (.ofString value) }
  | .cacheDir => return { a with cacheDir := some (.ofString value) }
  | .stringType => return { a with stringType := some (← chosen flag value) }
  | .fieldVisibility => return { a with visibility := some value }
  | .disableDecimal => return { a with disablesDecimals := true }
  | .useNamespace => return { a with checksLayout := true }
  | .cacheStrategy => return { a with strategy := some (← chosen flag value) }
  | .workers =>
    match integerOf? value with
    | some n => return { a with workers := some n }
    | none => .error (.noWhole flag value)
  | .format =>
    let word ← chosen flag value
    return { a with format := (OutputFormat.ofName? word).getD a.format }

end Arguments

/-- Checks the letters after a short flag that takes no value: each has to be a flag too, and one
that takes a value takes the rest or else the next argument. -/
def checkCluster (flags : List Flag) (flag : Flag) (hasNext : Bool) :
    List Char → Except ArgumentFault Unit
  | [] => .ok ()
  | c :: rest =>
    match (spellingsOf flags).lookup (String.ofList ['-', c]) with
    | none => .error (.unwantedValue flag (String.ofList (c :: rest)))
    | some next =>
      if next.takesValue then
        if rest.isEmpty && !hasNext then .error (.noValue next) else .ok ()
      else checkCluster flags next hasNext rest

def nextIsOperand : List (String × Word) → Bool
  | (_, .operand) :: _ => true
  | _ => false

/-- What comes of asking for help, given the value that came with the flag. -/
def askHelp (flags : List Flag) (verb : Option Verb) (found : Found) (hasNext : Bool) : Stop :=
  match found.value with
  | none => .help verb
  | some value =>
    if found.spelling = "-h" && value ≠ "" then
      match checkCluster flags .help hasNext value.toList with
      | .ok _ => .help verb
      | .error cause => .fault verb cause
    else .fault verb (.unwantedValue .help value)

/-- Takes the flags after a command; the arguments that are none of them are left over. -/
def takeFlags (verb : Verb) :
    List (String × Word) → Arguments → Except Stop (Arguments × List String)
  | [], a => .ok (a, [])
  | (argument, word) :: rest, a =>
    let failed {α : Type} (cause : ArgumentFault) : Except Stop α :=
      .error (.fault (some verb) cause)
    let located {α : Type} (r : Except ArgumentFault α) : Except Stop α :=
      r.mapError (.fault (some verb))
    match word with
    | .flag found =>
      let flag := found.flag
      if flag = .help then .error (askHelp Flag.all (some verb) found (nextIsOperand rest))
      else if flag.takesValue then
        match found.value, rest with
        | some value, rest => do takeFlags verb rest (← located (a.take flag value))
        | none, (value, .operand) :: rest => do
          takeFlags verb rest (← located (a.take flag value))
        | none, _ => failed (.noValue flag)
      else
        match found.value with
        | some value => failed (.unwantedValue flag value)
        | none => do takeFlags verb rest (← located (a.take flag ""))
    | _ => do
      let (a, left) ← takeFlags verb rest a
      return (a, argument :: left)

def takeCommand (word : String) (arguments : List String) :
    Except Stop (Arguments × List String) :=
  match Verb.ofName? word with
  | none => .error (.fault none (.noneOf "command" word (Verb.all.map Verb.name)))
  | some verb =>
    match tellWords Flag.all arguments with
    | .error cause => .error (.fault (some verb) cause)
    | .ok words => takeFlags verb words { verb }

/-- Takes the arguments up to the command, and then the command with its own. -/
def takeLine : List (String × Word) → Except Stop (Arguments × List String)
  | [] => .error (.fault none .noCommand)
  | (argument, word) :: rest =>
    match word with
    | .operand => takeCommand argument (rest.map (·.1))
    | .separator =>
      if rest.isEmpty then .error (.fault none .noCommand)
      else takeCommand argument (rest.map (·.1))
    | .flag found => .error (askHelp Flag.general none found (nextIsOperand rest))
    | .unknownFlag => do
      let (a, left) ← takeLine rest
      return (a, argument :: left)

/-- What a command line says. -/
def readArguments (line : List String) : Except Stop Arguments :=
  match tellWords Flag.general line with
  | .error cause => .error (.fault none cause)
  | .ok words =>
    match takeLine words with
    | .error stop => .error stop
    | .ok (a, []) => .ok a
    | .ok (_, left) => .error (.fault none (.unrecognized left))

namespace Arguments

/-- The values of settings that the arguments give. -/
def values (a : Arguments) : Values :=
  let path (p : Path) : Yaml := .string p.text
  List.filterMap (fun (key, value) => value.map (key, ·))
    [ ("source_dirs", if a.sourceDirs.isEmpty then none else some (.list (a.sourceDirs.map path))),
      ("output_dir", a.outputDir.map path),
      ("cache_dir", a.cacheDir.map path),
      ("string_type", a.stringType.map .string),
      ("field_visibility", a.visibility.map .string),
      ("cache_strategy", a.strategy.map .string),
      ("max_workers", a.workers.map .int),
      ("enable_decimal_logical_type", if a.disablesDecimals then some (.bool false) else none),
      ("use_namespace", if a.checksLayout then some (.bool true) else none) ]

/-- The settings of a run: the arguments win over the project file that they name, and that over
the environment. -/
def settings (a : Arguments) (disk : Disk) (env : Environment) : Except SettingsFault Settings :=
  match a.config with
  | some path => Settings.ofFile disk path env a.values
  | none => Settings.ofValues env a.values

end Arguments

end Avroc
