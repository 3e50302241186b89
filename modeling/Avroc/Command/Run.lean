import Avroc.Command.Arguments
import Avroc.Project

/-!
# Running commands

What the program prints, logs and leaves behind.

* `runCommand` : the program with a command line.
-/

namespace Avroc

/-- How a run ends. -/
inductive Ending
  /-- With a status. -/
  | exit (status : Nat)
  /-- By an error that is none of the sources. -/
  | failure (error : Error)
  /-- By settings that cannot be had. -/
  | noSettings (fault : SettingsFault)
deriving Inhabited

/-- How a run ends, with what it printed on either stream and the lines of its log. -/
structure Outcome where
  ending : Ending
  stdout : String := ""
  stderr : String := ""
  log : List String := []
deriving Inhabited

def asLine (s : String) : String :=
  s ++ "\n"

/-! ### Printing results -/

def generatedText (format : OutputFormat) (paths : List Path) : String :=
  match format with
  | .json => asLine (Json.array (paths.map fun p => .string p.text)).renderIndented
  | .text => String.join (paths.map fun p => asLine p.text)

def SourceFormat.label : SourceFormat → String
  | idl => "idl"
  | schema => "schema"
  | protocol => "protocol"

def formLines (format : SourceFormat) (sources : List SourceInput) : List String :=
  ("  " ++ format.label ++ ": " ++ toString sources.length ++ " file(s)") ::
    sources.map fun source => "    " ++ source.path.text

/-- The sources of a form as a member of an object. -/
def formMember (format : SourceFormat) (sources : List SourceInput) : String × Json :=
  (format.label, .array (sources.map fun source => .string source.path.text))

def scannedText (format : OutputFormat)
    (found : List (Path × List (SourceFormat × List SourceInput))) : String :=
  match format with
  | .json =>
    let members : Members := found.map fun (source, forms) =>
      (source.text, .object (forms.map fun (form, sources) => formMember form sources))
    asLine (Json.object members).renderIndented
  | .text =>
    let lines := found.flatMap fun (source, forms) =>
      (source.text ++ ":") :: forms.flatMap fun (form, sources) => formLines form sources
    String.join (lines.map asLine)

def stateText (stale : Bool) : String :=
  if stale then "stale" else "up-to-date"

def statusText (format : OutputFormat) (states : List (Path × Bool)) : String :=
  match format with
  | .json => asLine (Json.object (states.map fun (source, stale) =>
      (source.text, .string (stateText stale)))).renderIndented
  | .text => String.join (states.map fun (source, stale) =>
      asLine ("  [" ++ stateText stale ++ "] " ++ source.text))

/-- Does what a command says; what it prints. -/
def perform (a : Arguments) (s : Settings) : Build String := do
  match a.verb with
  | .generate => return generatedText a.format (← s.generate)
  | .clean =>
    s.clean
    return asLine ("Removed " ++ s.outputDir.text ++ " and " ++ s.cacheDir.text)
  | .scan => return scannedText a.format (← s.scan)
  | .status => return statusText a.format (← s.status)

/-! ### Runs -/

/-- The lines of a log that the settings ask for. -/
def shownLog (s : Settings) (records : List LogRecord) : List String :=
  (records.filter s.shows).map s.logLine

/-- What the program prints when it stops at its command line. -/
def Stop.outcome : Stop → Outcome
  | .help verb => { ending := .exit 0, stdout := helpText verb }
  | .fault verb cause =>
    { ending := .exit 2
      stderr := usage verb ++ asLine (programName verb ++ ": error: " ++ cause.message) }

/-- Runs a step with an empty log; its result, the log, and the state after it. -/
def runLogged {α : Type} (step : Build α) (w : World) :
    Except Error α × List LogRecord × World :=
  let (result, after) := step.run { w with log := [] }
  (result, after.log, { after with log := w.log })

def runCommand (line : List String) (env : Environment) (w : World) : Outcome × World :=
  match readArguments line with
  | .error stop => (stop.outcome, w)
  | .ok a =>
    match a.settings w.disk env with
    | .error fault =>
      if fault.isReported then
        ({ ending := .exit 2, stderr := asLine ("Invalid configuration: " ++ fault.message) }, w)
      else ({ ending := .noSettings fault }, w)
    | .ok s =>
      let (result, records, after) := runLogged (perform a s) w
      let log := shownLog s records
      match result with
      | .ok text => ({ ending := .exit 0, stdout := text, log }, after)
      | .error e =>
        if e.isReported then
          ({ ending := .exit 1, stderr := asLine ("Error: " ++ e.message), log }, after)
        else ({ ending := .failure e, log }, after)

/-- A generation with the settings of the environment; the status. -/
def generateReporting (s : Settings) : Build Nat := do
  modify fun w => { w with log := w.log ++ s.summary }
  match ← Settings.attempt s.generate with
  | .ok outputs =>
    report .main .info ("Generated " ++ toString outputs.length ++ " source file(s)")
    return 0
  | .error e =>
    if e.isReported then
      report .main .error ("Generation failed: " ++ e.message)
      return 1
    else throw e

/-- The program that only the environment controls. -/
def runEnvironment (env : Environment) (w : World) : Outcome × World :=
  match Settings.ofValues env [] with
  | .error fault => ({ ending := .noSettings fault }, w)
  | .ok s =>
    let (result, records, after) := runLogged (generateReporting s) w
    let log := shownLog s records
    match result with
    | .ok status => ({ ending := .exit status, log }, after)
    | .error e => ({ ending := .failure e, log }, after)

end Avroc
