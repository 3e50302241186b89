import Avroc.Json.Printer

/-!
# Log

What a build reports while it runs.

* `LogRecord.line`, `LogRecord.jsonLine` : the two layouts of a record.
-/

namespace Avroc

/-- How grave a report is. -/
inductive LogLevel
  | debug
  | info
  | warning
  | error
deriving DecidableEq, Repr, Inhabited

namespace LogLevel

/-- The name of a level in a log line. -/
def name : LogLevel → String
  | debug => "DEBUG"
  | info => "INFO"
  | warning => "WARNING"
  | error => "ERROR"

def rank : LogLevel → Nat
  | debug => 10
  | info => 20
  | warning => 30
  | error => 40

/-- The capital of a character, as far as level names need one. -/
def capital (c : Char) : Char :=
  if c = 'ı' then 'I' else if c = 'ſ' then 'S' else c.toUpper

/-- The least rank that a setting asks to see, in letters of either case; a name that is no level
asks for what `info` shows. -/
def leastRank (setting : String) : Nat :=
  match String.ofList (setting.toList.map capital) with
  | "NOTSET" => 0
  | "DEBUG" => 10
  | "WARN" => 30
  | "WARNING" => 30
  | "ERROR" => 40
  | "CRITICAL" => 50
  | "FATAL" => 50
  | _ => 20

end LogLevel

/-- The part of the program that reports. -/
inductive LogSource
  | cache
  | compilers
  | orchestrator
  | registry
  | codegen
  | generator
  | config
  | main
  | scanner
  | idl
deriving DecidableEq, Repr, Inhabited

def LogSource.name : LogSource → String
  | cache => "avrogen.cache"
  | compilers => "avrogen.compiler.compilers"
  | orchestrator => "avrogen.compiler.orchestrator"
  | registry => "avrogen.schema.registry"
  | codegen => "avrogen.codegen"
  | generator => "avrogen.generator"
  | config => "avrogen.config"
  | main => "avrogen.main"
  | scanner => "avrogen.compiler.scanner"
  | idl => "avrogen.schema.idl"

/-- A report. -/
structure LogRecord where
  source : LogSource
  level : LogLevel
  message : String
deriving DecidableEq, Repr, Inhabited

namespace LogRecord

def line (r : LogRecord) : String :=
  r.source.name ++ " - " ++ r.level.name ++ " - " ++ r.message

def jsonLine (r : LogRecord) : String :=
  (Json.object [("message", .string r.message)]).render

end LogRecord

end Avroc
