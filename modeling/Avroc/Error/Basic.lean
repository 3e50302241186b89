import Avroc.Error.Fault
import Avroc.File.Path
import Avroc.Json.Reader
import Avroc.Text.Utf8

/-!
# Errors

Everything that can stop the compilation of Avro sources.
-/

namespace Avroc

/-- Why an operation on files failed. -/
inductive DiskProblem
  | missing
  | taken
  | notDirectory
  | isDirectory
deriving DecidableEq, Repr, Inhabited

namespace DiskProblem

def number : DiskProblem → Nat
  | missing => 2
  | taken => 17
  | notDirectory => 20
  | isDirectory => 21

def text : DiskProblem → String
  | missing => "No such file or directory"
  | taken => "File exists"
  | notDirectory => "Not a directory"
  | isDirectory => "Is a directory"

end DiskProblem

/-- A failed operation on files, with the place as it is shown. -/
structure DiskFault where
  problem : DiskProblem
  place : String
deriving DecidableEq, Repr, Inhabited

def DiskFault.at (problem : DiskProblem) (path : String) : DiskFault :=
  ⟨problem, Text.quote path⟩

def DiskFault.message (fault : DiskFault) : String :=
  "[Errno " ++ toString fault.problem.number ++ "] " ++ fault.problem.text ++ ": " ++ fault.place

/-- Why a file has no text: it cannot be reached, or its bytes spell none. -/
inductive ReadFault
  | disk (fault : DiskFault)
  | encoding (fault : Text.Utf8Fault)
deriving Repr, Inhabited

def ReadFault.message : ReadFault → String
  | disk fault => fault.message
  | encoding fault => fault.message

/-- What could not be done with a file. -/
inductive FileFault
  | unreadableSource (cause : ReadFault)
  | unwritableModule (cause : DiskFault)
  | unstampedInput (cause : DiskFault)
  | unwritableEntry (cause : DiskFault)
  | stated (message : String)
deriving Repr, Inhabited

def FileFault.message : FileFault → String
  | unreadableSource cause => "cannot read source: " ++ cause.message
  | unwritableModule cause => "cannot write generated source: " ++ cause.message
  | unstampedInput cause => "cannot stamp input: " ++ cause.message
  | unwritableEntry cause => "cannot write cache entry: " ++ cause.message
  | stated text => text

/-- A value of the wrong kind. -/
inductive Misuse
  | unhashable (kind : String)
  | notIterable (kind : String)
  | lacks (kind member : String)
  | noSubscript (kind : String)
  | listIndex
  | textIndex
  | notAPair (index : Nat)
  | pairLength (index length : Nat)
  | notAPath (kind : String)
  | notAPathPart (kind : String)
  | keysNotTexts
  | unnamedType (type : String)
  | notOrdered (left right : String)
deriving DecidableEq, Repr, Inhabited

def Misuse.message : Misuse → String
  | unhashable kind => "unhashable type: '" ++ kind ++ "'"
  | notIterable kind => "'" ++ kind ++ "' object is not iterable"
  | lacks kind member => "'" ++ kind ++ "' object has no attribute '" ++ member ++ "'"
  | noSubscript kind => "'" ++ kind ++ "' object is not subscriptable"
  | listIndex => "list indices must be integers or slices, not str"
  | textIndex => "string indices must be integers, not 'str'"
  | notAPair index =>
    "cannot convert dictionary update sequence element #" ++ toString index ++ " to a sequence"
  | pairLength index length =>
    "dictionary update sequence element #" ++ toString index ++ " has length " ++
      toString length ++ "; 2 is required"
  | notAPath kind => "expected str, bytes or os.PathLike object, not " ++ kind
  | notAPathPart kind => "unsupported operand type(s) for /: 'PosixPath' and '" ++ kind ++ "'"
  | keysNotTexts => "keywords must be strings"
  | unnamedType type => "Cannot generate code for " ++ type
  | notOrdered left right =>
    "'<' not supported between instances of '" ++ left ++ "' and '" ++ right ++ "'"

/-- A word that spells none of the choices there are. -/
inductive ChoiceFault
  | stringType (word : String)
  | visibility (word : String)
  | strategy (value : Json)
  | logFormat (word : String)
  | sourceFile (path : String)
deriving Inhabited

def ChoiceFault.message : ChoiceFault → String
  | stringType word =>
    "Invalid string type '" ++ word ++ "'. Valid types: ['CharSequence', 'String', 'Utf8']"
  | visibility word =>
    "Invalid field visibility '" ++ word ++
      "'. Valid values: ['private', 'public', 'public_deprecated']"
  | strategy value => value.literal ++ " is not a valid CacheStrategy"
  | logFormat word => "Invalid log format '" ++ word ++ "'. Must be one of: text, json"
  | sourceFile path => "Not an Avro source file: " ++ path

/-- An error. -/
inductive Error
  /-- A definition is refused, at a place if one is known. -/
  | parse (fault : Fault) (path : Option Path) (line : Option Int)
  /-- A type is declared in a file that its full name does not lead to. -/
  | layout (path : Path) (expected fullName : String)
  /-- A file cannot be read or written. -/
  | file (fault : FileFault) (path : Option Path)
  /-- Any other error about the sources, with a code and details. -/
  | general (message code : String) (details : Members)
  | disk (fault : DiskFault)
  | encoding (fault : Text.Utf8Fault)
  | tooManyDigits (count : Nat)
  | malformedJson (problem : JsonProblem) (text : List Char) (position : Nat)
  | misuse (cause : Misuse)
  | missingKey (key : String)
  | choice (fault : ChoiceFault)
deriving Inhabited

namespace Error

/-- The place before a message. -/
def locationText (path : Option Path) (line : Option Int) : String :=
  match path, line with
  | some p, some n => p.text ++ ":" ++ toString n ++ ": "
  | some p, none => p.text ++ ": "
  | none, some n => "line " ++ toString n ++ ": "
  | none, none => ""

def message : Error → String
  | parse fault path line => locationText path line ++ fault.message
  | layout path expected fullName =>
    path.text ++ ": type '" ++ fullName ++ "' must be declared in '" ++ expected ++ "'"
  | file fault path => locationText path none ++ fault.message
  | general text _ _ => text
  | disk fault => fault.message
  | encoding fault => fault.message
  | tooManyDigits count =>
    "Exceeds the limit (4300 digits) for integer string conversion: value has " ++
      toString count ++ " digits; use sys.set_int_max_str_digits() to increase the limit"
  | malformedJson problem text position => problem.located text position
  | misuse cause => cause.message
  | missingKey key => Text.quote key
  | choice fault => fault.message

/-- Whether the error is about the sources and files of a build. -/
def isReported : Error → Bool
  | parse .. | layout .. | file .. | general .. => true
  | _ => false

/-- Whether the error is a name that nothing defines. -/
def isUndefinedName : Error → Bool
  | parse fault _ _ => fault.isUndefinedName
  | _ => false

/-- The error with its place set to a path. -/
def withPath (path : Path) : Error → Error
  | parse fault _ line => parse fault (some path) line
  | e => e

/-- The code of an error about the sources. -/
def code? : Error → Option String
  | parse .. => some "PARSE_ERROR"
  | layout .. => some "NAMESPACE_LAYOUT_ERROR"
  | file .. => some "IO_ERROR"
  | general _ code _ => some code
  | _ => none

def optionalText (s : Option String) : Json :=
  match s with
  | some text => .string text
  | none => .null

/-- The details of an error about the sources. -/
def details : Error → Members
  | parse _ path line =>
    [("path", optionalText (path.map Path.text)), ("line", (line.map Json.int).getD .null)]
  | layout path expected fullName =>
    [("path", .string path.text), ("expected", .string expected), ("fullname", .string fullName)]
  | file _ path => [("path", optionalText (path.map Path.text))]
  | general _ _ details => details
  | _ => []

end Error

end Avroc
