import Avroc.Error.Basic

/-!
# Source formats

The three forms of Avro sources, told apart by the extensions of their files.
-/

namespace Avroc

/-- The form of a source file: the definition language, a schema or a protocol in JSON. -/
inductive SourceFormat
  | idl
  | schema
  | protocol
deriving DecidableEq, Repr, Inhabited

namespace SourceFormat

/-- The forms in the order in which they are compiled. -/
def all : List SourceFormat :=
  [idl, schema, protocol]

def extension : SourceFormat → String
  | idl => ".avdl"
  | schema => ".avsc"
  | protocol => ".avpr"

def name : SourceFormat → String
  | idl => "IDL"
  | schema => "SCHEMA"
  | protocol => "PROTOCOL"

/-- The form of a file, by its extension. -/
def ofPath? (path : Path) : Option SourceFormat :=
  all.find? (·.extension = path.suffix)

end SourceFormat

/-- A source file and its form. -/
structure SourceInput where
  path : Path
  format : SourceFormat
deriving DecidableEq, Repr, Inhabited

def SourceInput.ofText (text : String) : Except Error SourceInput :=
  let path := Path.ofString text
  match SourceFormat.ofPath? path with
  | some format => .ok ⟨path, format⟩
  | none => .error (.choice (.sourceFile text))

end Avroc
