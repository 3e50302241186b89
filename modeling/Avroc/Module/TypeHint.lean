import Avroc.Error.Basic
import Avroc.Module.Imports
import Avroc.Module.Options

/-!
# Type hints

The Python type hint of a type.

* `Schema.typeHint` : the type hint of a type.
-/

namespace Avroc

/-- A step in writing a module. -/
abbrev Rendering := StateT ImportTable (Except Misuse)

def libraryAlias (library : Library) (needed : Bool) : Rendering String :=
  modifyGet (·.withLibrary library needed)

/-- The local name of a type. -/
def typeReference (c : Catalog) (id : TypeId) : Rendering String :=
  modifyGet (·.withReference (c.definition id))

/-! ### Logical types -/

/-- The class for a point or span of time, by logical type. -/
def timeClass? : String → Option String
  | "date" => some "date"
  | "time-millis" | "time-micros" => some "time"
  | "timestamp-millis" | "timestamp-micros" => some "datetime"
  | "local-timestamp-millis" | "local-timestamp-micros" => some "datetime"
  | _ => none

/-- Whether attributes make bytes a decimal: a positive precision and a scale up to it. -/
def isDecimal (props : Members) : Bool :=
  match props.get? "logicalType", (props.get? "precision").bind Json.wholeNumber?,
      ((props.get? "scale").getD (.int 0)).wholeNumber? with
  | some (.string "decimal"), some precision, some scale =>
    0 < precision && 0 ≤ scale && scale ≤ precision
  | _, _, _ => false

/-- The class for a point or span of time.  A logical type that is an array or an object cannot
be looked up. -/
def timeClass (props : Members) : Except Misuse (Option String) :=
  match props.get? "logicalType" with
  | some (.string s) => .ok (timeClass? s)
  | some (.array items) => .error (.unhashable (Json.array items).kind)
  | some (.object members) => .error (.unhashable (Json.object members).kind)
  | _ => .ok none

/-! ### Hints -/

/-- The hint of a primitive type without its logical type. -/
def primitiveHint (o : CompileOptions) : Primitive → String
  | .null => "None"
  | .boolean => "bool"
  | .int | .long => "int"
  | .float | .double => "float"
  | .bytes => "bytes"
  | .string => o.stringType.hint

/-- Whether a primitive type can count time. -/
def countsTime : Primitive → Bool
  | .int | .long => true
  | _ => false

def decimalHint : Rendering String := do
  return (← libraryAlias .decimal false) ++ ".Decimal"

def logicalHint (o : CompileOptions) (kind : Primitive) (props : Members) : Rendering String := do
  if o.decimals && kind = .bytes && isDecimal props then decimalHint
  else
    match ← timeClass props with
    | some name =>
      if countsTime kind then return (← libraryAlias .datetime false) ++ "." ++ name
      else return primitiveHint o kind
    | none => return primitiveHint o kind

def referenceHint (c : Catalog) (o : CompileOptions) (id : TypeId) : Rendering String := do
  let d := c.definition id
  match d.body with
  | .fixed _ => if o.decimals && isDecimal d.props then decimalHint else typeReference c id
  | _ => typeReference c id

/-- Adds the alternatives of a hint that are not there yet. -/
def addAlternatives (parts : List String) (hint : String) : List String :=
  (Text.splitAtWord " | " hint).foldl
    (fun parts part => if parts.contains part then parts else parts ++ [part]) parts

/-- The hint of a union: the alternatives of its branches, and `None` at the end if one of them is
null. -/
def unionHint (hints : List String) (nullable : Bool) : String :=
  match hints.foldl addAlternatives [] ++ (if nullable then ["None"] else []) with
  | [] => "None"
  | parts => " | ".intercalate parts

namespace Schema

mutual

def typeHint (c : Catalog) (o : CompileOptions) : Schema → Rendering String
  | primitive kind props => logicalHint o kind props
  | array items _ => do
    return "list[" ++ (← typeHint c o items) ++ "]"
  | map values _ => do
    return "dict[" ++ o.stringType.hint ++ ", " ++ (← typeHint c o values) ++ "]"
  | union branches => do
    return unionHint (← branchHints c o branches) (branches.any isNull)
  | named id => referenceHint c o id
termination_by structural s => s

/-- The type hints of the branches of a union that are not null. -/
def branchHints (c : Catalog) (o : CompileOptions) : List Schema → Rendering (List String)
  | [] => pure []
  | branch :: rest => do
    if branch.isNull then branchHints c o rest
    else
      let hint ← typeHint c o branch
      let hints ← branchHints c o rest
      return hint :: hints
termination_by structural branches => branches

end

end Schema

end Avroc
