import Avroc.Schema.Scope

/-!
# Schema documents

The type that a JSON value describes.  A string is the name of a type, an array is a union, and an
object describes a type by its attributes; a name is looked up in the namespace around it.

* `readField` : the field of a JSON value.
* `readSchemaText` : the type of a document.

Reading follows the value: the types and fields inside an object are prepared as steps, one for
each member, and the object decides which of them to take.
-/

namespace Avroc

/-- How the type of a JSON value is read inside a namespace. -/
abbrev TypeReader := Space → Reading Schema

/-- How the field of a JSON value is read inside a namespace. -/
abbrev FieldReader := Space → Reading Field

/-- The type of a name. -/
def resolveType (name : String) : TypeReader := fun space => do
  match Primitive.ofName? name with
  | some kind => pure (.plain kind)
  | none =>
    match (← get).registry.resolve name space.text? with
    | some id => pure (.named id)
    | none => refuse (.undefinedName name)

/-! ### Attributes -/

/-- The attributes of a type that have a meaning of their own. -/
def typeAttributes : List String :=
  ["type", "name", "namespace", "doc", "aliases", "fields", "symbols", "size", "items", "values",
    "default"]

/-- The attributes of a field that have a meaning of their own. -/
def fieldAttributes : List String :=
  ["name", "type", "doc", "default", "order", "aliases"]

/-- The documentation; anything but a text is none. -/
def docOf (members : Members) : Option String :=
  match members.get? "doc" with
  | some (.string s) => some s
  | _ => none

def isText : Json → Bool
  | .string _ => true
  | _ => false

def readAliases (members : Members) : Reading (List Json) :=
  match members.get? "aliases" with
  | none => pure []
  | some (.array items) =>
    if items.all isText then pure items else refuse (.aliasesNotTexts (.array items))
  | some v => refuse (.aliasesNotTexts v)

/-- The namespace that a definition gives, or else the one around it. -/
def readSpace (members : Members) (space : Space) : Reading (Option String) :=
  match members.get? "namespace" with
  | some (.string s) => pure (some s)
  | some .null => pure none
  | some v => refuse (.namespaceNotText v)
  | none =>
    match space with
    | .root => pure none
    | .named s => pure (some s)
    | .odd v => refuse (.namespaceNotText v)

/-- The simple name and the namespace of a definition. -/
def readName (members : Members) (space : Space) : Reading (String × Option String) := do
  match members.get? "name" with
  | some (.string written) =>
    if written = "" then refuse (.noName (.object members))
    else
      let (name, space) := splitName written (← readSpace members space)
      checkName name
      checkSpace space
      return (name, space)
  | _ => refuse (.noName (.object members))

/-! ### Definitions -/

/-- Reads fields one after the other, each added to the record before the next is read. -/
def readFields (id : TypeId) (space : Space) : List FieldReader → Reading Unit
  | [] => pure ()
  | read :: rest => do
    addField id (← read space)
    readFields id space rest

def readRecord (isError : Bool) (members : Members) (fields : List FieldReader) : TypeReader :=
  fun around => do
    let (name, space) ← readName members around
    match members.get? "fields" with
    | some (.array _) =>
      let aliases ← readAliases members
      let id ← define
        { name, space, doc := docOf members, aliases, props := members.without typeAttributes,
          body := .record isError [] }
      readFields id (.ofName space) fields
      return .named id
    | _ => refuse (.noFields (.object members))

def readEnum (members : Members) : TypeReader := fun around => do
  let (name, space) ← readName members around
  match members.get? "symbols" with
  | some (.array written) =>
    let aliases ← readAliases members
    let symbols ← checkSymbols [] written
    let default ← checkEnumDefault symbols ((members.get? "default").getD .null)
    let id ← define
      { name, space, doc := docOf members, aliases, props := members.without typeAttributes,
        body := .enum symbols default }
    return .named id
  | _ => refuse (.noSymbols (.object members))

def readFixed (members : Members) : TypeReader := fun around => do
  let (name, space) ← readName members around
  match members.get? "size" with
  | some (.int size) =>
    if size < 0 then refuse (.badSize (.object members))
    else
      let aliases ← readAliases members
      let id ← define
        { name, space, doc := docOf members, aliases, props := members.without typeAttributes,
          body := .fixed size }
      return .named id
  | _ => refuse (.badSize (.object members))

def checkOrder (field : String) : Json → Reading Unit
  | .null => pure ()
  | .string s =>
    if s = "ascending" || s = "descending" || s = "ignore" then pure ()
    else refuse (.badOrder field (.string s))
  | .array items => throw (.misuse (.unhashable (Json.array items).kind))
  | .object members => throw (.misuse (.unhashable (Json.object members).kind))
  | v => refuse (.badOrder field v)

def readFieldWith (members : Members) (types : List (String × TypeReader)) : FieldReader :=
  fun space => do
    match members.get? "name" with
    | some (.string name) =>
      checkName name
      match types.lookup "type" with
      | none => refuse (.noFieldType name)
      | some readType =>
        let order := (members.get? "order").getD .null
        checkOrder name order
        let type ← readType space
        let aliases ← readAliases members
        makeField
          { name, type, doc := docOf members, default := members.get? "default", order,
            aliases := .array aliases, props := members.without fieldAttributes }
    | _ => refuse (.noFieldName (.object members))

def readObject (members : Members) (types : List (String × TypeReader))
    (fields : List (String × List FieldReader)) : TypeReader := fun space => do
  let props := members.without typeAttributes
  match members.get? "type", types.lookup "type" with
  | some (.string type), _ =>
    match Primitive.ofName? type with
    | some kind => pure (.primitive kind props)
    | none =>
      match type with
      | "record" => readRecord false members ((fields.lookup "fields").getD []) space
      | "error" => readRecord true members ((fields.lookup "fields").getD []) space
      | "enum" => readEnum members space
      | "fixed" => readFixed members space
      | "array" =>
        match types.lookup "items" with
        | some readItems => return .array (← readItems space) props
        | none => refuse (.noItems (.object members))
      | "map" =>
        match types.lookup "values" with
        | some readValues => return .map (← readValues space) props
        | none => refuse (.noValues (.object members))
      | name => resolveType name space
  | some (.object _), some readType => readType space
  | some (.array _), some readType => readType space
  | some .null, _ => refuse (.noType (.object members))
  | some v, _ => refuse (.typeNotText v)
  | none, _ => refuse (.noType (.object members))

/-! ### Values -/

mutual

def readSchema : Json → TypeReader
  | .string name => resolveType name
  | .array items => fun space => do
    makeUnion (← readBranches items space)
  | .object members => readObject members (memberTypes members) (memberFields members)
  | v => fun _ => refuse (.notASchema v)
termination_by structural v => v

def readBranches : List Json → Space → Reading (List Schema)
  | [] => fun _ => pure []
  | v :: rest => fun space => do
    let branch ← readSchema v space
    let branches ← readBranches rest space
    return branch :: branches
termination_by structural items => items

/-- The members of an object as types. -/
def memberTypes : List (String × Json) → List (String × TypeReader)
  | [] => []
  | (k, v) :: rest => (k, readSchema v) :: memberTypes rest
termination_by structural members => members

/-- The members of an object as lists of fields. -/
def memberFields : List (String × Json) → List (String × List FieldReader)
  | [] => []
  | (k, v) :: rest => (k, fieldList v) :: memberFields rest
termination_by structural members => members

/-- The items of an array as fields. -/
def fieldList : Json → List FieldReader
  | .array items => itemFields items
  | _ => []
termination_by structural v => v

def itemFields : List Json → List FieldReader
  | [] => []
  | v :: rest => readField v :: itemFields rest
termination_by structural items => items

def readField : Json → FieldReader
  | .object members => readFieldWith members (memberTypes members)
  | v => fun _ => refuse (.fieldNotObject v)
termination_by structural v => v

end

/-! ### Documents -/

def loadJson (text : String) : Except Error Json :=
  match Json.parse text with
  | .ok value => .ok value
  | .error (.malformed problem position) =>
    .error (.parse (.invalidJson problem.message) none (some (lineOf text.toList position)))
  | .error (.tooManyDigits count) => .error (.tooManyDigits count)

def readSchemaText (text : String) : Reading Schema := do
  readSchema (← loadJson text) .root

end Avroc
