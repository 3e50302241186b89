import Avroc.Json.Value
import Avroc.Name

/-!
# Schemas

The types of Avro.  Records, enums and fixed types have names and may refer to themselves, so a
schema mentions a named type by its identity, the place of its definition in a catalog.
-/

namespace Avroc

/-- The primitive types. -/
inductive Primitive
  | null
  | boolean
  | int
  | long
  | float
  | double
  | bytes
  | string
deriving DecidableEq, Repr, Inhabited

namespace Primitive

def name : Primitive → String
  | null => "null"
  | boolean => "boolean"
  | int => "int"
  | long => "long"
  | float => "float"
  | double => "double"
  | bytes => "bytes"
  | string => "string"

def ofName? : String → Option Primitive
  | "null" => some null
  | "boolean" => some boolean
  | "int" => some int
  | "long" => some long
  | "float" => some float
  | "double" => some double
  | "bytes" => some bytes
  | "string" => some string
  | _ => none

end Primitive

/-- The identity of a named type. -/
structure TypeId where
  index : Nat
deriving DecidableEq, Repr, Inhabited

/-- A type.  Attributes without a meaning of their own are kept beside it. -/
inductive Schema
  | primitive (kind : Primitive) (props : Members)
  | array (items : Schema) (props : Members)
  | map (values : Schema) (props : Members)
  | union (branches : List Schema)
  | named (id : TypeId)
deriving Inhabited

def Schema.plain (kind : Primitive) : Schema :=
  .primitive kind []

/-- A field of a record or a parameter of a message.  Its order and its aliases are kept as they
were written. -/
structure Field where
  name : String
  type : Schema
  doc : Option String
  default : Option Json
  order : Json
  aliases : Json
  props : Members
deriving Inhabited

/-- What a named type consists of. -/
inductive Body
  | record (isError : Bool) (fields : List Field)
  | enum (symbols : List String) (default : Option String)
  | fixed (size : Int)
deriving Inhabited

def Body.typeName : Body → String
  | record isError _ => if isError then "error" else "record"
  | enum .. => "enum"
  | fixed .. => "fixed"

/-- The fields of a record; the other types have none. -/
def Body.fields : Body → List Field
  | record _ fields => fields
  | _ => []

/-- A named type. -/
structure Definition where
  name : String
  space : Option String
  doc : Option String
  aliases : List Json
  props : Members
  body : Body
deriving Inhabited

def Definition.fullName (d : Definition) : String :=
  joinName d.name d.space

/-- A record with one more field. -/
def Definition.addField (d : Definition) (field : Field) : Definition :=
  match d.body with
  | .record isError fields => { d with body := .record isError (fields ++ [field]) }
  | _ => d

/-- The named types defined so far, in order. -/
structure Catalog where
  definitions : List Definition
deriving Inhabited

namespace Catalog

def empty : Catalog := ⟨[]⟩

def size (c : Catalog) : Nat :=
  c.definitions.length

def definition (c : Catalog) (id : TypeId) : Definition :=
  c.definitions.getD id.index default

def fullName (c : Catalog) (id : TypeId) : String :=
  (c.definition id).fullName

def add (c : Catalog) (d : Definition) : TypeId × Catalog :=
  (⟨c.size⟩, ⟨c.definitions ++ [d]⟩)

def modify (c : Catalog) (id : TypeId) (f : Definition → Definition) : Catalog :=
  ⟨c.definitions.modify id.index f⟩

end Catalog

namespace Schema

def typeName (c : Catalog) : Schema → String
  | primitive kind _ => kind.name
  | array .. => "array"
  | map .. => "map"
  | union _ => "union"
  | named id => (c.definition id).body.typeName

/-- The attributes kept beside a type. -/
def props (c : Catalog) : Schema → Members
  | primitive _ props => props
  | array _ props => props
  | map _ props => props
  | union _ => []
  | named id => (c.definition id).props

def isNull : Schema → Bool
  | primitive .null _ => true
  | _ => false

def isUnion : Schema → Bool
  | union _ => true
  | _ => false

/-- What tells the branches of a union apart: the full name of a named type, the name of the kind
of any other. -/
def branchKey (c : Catalog) : Schema → String
  | named id => c.fullName id
  | s => s.typeName c

end Schema

end Avroc
