import Avroc.Idl.Literal

/-!
# Type expressions

The types of the definition language: primitive and logical types by keyword, arrays, maps and
unions, and names of declared types.
-/

namespace Avroc.Idl

/-- A type expression: its type, and whether a question mark made it a union with null. -/
structure TypeExpr where
  type : Schema
  optional : Bool
deriving Inhabited

/-- The primitive type of a keyword, with its logical type. -/
def keywordType? (word : String) : Option Schema :=
  let logical (kind : Primitive) (name : String) : Option Schema :=
    some (.primitive kind [("logicalType", .string name)])
  match word with
  | "date" => logical .int "date"
  | "time_ms" => logical .int "time-millis"
  | "timestamp_ms" => logical .long "timestamp-millis"
  | "local_timestamp_ms" => logical .long "local-timestamp-millis"
  | "uuid" => logical .string "uuid"
  | word => (Primitive.ofName? word).map .plain

/-- The type with properties attached, and the properties that it does not take: named types and
unions take none. -/
def attach (type : Schema) (props : Members) : Schema × Members :=
  if props.isEmpty then (type, [])
  else match type with
    | .primitive kind own => (.primitive kind (Members.update own props), [])
    | .array items own => (.array items (Members.update own props), [])
    | .map values own => (.map values (Members.update own props), [])
    | _ => (type, props)

/-- The declared type of a name, looked for in the namespace of the declaration and then in that
of the protocol. -/
def declaredType (outer space : Option String) (token : Token) : Parsing Schema := do
  let registry := (← get).session.scope.registry
  match (registry.resolve token.value space).or (registry.resolve token.value outer) with
  | some id => return .named id
  | none => failAt token (.undefinedName token.value)

/-- The type of a keyword or of a name. -/
def namedType (outer space : Option String) (token : Token) : Parsing Schema := do
  discard next
  match if token.escaped then none else keywordType? token.value with
  | some type => return type
  | none => declaredType outer space token

def decimalType : Parsing Schema := do
  discard next
  expectPunct "("
  let precision ← integerLiteral
  expectPunct ","
  let scale ← integerLiteral
  expectPunct ")"
  return .primitive .bytes
    [("logicalType", .string "decimal"), ("precision", .int precision), ("scale", .int scale)]

/-- A type that may be followed by a question mark. -/
def optionalType (token : Token) (type : Schema) : Parsing TypeExpr := do
  if ← atPunct "?" then
    discard next
    if type.isUnion then failHere .optionalUnion
    else return ⟨← locating token (makeUnion [.plain .null, type]), true⟩
  else return ⟨type, false⟩

/-- A type that starts with a token, before a question mark, with the types inside it read by
`part`. -/
def insideType (outer space : Option String) (part : Parsing TypeExpr) (token : Token) :
    Parsing Schema := do
  if token.isKeyword "array" then
    discard next
    expectPunct "<"
    let items ← part
    expectPunct ">"
    return .array items.type []
  else if token.isKeyword "map" then
    discard next
    expectPunct "<"
    let values ← part
    expectPunct ">"
    return .map values.type []
  else if token.isKeyword "union" then
    discard next
    expectPunct "\x7b"
    let branches ← commaList part
    expectPunct "\x7d"
    locating token (makeUnion (branches.map (·.type)))
  else if token.isKeyword "decimal" then decimalType
  else namedType outer space token

/-- A type expression inside namespace `space` of a protocol in namespace `outer`, with the types
inside it read by `part`. -/
def typeOf (outer space : Option String) (part : Parsing TypeExpr) : Parsing TypeExpr := do
  let props ← properties
  let token ← peek
  if token.kind ≠ .ident then failHere (.expectedType token.found)
  else
    let type ← insideType outer space part token
    optionalType token (attach type props).1

/-- A type expression, nested less than `depth` deep. -/
def typeWithin (outer space : Option String) : Nat → Parsing TypeExpr
  | 0 => do failHere (.expectedType (← peek).found)
  | depth + 1 => typeOf outer space (typeWithin outer space depth)

/-- A type expression.  Each level of nesting takes a token. -/
def typeExpr (outer space : Option String) : Parsing TypeExpr := do
  typeWithin outer space (← get).tokens.length

end Avroc.Idl
