import Avroc.Idl.TypeExpr
import Avroc.Protocol.Reader

/-!
# Declarations

The members of a protocol: records, errors, enums, fixed types and messages.

* `recordDeclaration`, `enumDeclaration`, `fixedDeclaration` : the named types.
* `messageDeclaration` : a message.
-/

namespace Avroc.Idl

/-! ### Fields -/

/-- The type of a variable: an optional type starts with null, unless the variable has a default
that is not null.  Whether a type is optional is a mark of the expression, which lasts as long as
the declaration. -/
def variableType (expr : TypeExpr) (default : Option Json) : Schema :=
  match expr.optional, expr.type, default with
  | true, .union branches, some .null => .union branches
  | true, .union branches, some _ => .union branches.reverse
  | _, type, _ => type

def defaultValue : Parsing (Option Json) := do
  if ← atPunct "=" then
    discard next
    return some (← jsonValue)
  else return none

/-- A variable of a type: its properties, name and default.  `extra` are the properties of the
declaration that its type did not take. -/
def declarator (expr : TypeExpr) (doc : Option String) (extra : Members) : Parsing Field := do
  let props ← properties
  let token ← peek
  let name ← simpleIdentifier
  locating token (checkName name)
  let default ← defaultValue
  locating token <| makeField
    { name, type := variableType expr default, doc, default,
      order := (props.get? "order").getD .null,
      aliases := (props.get? "aliases").getD (.array []),
      props := Members.update extra (props.without ["order", "aliases"]) }

/-- A type and the variables declared with it. -/
def fieldDeclaration (outer space : Option String) : Parsing (List Field) := do
  let doc := (← peek).doc
  let props ← properties
  let expr ← typeExpr outer space
  let (type, extra) := attach expr.type props
  let fields ← commaList (declarator { expr with type } doc extra)
  expectPunct ";"
  return fields

/-! ### Named types -/

/-- The namespace that a property gives.  Only a text has parts to be checked. -/
def spaceProperty (value : Json) : Parsing (Option String) :=
  match value with
  | .string s => pure (spaceOf s)
  | v => if v.isTruthy then throw (.misuse (.lacks v.kind "split")) else pure none

/-- The namespace of a declared name: its own, or else that of a property. -/
def declaredSpace (written : String) (value : Json) : Parsing (Option String) := do
  let space ←
    if written.toList.contains '.' then pure (splitName written none).2 else spaceProperty value
  reading (checkSpace space)
  return space

def spaceValue (space : Option String) : Json :=
  (space.map Json.string).getD .null

/-- What the declarations of named types start with. -/
structure Header where
  name : String
  space : Option String
  aliases : List Json
  props : Members

/-- The name of a declaration, with the properties that belong to the name taken out. -/
def header (outer : Option String) (props : Members) : Parsing Header := do
  let written ← identifier
  let name := (splitName written none).1
  reading (checkName name)
  let space ← declaredSpace written ((props.get? "namespace").getD (spaceValue outer))
  match (props.get? "aliases").getD (.array []) with
  | .array aliases =>
    return { name, space, aliases, props := props.without ["namespace", "aliases"] }
  | v => failHere (.aliasesNotList v)

def Header.definition (h : Header) (doc : Option String) (body : Body) : Definition :=
  { name := h.name, space := h.space, doc, aliases := h.aliases, props := h.props, body }

/-- The fields of a record, one declaration after the other. -/
def recordField (outer : Option String) (h : Header) (id : TypeId) : Parsing Unit := do
  if (← peek).kind = .eof then failHere (.endInRecord h.name)
  else
    let fields ← fieldDeclaration outer h.space
    locating (← peek) (addFields id fields)

def recordDeclaration (outer : Option String) (props : Members) (doc : Option String) :
    Parsing Unit := do
  let keyword ← next
  let start ← peek
  let h ← header outer props
  let id ← locating start (define (h.definition doc (.record (keyword.value = "error") [])))
  expectPunct "\x7b"
  discard <| many (atPunct "\x7d") (recordField outer h id)
  expectPunct "\x7d"

def enumDefault : Parsing Json := do
  if ← atPunct "=" then
    discard next
    let symbol ← simpleIdentifier
    expectPunct ";"
    return .string symbol
  else return .null

def enumDeclaration (outer : Option String) (props : Members) (doc : Option String) :
    Parsing Unit := do
  expectKeyword "enum"
  let start ← peek
  let h ← header outer props
  expectPunct "\x7b"
  let written ← listUntil "\x7d" simpleIdentifier
  expectPunct "\x7d"
  let default ← enumDefault
  let symbols ← locating start (checkSymbols [] (written.map .string))
  let default ← locating start (checkEnumDefault symbols default)
  discard <| locating start (define (h.definition doc (.enum symbols default)))

def fixedDeclaration (outer : Option String) (props : Members) (doc : Option String) :
    Parsing Unit := do
  expectKeyword "fixed"
  let start ← peek
  let h ← header outer props
  expectPunct "("
  let size ← integerLiteral
  expectPunct ")"
  expectPunct ";"
  discard <| locating start (define (h.definition doc (.fixed size)))

/-! ### Messages -/

/-- The answer of a message; `void` is null. -/
def responseType (outer : Option String) : Parsing Schema := do
  if ← atKeyword "void" then
    discard next
    return .plain .null
  else return (← typeExpr outer outer).type

def parameter (outer : Option String) : Parsing Field := do
  let props ← properties
  let expr ← typeExpr outer outer
  let (type, extra) := attach expr.type props
  declarator { expr with type } none extra

/-- An error that a message may throw. -/
def errorType (outer : Option String) : Parsing TypeId := do
  let token ← peek
  let name ← identifier
  match (← get).session.scope.registry.resolve name outer with
  | some id => locating token (checkErrorType (.named id))
  | none => failAt token (.undefinedName name)

/-- Whether a message is one-way, and its errors. -/
def messageEnd (outer : Option String) : Parsing (Bool × List TypeId) := do
  if ← atKeyword "oneway" then
    discard next
    return (true, [])
  else if ← atKeyword "throws" then
    discard next
    return (false, ← commaList (errorType outer))
  else return (false, [])

def messageDeclaration (outer : Option String) (props : Members) (doc : Option String) :
    Parsing Unit := do
  let start ← peek
  let response ← responseType outer
  let name ← simpleIdentifier
  expectPunct "("
  let request ← listUntil ")" (parameter outer)
  expectPunct ")"
  let (oneWay, errors) ← messageEnd outer
  expectPunct ";"
  if (← get).messages.any (·.name = name) then failAt start (.duplicateMessage name)
  else
    let message ← locating start
      (makeMessage { name, request, response, errors, oneWay, doc, props })
    modify fun cursor => { cursor with messages := insertMessage message cursor.messages }

end Avroc.Idl
