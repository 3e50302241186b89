import Avroc.Idl.Protocol
import Avroc.Proofs.Step

/-!
# Outlines

What a text of the definition language consists of, before any name in it has a meaning: which
declarations it makes, which properties stand before them and inside them, and which names their
types mention.  An outline is read off the tokens alone, so it can say which texts a statement is
about.
-/

namespace Avroc.Idl

/-! ### Types -/

/-- The outline of a type: the properties in it, and the names of declared types. -/
structure TypeOutline where
  props : Members
  mentions : List String
deriving Inhabited

/-- The names that a word mentions as a type: none if it is a keyword. -/
def Token.mentions (t : Token) : List String :=
  match if t.escaped then none else keywordType? t.value with
  | some _ => []
  | none => [t.value]

/-- The outline of a type that starts with a token, with the outlines of its parts. -/
def insideOutline (part : Parsing TypeOutline) (token : Token) : Parsing TypeOutline := do
  if token.isKeyword "array" || token.isKeyword "map" then
    discard next
    expectPunct "<"
    let inside ← part
    expectPunct ">"
    return inside
  else if token.isKeyword "union" then
    discard next
    expectPunct "\x7b"
    let branches ← commaList part
    expectPunct "\x7d"
    return ⟨branches.flatMap (·.props), branches.flatMap (·.mentions)⟩
  else if token.isKeyword "decimal" then
    discard decimalType
    return ⟨[], []⟩
  else
    discard next
    return ⟨[], token.mentions⟩

/-- The question mark that may follow a type. -/
def optionalOutline : Parsing Unit := do
  if ← atPunct "?" then discard next

/-- The outline of a type, nested at most `depth` deep. -/
def typeOutlineWithin : Nat → Parsing TypeOutline
  | 0 => failHere (.expectedType none)
  | depth + 1 => do
    let props ← properties
    let token ← peek
    let inside ← insideOutline (typeOutlineWithin depth) token
    optionalOutline
    return { inside with props := props ++ inside.props }

/-- The outline of a type. -/
def typeOutline : Parsing TypeOutline := do
  typeOutlineWithin (← get).tokens.length

/-! ### Fields -/

/-- The outline of a declaration of fields: the properties in it, the names that its type mentions
and the number of its variables. -/
structure FieldOutline where
  props : Members
  mentions : List String
  arity : Nat
deriving Inhabited

/-- The properties of a variable. -/
def declaratorOutline : Parsing Members := do
  let props ← properties
  discard simpleIdentifier
  discard defaultValue
  return props

/-- The outline of a declaration of fields. -/
def fieldOutline : Parsing FieldOutline := do
  let props ← properties
  let type ← typeOutline
  let own ← commaList declaratorOutline
  expectPunct ";"
  return ⟨props ++ type.props ++ own.flatten, type.mentions, own.length⟩

/-! ### Declarations -/

/-- The outline of a declaration in a protocol, with the properties that stand before it; those of
a message include the ones inside it. -/
inductive MemberOutline
  | imported
  | record (props : Members) (written : String) (fields : List FieldOutline)
  | enum (props : Members)
  | fixed (props : Members) (size : Int)
  | message (props : Members)
deriving Inhabited

/-- The outline of an import. -/
def importOutline : Parsing MemberOutline := do
  expectKeyword "import"
  discard next
  discard stringLiteral
  expectPunct ";"
  return .imported

/-- The outline of a record or an error. -/
def recordOutline (props : Members) : Parsing MemberOutline := do
  discard next
  let written ← identifier
  expectPunct "\x7b"
  let fields ← many (atPunct "\x7d") fieldOutline
  expectPunct "\x7d"
  return .record props written fields

/-- The outline of an enum. -/
def enumOutline (props : Members) : Parsing MemberOutline := do
  expectKeyword "enum"
  discard identifier
  expectPunct "\x7b"
  discard <| listUntil "\x7d" simpleIdentifier
  expectPunct "\x7d"
  discard enumDefault
  return .enum props

/-- The outline of a fixed type. -/
def fixedOutline (props : Members) : Parsing MemberOutline := do
  expectKeyword "fixed"
  discard identifier
  expectPunct "("
  let size ← integerLiteral
  expectPunct ")"
  expectPunct ";"
  return .fixed props size

/-- The properties in the answer of a message. -/
def responseOutline : Parsing Members := do
  if ← atKeyword "void" then
    discard next
    return []
  else return (← typeOutline).props

/-- The properties in a parameter of a message. -/
def parameterOutline : Parsing Members := do
  let props ← properties
  let type ← typeOutline
  return props ++ type.props ++ (← declaratorOutline)

/-- The end of a message. -/
def messageEndOutline : Parsing Unit := do
  if ← atKeyword "oneway" then discard next
  else if ← atKeyword "throws" then
    discard next
    discard <| commaList identifier

/-- The outline of a message. -/
def messageOutline (props : Members) : Parsing MemberOutline := do
  let response ← responseOutline
  discard simpleIdentifier
  expectPunct "("
  let request ← listUntil ")" parameterOutline
  expectPunct ")"
  messageEndOutline
  expectPunct ";"
  return .message (props ++ response ++ request.flatten)

/-- The outline of a declaration that starts with a token, after its properties. -/
def declarationOutline (props : Members) (token : Token) : Parsing MemberOutline :=
  if token.isKeyword "record" || token.isKeyword "error" then recordOutline props
  else if token.isKeyword "enum" then enumOutline props
  else if token.isKeyword "fixed" then fixedOutline props
  else messageOutline props

/-- The outline of a declaration. -/
def memberOutline : Parsing MemberOutline := do
  if (← peek).isKeyword "import" then importOutline
  else
    let props ← properties
    declarationOutline props (← peek)

/-! ### Protocols -/

/-- The outline of a protocol. -/
structure Outline where
  props : Members
  written : String
  members : List MemberOutline
deriving Inhabited

/-- The outlines of the declarations of a protocol. -/
def bodyOutline : Parsing (List MemberOutline) := do
  expectPunct "\x7b"
  let members ← many (atPunct "\x7d") memberOutline
  expectPunct "\x7d"
  return members

/-- The outline of a protocol. -/
def protocolOutline : Parsing Outline := do
  let props ← properties
  expectKeyword "protocol"
  let written ← identifier
  return ⟨props, written, ← bodyOutline⟩

/-- The outline of a text. -/
def outline? (text : String) : Option Outline :=
  match tokenize none text with
  | .error _ => none
  | .ok tokens => (outcome protocolOutline { (default : Cursor) with tokens }).1.toOption

/-! ### Plain texts -/

/-- Whether a property gives a namespace, by a text that is not empty. -/
def isSpaceProperty : String × Json → Bool
  | (key, .string s) => key = "namespace" && s ≠ ""
  | _ => false

/-- The namespace of a declaration inside another one, by its name or its properties. -/
def writtenSpace (outer : Option String) (props : Members) (written : String) : Option String :=
  if written.toList.contains '.' then (splitName written none).2
  else match props.get? "namespace" with
    | some (.string s) => spaceOf s
    | _ => outer

/-- Whether a name mentions the type that a declaration in a namespace defines. -/
def mentionsDeclared (written : String) (space : Option String) (name : String) : Bool :=
  name = (splitName written none).1 || name = joinName (splitName written none).1 space

/-- Whether a declaration of fields has no properties, and mentions its own record in the type of
one field at most. -/
def FieldOutline.isPlain (written : String) (space : Option String) (f : FieldOutline) : Bool :=
  f.props.isEmpty && (f.arity ≤ 1 || f.mentions.all (!mentionsDeclared written space ·))

/-- Whether a declaration in a namespace is no import, has no properties but namespaces of named
types, and no negative size. -/
def MemberOutline.isPlain (outer : Option String) : MemberOutline → Bool
  | .imported => false
  | .record props written fields =>
    props.all isSpaceProperty &&
      fields.all (·.isPlain written (writtenSpace outer props written))
  | .enum props => props.all isSpaceProperty
  | .fixed props size => props.all isSpaceProperty && 0 ≤ size
  | .message props => props.isEmpty

/-- Whether a protocol imports nothing, has no properties but the namespaces of itself and of named
types, no negative sizes, and no declaration of several fields that mentions its own record. -/
def Outline.isPlain (o : Outline) : Bool :=
  o.props.all isSpaceProperty && o.members.all (·.isPlain (writtenSpace none o.props o.written))

end Avroc.Idl
