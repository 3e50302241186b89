import Avroc.Module.DefaultLiteral
import Avroc.Module.DocString
import Avroc.Module.TypeHint
import Avroc.Protocol.Basic

/-!
# Generated modules

The Python module of a named type, and that of a protocol.

* `typeModule` : the module of a named type.
-/

namespace Avroc

/-- A generated module. -/
structure SourceFile where
  path : Path
  content : String
deriving DecidableEq, Repr, Inhabited

/-- Lines as a text, each with a line feed after it. -/
def linesText (lines : List String) : String :=
  "\n".intercalate lines ++ "\n"

/-! ### Common parts -/

/-- A text that is there and not empty. -/
def givenText (text : Option String) : Option String :=
  match text with
  | some s => if s = "" then none else some s
  | none => none

def headerLines (title fullName : String) (doc : Option String) : List String :=
  let docText := match givenText doc with
    | some s => "\n" ++ Text.trimmed s ++ "\n"
    | none => ""
  docString (title ++ "\n" ++ docText ++ "\nAuto-generated by avrogen from " ++ fullName ++
      ".\nDo not edit directly - modify the Avro definition instead.") "" ++
    ["", "from __future__ import annotations", ""]

/-- The import lines; everything else in the module has been written before. -/
def importBlock : Rendering (List String) :=
  modifyGet ImportTable.importLines

/-- A constant that holds the text of a document, itself as a JSON string. -/
def documentConstant (name : String) (document : Json) : String :=
  name ++ " = " ++ Json.renderString document.render

/-- The class method that returns the document. -/
def schemaMethod (constant method : String) : Rendering (List String) := do
  let typing ← libraryAlias .typing true
  let json ← libraryAlias .json true
  return ["    @classmethod",
    "    def " ++ method ++ "(cls) -> dict[str, " ++ typing ++ ".Any]:",
    "        " ++ tripleQuote ++ "Return the Avro definition this class was generated from." ++
      tripleQuote,
    "        return " ++ json ++ ".loads(" ++ constant ++ ")"]

def documentOf (c : Catalog) (id : TypeId) : Rendering Json :=
  ((Schema.named id).document c : Except Misuse Json)

/-! ### Records -/

def attributeName (o : CompileOptions) (name : String) : String :=
  if o.visibility = .isPrivate then "_" ++ name else safeName name

/-- The arguments of a field declaration: its default, and the mark of a deprecated field. -/
def fieldArguments (c : Catalog) (o : CompileOptions) (f : Field) : List String :=
  let default := match f.default with
    | some value =>
      if isMutable value then ["default_factory=lambda: " ++ defaultLiteral c f.type value]
      else ["default=" ++ defaultLiteral c f.type value]
    | none => []
  let mark := if o.visibility = .isDeprecated then ["metadata=\x7b\"deprecated\": True\x7d"] else []
  default ++ mark

def fieldValue (c : Catalog) (o : CompileOptions) (f : Field) : Rendering String := do
  match o.visibility, f.default, fieldArguments c o f with
  | _, _, [] => return ""
  | visibility, some value, arguments =>
    if visibility ≠ .isDeprecated && !isMutable value then
      return " = " ++ defaultLiteral c f.type value
    else return " = " ++ (← libraryAlias .dataclasses true) ++ ".field(" ++
      ", ".intercalate arguments ++ ")"
  | _, none, arguments =>
    return " = " ++ (← libraryAlias .dataclasses true) ++ ".field(" ++
      ", ".intercalate arguments ++ ")"

def fieldComment (doc : Option String) : List String :=
  match givenText doc with
  | some s => (Text.linesOf (Text.trimmed s)).map ("    # " ++ ·)
  | none => []

def accessors (name slot hint : String) : List String :=
  ["    def get_" ++ name ++ "(self) -> " ++ hint ++ ":\n        return self." ++ slot,
   "    def set_" ++ name ++ "(self, value: " ++ hint ++ ") -> None:\n        self." ++ slot ++
     " = value"]

/-- The declaration lines of a field, and its accessors. -/
def fieldLines (c : Catalog) (o : CompileOptions) (f : Field) :
    Rendering (List String × List String) := do
  let hint ← f.type.typeHint c o
  let slot := attributeName o f.name
  let value ← fieldValue c o f
  return (fieldComment f.doc ++ ["    " ++ slot ++ ": " ++ hint ++ value],
    accessors f.name slot hint)

def recordModule (c : Catalog) (o : CompileOptions) (id : TypeId) (isError : Bool)
    (fields : List Field) : Rendering String := do
  let d := c.definition id
  let kind := if isError then "error" else "record"
  let parts ← fields.mapM (fieldLines c o)
  let body := parts.flatMap (·.1)
  let dataclasses ← libraryAlias .dataclasses true
  let method ← schemaMethod "SCHEMA_JSON" "avro_schema"
  let imports ← importBlock
  let document ← documentOf c id
  return linesText <|
    headerLines (d.name ++ " " ++ kind ++ ".") d.fullName d.doc ++ imports ++
    ["", documentConstant "SCHEMA_JSON" document, "", ""] ++
    ["@" ++ dataclasses ++ ".dataclass(kw_only=True" ++
       (if isError then ", eq=False" else "") ++ ")",
     "class " ++ d.name ++ (if isError then "(Exception)" else "") ++ ":"] ++
    docString ((givenText d.doc).getD ("Avro " ++ kind ++ " " ++ d.fullName ++ ".")) "    " ++
    (if body.isEmpty then [] else "" :: body) ++ [""] ++ method ++
    (parts.flatMap (·.2)).flatMap fun accessor => ["", accessor]

/-! ### Enums and fixed types -/

def enumModule (c : Catalog) (id : TypeId) (symbols : List String) : Rendering String := do
  let d := c.definition id
  let base ← libraryAlias .enum true
  let method ← schemaMethod "SCHEMA_JSON" "avro_schema"
  let imports ← importBlock
  let document ← documentOf c id
  return linesText <|
    headerLines (d.name ++ " enum.") d.fullName d.doc ++ imports ++
    ["", documentConstant "SCHEMA_JSON" document, "", "",
     "class " ++ d.name ++ "(" ++ base ++ ".Enum):"] ++
    docString ((givenText d.doc).getD ("Avro enum " ++ d.fullName ++ ".")) "    " ++ [""] ++
    (symbols.map fun symbol => "    " ++ safeName symbol ++ " = " ++ Json.renderString symbol) ++
    (if symbols.isEmpty then [] else [""]) ++ method

def fixedModule (c : Catalog) (id : TypeId) (size : Int) : Rendering String := do
  let d := c.definition id
  let bytes := toString size
  let method ← schemaMethod "SCHEMA_JSON" "avro_schema"
  let imports ← importBlock
  let document ← documentOf c id
  return linesText <|
    headerLines (d.name ++ " fixed.") d.fullName d.doc ++ imports ++
    ["", documentConstant "SCHEMA_JSON" document, "", "", "class " ++ d.name ++ "(bytes):"] ++
    docString ((givenText d.doc).getD
      ("Avro fixed " ++ d.fullName ++ " (" ++ bytes ++ " bytes).")) "    " ++
    ["",
     "    SIZE = " ++ bytes,
     "",
     "    def __new__(cls, value: bytes = bytes(" ++ bytes ++ ")) -> " ++ d.name ++ ":",
     "        if len(value) != cls.SIZE:",
     "            raise ValueError(",
     "                \"%s requires %d bytes, got %d\" % (cls.__name__, cls.SIZE, len(value))",
     "            )",
     "        return super().__new__(cls, value)",
     ""] ++ method

/-! ### Types -/

/-- The names that the class of a type binds. -/
def boundNames (o : CompileOptions) : Body → List String
  | .record _ fields => fields.map fun f => attributeName o f.name
  | .enum symbols _ => symbols.map safeName
  | .fixed _ => []

def typeModule (c : Catalog) (o : CompileOptions) (id : TypeId) : Except Misuse SourceFile := do
  let d := c.definition id
  let step := match d.body with
    | .record isError fields => recordModule c o id isError fields
    | .enum symbols _ => enumModule c id symbols
    | .fixed size => fixedModule c id size
  let content ← step.run' (.ofType d (boundNames o d.body))
  return ⟨modulePath d.fullName, content⟩

def typeModules (c : Catalog) (o : CompileOptions) (ids : List TypeId) :
    Except Misuse (List SourceFile) :=
  ids.mapM (typeModule c o)

/-- The module of a type, which has to be a named one. -/
def schemaModule (c : Catalog) (o : CompileOptions) : Schema → Except Misuse SourceFile
  | .named id => typeModule c o id
  | s => .error (.unnamedType (s.typeName c))

/-! ### Protocols -/

def parameterText (c : Catalog) (o : CompileOptions) (f : Field) : Rendering String := do
  return safeName f.name ++ ": " ++ (← f.type.typeHint c o)

/-- The documentation of a message: what it is given, and the errors it may raise. -/
def messageDoc (m : Message) (errors : List String) : String :=
  let text := (givenText m.doc).getD
    (if m.oneWay then "One-way message." else m.name ++ " message.")
  if errors.isEmpty then text
  else text ++ "\n\nRaises:\n" ++ "\n".intercalate (errors.map ("    " ++ ·))

def messageMethod (c : Catalog) (o : CompileOptions) (m : Message) : Rendering (List String) := do
  let parameters ← m.request.mapM (parameterText c o)
  let result ← if m.oneWay then pure "None" else m.response.typeHint c o
  let errors ← m.errors.mapM (typeReference c)
  return ["    def " ++ safeName m.name ++ "(" ++ ", ".intercalate ("self" :: parameters) ++
      ") -> " ++ result ++ ":"] ++
    docString (messageDoc m errors) "        " ++ ["        ..."]

def interfaceModule (c : Catalog) (o : CompileOptions) (p : Protocol) : Rendering String := do
  let methods ← p.messages.mapM (messageMethod c o)
  let typing ← libraryAlias .typing true
  let method ← schemaMethod "PROTOCOL_JSON" "avro_protocol"
  let imports ← importBlock
  let document ← (p.document c : Except Misuse Json)
  return linesText <|
    headerLines (p.name ++ " protocol.") p.fullName p.doc ++ imports ++
    ["", documentConstant "PROTOCOL_JSON" document, "", "",
     "class " ++ p.name ++ "(" ++ typing ++ ".Protocol):"] ++
    docString ((givenText p.doc).getD ("Avro protocol " ++ p.fullName ++ ".")) "    " ++
    (methods.flatMap fun lines => "" :: lines) ++ [""] ++ method

/-- The modules of a protocol: those of its types, and its own. -/
def protocolModules (c : Catalog) (o : CompileOptions) (p : Protocol) :
    Except Misuse (List SourceFile) := do
  let types ← typeModules c o p.types
  let reserved := p.messages.map fun m => safeName m.name
  let content ← (interfaceModule c o p).run' (.ofNone reserved)
  return types ++ [⟨modulePath p.fullName, content⟩]

end Avroc
