import Avroc.File.Disk
import Avroc.Idl.Declaration
import Avroc.Idl.Lexer

/-!
# Protocols in the definition language

A file of the definition language declares one protocol.  It may import other files: their types
join the registry and their messages the protocol.  Paths of imports are seen from the directory
of the importing file, and each file is read once.
-/

namespace Avroc.Idl

/-- The kinds of files that can be imported. -/
inductive ImportKind
  | idl
  | protocol
  | schema
deriving DecidableEq, Repr, Inhabited

def ImportKind.ofName? : String → Option ImportKind
  | "idl" => some idl
  | "protocol" => some protocol
  | "schema" => some schema
  | _ => none

/-- How a file is imported: its types are defined, and its messages are the result. -/
abbrev Importer := ImportKind → Path → Loading (List Message)

/-! ### Imports -/

/-- Imports a file unless it has been read before. -/
def importOnce (disk : Disk) (importer : Importer) (kind : ImportKind) (word : String)
    (target : Path) : Loading (List Message) := do
  let session ← get
  if session.imported.contains (disk.resolve target) then return []
  else
    let record : LogRecord := ⟨.idl, .debug, "Importing " ++ word ++ " " ++ target.text⟩
    set { session with scope := session.scope.report record }
    importer kind target

def importDeclaration (disk : Disk) (importer : Importer) : Parsing Unit := do
  expectKeyword "import"
  let token ← next
  match if token.kind = .ident then ImportKind.ofName? token.value else none with
  | none => failAt token .expectedImportKind
  | some kind =>
    let location ← stringLiteral
    expectPunct ";"
    let base := match (← get).path with
      | some path => path.parent
      | none => disk.workingPath
    let target := base.join (.ofString location)
    let messages ← onSession (importOnce disk importer kind token.value target)
    modify fun cursor =>
      { cursor with messages := messages.foldl (fun ms m => insertMessage m ms) cursor.messages }

/-! ### Files -/

/-- A declaration of a protocol in namespace `outer`. -/
def protocolMember (disk : Disk) (importer : Importer) (outer : Option String) :
    Parsing Unit := do
  let first ← peek
  if first.kind = .eof then failHere .endInProtocol
  else if first.isKeyword "import" then importDeclaration disk importer
  else
    let props ← properties
    let token ← peek
    if token.isKeyword "record" || token.isKeyword "error" then
      recordDeclaration outer props first.doc
    else if token.isKeyword "enum" then enumDeclaration outer props first.doc
    else if token.isKeyword "fixed" then fixedDeclaration outer props first.doc
    else messageDeclaration outer props first.doc

/-- The declarations of a protocol in namespace `outer`, up to the end of the text. -/
def protocolBody (disk : Disk) (importer : Importer) (outer : Option String) : Parsing Unit := do
  expectPunct "\x7b"
  discard <| many (atPunct "\x7d") (protocolMember disk importer outer)
  expectPunct "\x7d"
  let token ← peek
  if token.kind ≠ .eof then failHere (.afterProtocol token.found)

/-- The protocol of a text. -/
def protocolDeclaration (disk : Disk) (importer : Importer) : Parsing Protocol := do
  let doc := (← peek).doc
  let props ← properties
  expectKeyword "protocol"
  let written ← identifier
  let space ← declaredSpace written ((props.get? "namespace").getD .null)
  protocolBody disk importer space
  let cursor ← get
  return { name := (splitName written none).1, space := .ofName space, doc,
           types := cursor.session.scope.registry.types, messages := cursor.messages,
           props := props.without ["namespace"] }

/-- The protocol of a text, with imports left to `importer`. -/
def loadWith (disk : Disk) (importer : Importer) (path : Option Path) (text : String) :
    Loading Protocol := fun session =>
  match tokenize path text with
  | .error e => (.error e, session)
  | .ok tokens =>
    let (result, cursor) := (protocolDeclaration disk importer).run ⟨session, path, tokens, []⟩
    (result, cursor.session)

/-- The result of reading a file, with the file named in refusals. -/
def inFile {α : Type} (path : Path) (step : Reading α) : Reading α :=
  tryCatch step fun e => throw (e.withPath path)

/-- The schema of a file. -/
def readSchemaFile (disk : Disk) (path : Path) : Reading Schema := do
  let text ← disk.readSource path
  inFile path (readSchemaText text)

/-- The protocol of a file in JSON. -/
def readProtocolFile (disk : Disk) (path : Path) : Reading Protocol := do
  let text ← disk.readSource path
  inFile path (readProtocolText text)

/-- The text of a file, which counts as read from now on. -/
def importText (disk : Disk) (target : Path) : Loading String := do
  modify fun session => { session with imported := session.imported ++ [disk.resolve target] }
  (disk.readSource target : Except Error String)

/-- Imports a file, with its own imports left to `importer`. -/
def importWith (disk : Disk) (importer : Importer) : Importer := fun kind target => do
  let text ← importText disk target
  match kind with
  | .protocol => return (← onScope (inFile target (readProtocolText text))).messages
  | .schema =>
    discard <| onScope (inFile target (readSchemaText text))
    return []
  | .idl => return (← loadWith disk importer (some target) text).messages

/-- Imports a file, with fewer than `depth` imports inside each other below it. -/
def importFile (disk : Disk) : Nat → Importer
  | 0 => fun _ _ => return []
  | depth + 1 => importWith disk (importFile disk depth)

/-- The protocol of a text, together with its imports.  Every file is read once, so imports that
succeed are nested at most as deep as there are files. -/
def load (disk : Disk) (path : Option Path) (text : String) : Loading Protocol :=
  loadWith disk (importFile disk (disk.fileCount + 1)) path text

/-- The protocol of a text, whose own file counts as read. -/
def readIdl (disk : Disk) (path : Option Path) (text : String) : Reading Protocol := fun scope =>
  let (result, session) := (load disk path text).run ⟨scope, path.toList.map disk.resolve⟩
  (result, session.scope)

end Avroc.Idl
