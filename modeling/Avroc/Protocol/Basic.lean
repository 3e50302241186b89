import Avroc.Schema.Document

/-!
# Protocols

A protocol is an interface: a name, the types it defines and the messages it exchanges.
-/

namespace Avroc

/-- A message of a protocol. -/
structure Message where
  name : String
  request : List Field
  response : Schema
  errors : List TypeId
  oneWay : Bool
  doc : Option String
  props : Members
deriving Inhabited

/-- A protocol. -/
structure Protocol where
  name : String
  space : Space
  doc : Option String
  types : List TypeId
  messages : List Message
  props : Members
deriving Inhabited

/-- The messages with one set: a name that is there keeps its place, a new one goes to the end. -/
def insertMessage (message : Message) : List Message → List Message
  | [] => [message]
  | m :: rest => if m.name = message.name then message :: rest else m :: insertMessage message rest

/-- The documents of named types mentioned one after the other. -/
def typeDocuments (mention : Mention) : List TypeId → Documenting (List Json)
  | [] => pure []
  | id :: rest => do
    let document ← mention id
    let documents ← typeDocuments mention rest
    return document :: documents

namespace Message

def documentWith (mention : Mention) (m : Message) : Documenting Json := do
  let request ← Field.documentsWith mention m.request
  let response ← m.response.documentWith mention
  let errors ← typeDocuments mention m.errors
  let members : Members := [("request", .array request), ("response", response)]
  return .object (Members.withMissing
    (members ++ textMember "doc" m.doc ++
      (if errors.isEmpty then [] else [("errors", .array errors)]) ++
      (if m.oneWay then [("one-way", .bool true)] else [])) m.props)

def documentsWith (mention : Mention) : List Message → Documenting Members
  | [] => pure []
  | m :: rest => do
    let document ← m.documentWith mention
    let documents ← documentsWith mention rest
    return (m.name, document) :: documents

end Message

namespace Protocol

def fullName (p : Protocol) : String :=
  joinName p.name p.space.text?

/-- The member for the namespace of a protocol. -/
def spaceMember : Space → Members
  | .root => []
  | .named s => [("namespace", .string s)]
  | .odd v => [("namespace", v)]

/-- The document of a protocol, with named types mentioned by `mention`. -/
def documentWith (mention : Mention) (p : Protocol) : Documenting Json := do
  let types ← typeDocuments mention p.types
  let messages ← Message.documentsWith mention p.messages
  let members : Members := [("protocol", .string p.name)]
  return .object (Members.withMissing
    (members ++ spaceMember p.space ++ textMember "doc" p.doc ++
      [("types", .array types), ("messages", .object messages)]) p.props)

/-- The document of a protocol. -/
def document (c : Catalog) (p : Protocol) : Except Misuse Json :=
  (p.documentWith c.mentions).run' []

def text (c : Catalog) (p : Protocol) : Except Misuse String :=
  (p.document c).map Json.render

end Protocol

end Avroc
