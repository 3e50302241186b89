import Avroc.Protocol.Basic
import Avroc.Schema.Reader

/-!
# Protocol documents

The protocol that a JSON object describes.

* `readProtocol` : the protocol of a JSON value.
* `readProtocolText` : the protocol of a document.
-/

namespace Avroc

/-- The attributes of a protocol that have a meaning of their own. -/
def protocolAttributes : List String :=
  ["protocol", "namespace", "doc", "types", "messages"]

/-- The attributes of a message that have a meaning of their own. -/
def messageAttributes : List String :=
  ["request", "response", "errors", "one-way", "doc"]

/-- Refuses a one-way message that has an answer or errors. -/
def makeMessage (message : Message) : Reading Message :=
  if message.oneWay && (!message.response.isNull || !message.errors.isEmpty) then
    refuse (.oneWay message.name)
  else pure message

/-- Reads the types of a protocol, which are named. -/
def readTypes (space : Space) : List Json → Reading Unit
  | [] => pure ()
  | v :: rest => do
    let type ← readSchema v space
    match type with
    | .named _ => readTypes space rest
    | _ => refuse (.unnamedType (← documentNow type))

def readErrors (space : Space) : List Json → Reading (List TypeId)
  | [] => pure []
  | v :: rest => do
    let id ← checkErrorType (← readSchema v space)
    let ids ← readErrors space rest
    return id :: ids

def readRequest (space : Space) : List Json → Reading (List Field)
  | [] => pure []
  | v :: rest => do
    let field ← readField v space
    let fields ← readRequest space rest
    return field :: fields

/-- What stands for the errors of a message: nothing, or the elements of a value. -/
def errorList (members : Members) : Reading (List Json) :=
  match members.get? "errors" with
  | none => pure []
  | some v =>
    match v.elements? with
    | some items => pure items
    | none => throw (.misuse (.notIterable v.kind))

def readMessageObject (space : Space) (name : String) (members : Members) : Reading Message := do
  match members.get? "request", members.get? "response" with
  | some (.array request), some response =>
    let errors ← readErrors space (← errorList members)
    let request ← readRequest space request
    let response ← readSchema response space
    makeMessage
      { name, request, response, errors,
        oneWay := ((members.get? "one-way").getD .null).isTruthy,
        doc := docOf members, props := members.without messageAttributes }
  | some (.array _), none => refuse (.noResponse name)
  | _, _ => refuse (.noRequest name)

def readMessage (space : Space) (name : String) : Json → Reading Message
  | .object members => readMessageObject space name members
  | _ => refuse (.messageNotObject name)

def readMessages (space : Space) : Members → Reading (List Message)
  | [] => pure []
  | (name, v) :: rest => do
    let message ← readMessage space name v
    let messages ← readMessages space rest
    return message :: messages

/-- The name and the namespace of a protocol document. -/
def protocolName (written : String) (space : Json) : String × Space :=
  match Text.splitAtLast? '.' written.toList with
  | some _ =>
    let (name, space) := splitName written none
    (name, .ofName space)
  | none => (written, .ofJson space)

def readProtocolObject (members : Members) : Reading Protocol := do
  match members.get? "protocol" with
  | some (.string written) =>
    if written = "" then refuse .noProtocolName
    else
      let (name, space) := protocolName written ((members.get? "namespace").getD .null)
      match (members.get? "types").getD (.array []) with
      | .array types =>
        let before := (← get).registry.names
        readTypes space types
        match (members.get? "messages").getD (.object []) with
        | .object messages =>
          let messages ← readMessages space messages
          return { name, space, doc := docOf members, messages,
                   types := (← get).registry.newTypes before,
                   props := members.without protocolAttributes }
        | _ => refuse .messagesNotObject
      | _ => refuse .typesNotArray
  | _ => refuse .noProtocolName

def readProtocol : Json → Reading Protocol
  | .object members => readProtocolObject members
  | _ => refuse .protocolNotObject

def readProtocolText (text : String) : Reading Protocol := do
  readProtocol (← loadJson text)

end Avroc
